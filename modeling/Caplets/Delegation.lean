import Caplets.Checks
import Caplets.Paths

/-!
# What delegation enforces

The frames of a token can be kept and the request behind them replaced : the new tag is the
chain over the printed elements, and an identity token can be made for it
(`exists_accepted`). So what the checks enforce is a property of the frames alone.

Two things delegation is for are not enforced in general. A request accepted behind the
frames `fs` is covered by every frame exactly if every capability of the last frame lies in
one of each frame before (`covered_by_every_frame_iff`), which the derivation check does
not imply because coverage is not transitive. All constraints of the frames hold for every
accepted request exactly if the first constrained frame implies those of the others
(`all_constraints_valid_iff`), because no other constraints are looked at.
-/

namespace Caplets

open Delimited KeyedChain

/-! ## Frames with another request -/

/-- The frames that pieces in front of a last piece are read as. -/
def ReadsFrames (stale : ℕ → ℕ → CapabilityType) (ps : List Str) (fs : List Frame) : Prop :=
  (∀ p ∈ ps, First frameMarker p) ∧ Element.Reads stale false 0 ps (fs.map .frame)

section Frames

variable {mac : Mac} {stale : ℕ → ℕ → CapabilityType} {s : Str} {t : CapabilityToken}
  {fs : List Frame} {ps : List Str}

theorem exists_readsFrames {calcTag : Bool} {r : Request}
    (h : CapabilityToken.empty.fromString mac stale s calcTag = .ok t)
    (hbody : t.body = fs.map .frame ++ [.request r]) : ∃ ps, ReadsFrames stale ps fs := by
  obtain ⟨ps, p, fs', e, hps, hes, hr, -⟩ :=
    readsBody_iff.1 (CapabilityToken.readsBody_of_fromString h)
  rw [hbody] at hes
  obtain ⟨hfs, -⟩ := List.append_inj' hes rfl
  obtain ⟨text, -, hs⟩ := splits_of_strFrames hps
  exact ⟨ps, fun q hq => hs.first_of_mem_dropLast q (by simpa using hq), hfs ▸ hr⟩

/-- Behind the same pieces any clean request can stand, and in front of them any tag. -/
theorem fromString_request (hps : ReadsFrames stale ps fs) {r : Request} (hr : r.Clean)
    (hmark : ¬frameMarker <:+: r.toString) {tag : Str} (htag : IsTag tag) :
    CapabilityToken.empty.fromString mac stale
        (tag ++ frameMarker ++ frameMarker.intercalate (ps ++ [r.toString])) false =
      .ok ⟨tag, fs.map .frame ++ [.request r], some r⟩ := by
  have hsplit : Splits frameMarker (frameMarker.intercalate (ps ++ [r.toString]))
      (ps ++ [r.toString]) := by
    refine splits_intercalate (fun p hp => hps.1 p (by simpa using hp)) fun p hp => ?_
    obtain rfl : r.toString = p := by simpa using hp
    exact ⟨r.toString_ne_nil, hmark⟩
  have hlast : Element.ReadsLast stale ps.length r.toString (.request r) :=
    ⟨r.requestMarker_prefix_toString.isInfix, Request.fromString_toString hr _⟩
  refine CapabilityToken.fromString_false_eq_ok.2 ⟨_,
    (readsBody_append htag.first_frameMarker hsplit).2 ⟨fs, _, rfl, hps.2, hlast⟩, ?_⟩
  rw [tagText_append htag.first_frameMarker, htag.trim_eq, Element.lastRequest_append_request]

end Frames

/-! ## Acceptance -/

/-- The identity token for an identity and the tag of a capability token. -/
def identityFor (mac : Mac) (identity tag : Str) : IdentityToken :=
  ⟨chain mac.computeMac SECRET [IDENTITY_TOKEN_DUMMY_BODY, identity, tag], identity, tag⟩

/-- It is valid for every token whose tag is the same up to the first null character. -/
theorem isValidIdentityToken_identityFor (mac : Mac) {t : CapabilityToken} {identity tag : Str}
    (hid : identity ≠ []) (hne : tag ≠ []) (htag : cStr tag = cStr t.tag) :
    t.isValidIdentityToken mac (identityFor mac identity tag) = true := by
  have hchain : IsTag (identityFor mac identity tag).tag := mac.isTag_chain _ (by simp)
  rw [CapabilityToken.isValidIdentityToken_iff, IdentityToken.isValidSignature_iff, hchain.cStr_eq]
  exact ⟨⟨hid, hne, hchain.ne_nil⟩, htag, rfl⟩

/-- A token for the identity in `token`, if there is one, and the tag of `t`. -/
def presentedTo (mac : Mac) (t : CapabilityToken) (token : Option IdentityToken) :
    Option IdentityToken :=
  token.map fun i => identityFor mac i.identityToken t.tag

theorem identityOf_presentedTo (mac : Mac) (t : CapabilityToken) (token : Option IdentityToken) :
    identityOf (presentedTo mac t token) = identityOf token := by
  cases token with
  | none => rfl
  | some i => rfl

theorem identityAccepted_presentedTo (mac : Mac) {t : CapabilityToken}
    {token : Option IdentityToken} (hid : ∀ i ∈ token, i.identityToken ≠ []) (htag : t.tag ≠ []) :
    t.IdentityAccepted mac (presentedTo mac t token) := by
  intro i' hi'
  obtain ⟨i, hi, rfl⟩ := Option.map_eq_some_iff.1 hi'
  exact isValidIdentityToken_identityFor mac (hid i hi) htag rfl

/-- A token with the tag of its body is valid with a fitting identity token, if its elements
are derived. -/
theorem continueValidation_presentedTo (mac : Mac) {t : CapabilityToken}
    {token : Option IdentityToken} (hbody : t.body ≠ []) (htag : t.tag = mac.bodyTag t.body)
    (hid : ∀ i ∈ token, i.identityToken ≠ []) (hder : t.isValidDerivation token = true) :
    t.continueValidation mac (presentedTo mac t token) = true := by
  have hout : IsTag t.tag := htag ▸ mac.isTag_bodyTag hbody
  refine CapabilityToken.continueValidation_iff.2
    ⟨identityAccepted_presentedTo mac hid hout.ne_nil, ?_, ?_⟩
  · rw [CapabilityToken.isValidSignature_iff, hout.cStr_eq, htag]
  · rwa [CapabilityToken.isValidDerivation_congr (identityOf_presentedTo mac t token)]

/-- The frames are derived from one another, and the constraints that are looked at are
satisfied by an identity that can be presented. -/
structure Usable (fs : List Frame) (token : Option IdentityToken) : Prop where
  derived : Element.Derived (fs.map .frame)
  identity : ∀ i ∈ token, i.identityToken ≠ []
  constraints : ∀ k ∈ Element.firstConstraints (fs.map .frame), k.isValidConstraint token = true

section Acceptance

variable {mac : Mac} {stale : ℕ → ℕ → CapabilityType} {s : Str} {t : CapabilityToken}
  {fs : List Frame} {ps : List Str} {r : Request} {token token' : Option IdentityToken}

/-- Who can use the frames is a matter of the identity alone. -/
theorem Usable.congr (h : Usable fs token) (hsame : identityOf token' = identityOf token) :
    Usable fs token' where
  derived := h.derived
  identity := identityToken_ne_nil_congr hsame h.identity
  constraints k hk := by
    rw [Constraint.isValidConstraint_congr hsame]
    exact h.constraints k hk

theorem isValidDerivation_iff_of_body {e : Element} (hbody : t.body = fs.map .frame ++ [e])
    (he : e.getCapabilities = []) :
    t.isValidDerivation token = true ↔ Element.Derived (fs.map .frame) ∧
      ∀ k ∈ Element.firstConstraints (fs.map .frame), k.isValidConstraint token = true := by
  rw [CapabilityToken.isValidDerivation_iff, hbody, Element.derived_concat he,
    List.dropLast_concat]
  simp

/-- What an accepted request says about the frames in front of it. -/
theorem usable_of_accepted (hs : CapabilityToken.empty.fromString mac stale s false = .ok t)
    (hbody : t.body = fs.map .frame ++ [.request r]) (h : t.isValidRequest mac token = .ok true) :
    Usable fs token ∧ ':' ∉ r.capability.resource ∧ ∃ f ∈ fs.getLast?, ∃ c ∈ f.capabilities,
      c.type = .deviceCap ∧ covered r.capability c = true := by
  obtain ⟨hcont, es, e, r', hbody', c, hc, hcov⟩ := CapabilityToken.isValidRequest_eq_true_iff.1 h
  obtain ⟨hid, -, hder⟩ := CapabilityToken.continueValidation_iff.1 hcont
  obtain ⟨hderived, hvalid⟩ := (isValidDerivation_iff_of_body hbody rfl).1 hder
  have hclean : Element.Clean (.request r) :=
    (CapabilityToken.readsBody_of_fromString hs).clean _ (by simp [hbody])
  refine ⟨⟨hderived, fun i hi => ?_, hvalid⟩, hclean.resource, ?_⟩
  · exact (CapabilityToken.isValidIdentityToken_iff.1 (hid i hi)).1.1
  · have hsplit : fs.map Element.frame ++ [.request r] = (es ++ [e]) ++ [.request r'] := by
      rw [← hbody, hbody', List.append_assoc]
      rfl
    obtain ⟨hfs, hr⟩ := List.append_inj' hsplit rfl
    obtain rfl : r = r' := by simpa using hr
    have hlast : (fs.map Element.frame).getLast? = some e := by rw [hfs, List.getLast?_concat]
    rw [List.getLast?_map, Option.map_eq_some_iff] at hlast
    obtain ⟨f, hf, rfl⟩ := hlast
    refine ⟨f, hf, c, hc, ?_, hcov⟩
    rw [← (isCapSubsetOfCap_iff.1 (covered_iff.1 hcov).2).1, hclean.type]

/-- The frames with a request behind them, and the tag of both. -/
def tokenFor (mac : Mac) (fs : List Frame) (r : Request) : CapabilityToken :=
  ⟨mac.bodyTag (fs.map .frame ++ [.request r]), fs.map .frame ++ [.request r], some r⟩

/-- It passes the signature check. -/
theorem isValidSignature_tokenFor : (tokenFor mac fs r).isValidSignature mac = true := by
  rw [CapabilityToken.isValidSignature_iff, tokenFor, mac.cStr_bodyTag]

/-- A request that the last frame covers is accepted from whoever can use the frames. -/
theorem isValidRequest_tokenFor (husable : Usable fs token) {f : Frame} (hf : fs.getLast? = some f)
    {c : CapabilityStructure} (hc : c ∈ f.capabilities) (hcov : covered r.capability c = true)
    (hid : (tokenFor mac fs r).IdentityAccepted mac token')
    (hsame : identityOf token' = identityOf token) :
    (tokenFor mac fs r).isValidRequest mac token' = .ok true := by
  obtain ⟨gs, rfl⟩ := List.getLast?_eq_some_iff.1 hf
  rw [CapabilityToken.isValidRequest_eq_true_iff, CapabilityToken.continueValidation_iff]
  refine ⟨⟨hid, isValidSignature_tokenFor, ?_⟩, gs.map .frame, .frame f, r, by simp [tokenFor], c,
    hc, hcov⟩
  rw [CapabilityToken.isValidDerivation_congr hsame]
  exact (isValidDerivation_iff_of_body rfl rfl).2 ⟨husable.derived, husable.constraints⟩

/-- Usable frames are accepted with every clean request that their last frame covers. -/
theorem exists_accepted (mac : Mac) (hps : ReadsFrames stale ps fs) (husable : Usable fs token)
    {f : Frame} (hf : fs.getLast? = some f) (hr : r.Clean) (hmark : ¬frameMarker <:+: r.toString)
    {c : CapabilityStructure} (hc : c ∈ f.capabilities) (hcov : covered r.capability c = true) :
    ∃ s' t' token', CapabilityToken.empty.fromString mac stale s' false = .ok t' ∧
      t'.body = fs.map .frame ++ [.request r] ∧ identityOf token' = identityOf token ∧
        t'.isValidRequest mac token' = .ok true := by
  have htag : IsTag (mac.bodyTag (fs.map .frame ++ [.request r])) := mac.isTag_bodyTag (by simp)
  have hsame := identityOf_presentedTo mac (tokenFor mac fs r) token
  exact ⟨_, tokenFor mac fs r, _, fromString_request hps hr hmark htag, rfl, hsame,
    isValidRequest_tokenFor husable hf hc hcov
      (identityAccepted_presentedTo mac husable.identity htag.ne_nil) hsame⟩

end Acceptance

/-! ## No escalation -/

theorem frameMarker_free_genericRequest {c : CapabilityStructure} {x : Str} {n : ℕ}
    (hc : ¬frameMarker <:+: c.resource) (hx : '%' ∉ x) :
    ¬frameMarker <:+: (genericRequest c x n).toString := by
  refine Request.frameMarker_free_toString fun y hy hin => ?_
  simp only [genericRequest, List.mem_cons, List.not_mem_nil, or_false] at hy
  rcases hy with rfl | rfl | rfl
  · obtain ⟨y, hy, hin'⟩ := exists_infix_of_infix_pathOf (by decide) (by decide) hin
    rcases Patterns.mem_generic _ _ hy with rfl | ⟨hy, -⟩
    · exact hx (hin'.subset percent_mem_frameMarker)
    · obtain ⟨z, hz, rfl⟩ := List.mem_map.1 hy
      have hz := (splits_splitString (d := ['/']) (by simp) c.resource).infix_of_mem z hz
      exact hc ((hin'.trans (cStr_infix_self z)).trans hz)
  · exact absurd (hin.subset percent_mem_frameMarker) (by simp)
  · exact absurd (hin.subset percent_mem_frameMarker) (by simp)

/-- A component that occurs nowhere. -/
theorem exists_fresh (xs : List Str) :
    ∃ x : Str, x ∉ xs ∧ '/' ∉ x ∧ '\x00' ∉ x ∧ ':' ∉ x ∧ '%' ∉ x := by
  refine ⟨List.replicate (xs.flatten.length + 1) 'a', fun h => ?_, ?_⟩
  · have hle := (List.sublist_flatten_of_mem h).length_le
    simp only [List.length_replicate] at hle
    omega
  · simp

theorem resource_free_of_readsFrames {stale : ℕ → ℕ → CapabilityType} {hasRequest : Bool} :
    ∀ {i : ℕ} {ps : List Str} {es : List Element}, Element.Reads stale hasRequest i ps es →
      (∀ p ∈ ps, ¬frameMarker <:+: p) →
        ∀ e ∈ es, ∀ c ∈ e.getCapabilities, ¬frameMarker <:+: c.resource
  | _, _, _, .nil, _, _, he => absurd he (by simp)
  | _, _, _, .frame _ hf hr, hps, e, he => by
    intro c hc hin
    rcases List.mem_cons.1 he with rfl | he
    · exact hps _ (by simp) (hin.trans (Frame.resource_infix_of_fromString hf c hc))
    · exact resource_free_of_readsFrames hr (fun p hp => hps p (by simp [hp])) e he c hc hin
  | _, _, _, .request _ _, _, e, he => by
    obtain rfl := List.mem_singleton.1 he
    simp [Element.getCapabilities]

/-- Usable frames are accepted with the generic request of each device capability of the
last frame. -/
theorem exists_accepted_genericRequest {mac : Mac} {stale : ℕ → ℕ → CapabilityType} {s : Str}
    {t : CapabilityToken} {fs : List Frame} {r : Request} {token : Option IdentityToken}
    (h : CapabilityToken.empty.fromString mac stale s false = .ok t)
    (hbody : t.body = fs.map .frame ++ [.request r]) (husable : Usable fs token) {f : Frame}
    (hf : fs.getLast? = some f) {c : CapabilityStructure} (hc : c ∈ f.capabilities)
    (htype : c.type = .deviceCap) {x : Str}
    (hx : '/' ∉ x ∧ '\x00' ∉ x ∧ ':' ∉ x ∧ '%' ∉ x) (n : ℕ) :
    ∃ s' t' token', CapabilityToken.empty.fromString mac stale s' false = .ok t' ∧
      t'.body = fs.map .frame ++ [.request (genericRequest c x n)] ∧
        identityOf token' = identityOf token ∧ t'.isValidRequest mac token' = .ok true := by
  obtain ⟨ps, hps⟩ := exists_readsFrames h hbody
  obtain ⟨hslash, hnul, hcolon, hpercent⟩ := hx
  have hfree : ¬frameMarker <:+: c.resource :=
    resource_free_of_readsFrames hps.2 (fun p hp => (hps.1 p hp).free) (.frame f)
      (List.mem_map_of_mem (List.mem_of_getLast? hf)) c hc
  exact exists_accepted mac hps husable hf (clean_genericRequest hcolon)
    (frameMarker_free_genericRequest hfree hpercent) hc (covered_genericRequest hslash hnul htype)

/-- Every device capability of the last frame lies in a capability of every frame. -/
def Narrowing (fs : List Frame) : Prop :=
  ∀ f₀ ∈ fs.getLast?, ∀ c ∈ f₀.capabilities, c.type = .deviceCap →
    ∀ f ∈ fs, ∃ p ∈ f.capabilities, CoversAll c p

instance (fs : List Frame) : Decidable (Narrowing fs) :=
  inferInstanceAs (Decidable (∀ f₀ ∈ fs.getLast?, ∀ c ∈ f₀.capabilities, c.type = .deviceCap →
    ∀ f ∈ fs, ∃ p ∈ f.capabilities, CoversAll c p))

/-- For one identity, or for none, no privilege is gained by delegation behind the frames `fs`
exactly if they narrow, or this identity cannot use them. -/
theorem covered_of_identity_iff {mac : Mac} {stale : ℕ → ℕ → CapabilityType} {s : Str}
    {t : CapabilityToken} {fs : List Frame} {r : Request}
    (h : CapabilityToken.empty.fromString mac stale s false = .ok t)
    (hbody : t.body = fs.map .frame ++ [.request r]) (token : Option IdentityToken) :
    (∀ s' t' r' token', CapabilityToken.empty.fromString mac stale s' false = .ok t' →
      t'.body = fs.map .frame ++ [.request r'] → identityOf token' = identityOf token →
        t'.isValidRequest mac token' = .ok true →
          ∀ f ∈ fs, ∃ c ∈ f.capabilities, covered r'.capability c = true) ↔
      (Usable fs token → Narrowing fs) := by
  constructor
  · intro hall husable f₀ hf₀ c hc htype f hf
    obtain ⟨x, hx, hfresh⟩ := exists_fresh (f.capabilities.flatMap fun p => components p.resource)
    obtain ⟨s', t', token', hs', hbody', hsame, hacc⟩ :=
      exists_accepted_genericRequest h hbody husable hf₀ hc htype hfresh
        (f.capabilities.flatMap fun p => components p.resource).length
    obtain ⟨p, hp, hcov⟩ := hall s' t' _ token' hs' hbody' hsame hacc f hf
    have hsub : List.Sublist (components p.resource)
        (f.capabilities.flatMap fun p => components p.resource) :=
      List.sublist_flatten_of_mem (List.mem_map_of_mem hp)
    exact ⟨p, hp, coversAll_of_covered_genericRequest hfresh.1 hfresh.2.1 htype
      (fun hmem => hx (hsub.subset hmem)) hsub.length_le hcov⟩
  · intro hnarrow s' t' r' token' hs' hbody' hsame hacc f hf
    obtain ⟨husable, hcolon, f₀, hf₀, c, hc, htype, hcov⟩ := usable_of_accepted hs' hbody' hacc
    obtain ⟨p, hp, hall⟩ := hnarrow (husable.congr hsame.symm) f₀ hf₀ c hc htype f hf
    exact ⟨p, hp, covered_of_coversAll hcolon hcov hall⟩

/-- No privilege is gained by delegation behind the frames `fs` exactly if they narrow, or
nobody can use them. -/
theorem covered_by_every_frame_iff {mac : Mac} {stale : ℕ → ℕ → CapabilityType} {s : Str}
    {t : CapabilityToken} {fs : List Frame} {r : Request}
    (h : CapabilityToken.empty.fromString mac stale s false = .ok t)
    (hbody : t.body = fs.map .frame ++ [.request r]) :
    (∀ s' t' r' token, CapabilityToken.empty.fromString mac stale s' false = .ok t' →
      t'.body = fs.map .frame ++ [.request r'] → t'.isValidRequest mac token = .ok true →
        ∀ f ∈ fs, ∃ c ∈ f.capabilities, covered r'.capability c = true) ↔
      ((∃ token, Usable fs token) → Narrowing fs) := by
  have hiff := covered_of_identity_iff h hbody
  constructor
  · rintro hall ⟨token, husable⟩
    exact (hiff token).1 (fun s' t' r' token' hs' hbody' _ => hall s' t' r' token' hs' hbody')
      husable
  · intro hnarrow s' t' r' token hs' hbody' hacc
    exact (hiff token).2 (fun husable => hnarrow ⟨token, husable⟩) s' t' r' token hs' hbody' rfl
      hacc

/-- The delegated frames narrow, so the accepted request is covered by the first one. -/
theorem covered_by_every_frame_delegated :
    ∃ c ∈ delegatedRoot.capabilities, covered delegatedRequest.capability c = true :=
  (covered_by_every_frame_iff fromString_delegatedBody rfl).2 (fun _ => by decide +kernel) _ _ _ _
    fromString_delegatedBody rfl isValidRequest_delegatedToken _ List.mem_cons_self

/-! A second frame that is wider than the first, and a request that only the second covers. -/

/-- The tag of `wideningBody`. -/
def wideningTag : Str :=
  hexEncode 0xD3ABF4D9D551388CA4704D49DB7F21878ECB45E883593ECE065A2DB97FF12A50

/-- The text of both frames and the request. -/
def wideningBody : Str :=
  "%FRAME%/a/b+0+111%FRAME%/a+0+111%FRAME%request:/a/c:h:v:001".toList

/-- The narrow first frame. -/
def wideningRoot : Frame :=
  ⟨[⟨"/a/b".toList, .deviceCap, 0b111⟩], []⟩

/-- Both frames. -/
def wideningFrames : List Frame :=
  [wideningRoot, ⟨[⟨"/a".toList, .deviceCap, 0b111⟩], []⟩]

/-- The request beside the first frame. -/
def wideningRequest : Request :=
  ⟨⟨"/a/c".toList, .deviceCap, 0b001⟩, ['h'], ['v']⟩

/-- HMAC(SHA-256) as far as the text goes. -/
def wideningMac : Mac :=
  .ofChains
    [[("/a/b+0+111".toList, 0x5CD0466E9BB67F3A70DB4C5743E18F7B2DEC476A6BFB7C28131439154F296720),
      ("/a+0+111".toList, 0x75C17B3D3B2174CEFB9AD0CBE83717D50454FE1063C26E9F516F5618334B1FCD),
      ("request:/a/c:h:v:001".toList,
        0xD3ABF4D9D551388CA4704D49DB7F21878ECB45E883593ECE065A2DB97FF12A50)]]

/-- A delegated frame can be wider than the frame it was delegated from. -/
theorem not_covered_by_every_frame : ¬∀ (mac : Mac) (stale : ℕ → ℕ → CapabilityType) (s : Str)
    (t : CapabilityToken) (fs : List Frame) (r : Request) (token : Option IdentityToken),
    CapabilityToken.empty.fromString mac stale s false = .ok t →
      t.body = fs.map .frame ++ [.request r] → t.isValidRequest mac token = .ok true →
        ∀ f ∈ fs, ∃ c ∈ f.capabilities, covered r.capability c = true := by
  intro h
  have hroot := h wideningMac (fun _ _ => .ownerCap) (wideningTag ++ wideningBody)
    ⟨wideningTag, wideningFrames.map .frame ++ [.request wideningRequest], some wideningRequest⟩
    wideningFrames wideningRequest none (by decide +kernel) rfl (by decide +kernel)
    wideningRoot List.mem_cons_self
  revert hroot
  decide +kernel

/-! ## Constraints -/

/-- The last frame has a capability for some request. -/
def Serves (fs : List Frame) : Prop :=
  ∃ f ∈ fs.getLast?, ∃ c ∈ f.capabilities, c.type = .deviceCap

instance (fs : List Frame) : Decidable (Serves fs) :=
  inferInstanceAs (Decidable (∃ f ∈ fs.getLast?, ∃ c ∈ f.capabilities, c.type = .deviceCap))

/-- Every identity asked for anywhere is one that the first constrained frame asks for. -/
def AskedFirst (fs : List Frame) : Prop :=
  ∀ f ∈ fs, ∀ k ∈ f.constraints, k.IsIdentity → k.parameters.length = 1 ∧
    ∃ k₀ ∈ Element.firstConstraints (fs.map .frame), k₀.IsIdentity ∧
      k₀.parameters.map cStr = k.parameters.map cStr

instance (fs : List Frame) : Decidable (AskedFirst fs) :=
  inferInstanceAs (Decidable (∀ f ∈ fs, ∀ k ∈ f.constraints, k.IsIdentity →
    k.parameters.length = 1 ∧ ∃ k₀ ∈ Element.firstConstraints (fs.map .frame), k₀.IsIdentity ∧
      k₀.parameters.map cStr = k.parameters.map cStr))

theorem Usable.of_no_identity {fs : List Frame} {token : Option IdentityToken}
    (h : Usable fs token)
    (hno : ∀ k ∈ Element.firstConstraints (fs.map .frame), ¬k.IsIdentity) : Usable fs none :=
  ⟨h.derived, by simp, fun k hk =>
    Constraint.isValidConstraint_iff.2 fun hid => absurd hid (hno k hk)⟩

/-- For one identity, or for none, every delegator's constraints hold for every accepted request
behind the frames `fs` exactly if they hold for this identity, or it cannot use the frames. -/
theorem constraints_valid_of_identity_iff {mac : Mac} {stale : ℕ → ℕ → CapabilityType} {s : Str}
    {t : CapabilityToken} {fs : List Frame} {r : Request}
    (h : CapabilityToken.empty.fromString mac stale s false = .ok t)
    (hbody : t.body = fs.map .frame ++ [.request r]) (token : Option IdentityToken) :
    (∀ s' t' r' token', CapabilityToken.empty.fromString mac stale s' false = .ok t' →
      t'.body = fs.map .frame ++ [.request r'] → identityOf token' = identityOf token →
        t'.isValidRequest mac token' = .ok true →
          ∀ f ∈ fs, ∀ k ∈ f.constraints, k.isValidConstraint token' = true) ↔
      (Usable fs token → Serves fs →
        ∀ f ∈ fs, ∀ k ∈ f.constraints, k.isValidConstraint token = true) := by
  constructor
  · rintro hall husable ⟨f₀, hf₀, c, hc, htype⟩ f hf k hk
    -- whoever can use the frames has a request accepted
    obtain ⟨s', t', token', hs', hbody', hsame, hacc⟩ :=
      exists_accepted_genericRequest h hbody husable hf₀ hc htype (x := ['a']) (by simp) 0
    rw [← Constraint.isValidConstraint_congr hsame]
    exact hall s' t' _ token' hs' hbody' hsame hacc f hf k hk
  · intro hvalid s' t' r' token' hs' hbody' hsame hacc f hf k hk
    obtain ⟨husable, -, f₀, hf₀, c, hc, htype, -⟩ := usable_of_accepted hs' hbody' hacc
    rw [Constraint.isValidConstraint_congr hsame]
    exact hvalid (husable.congr hsame.symm) ⟨f₀, hf₀, c, hc, htype⟩ f hf k hk

/-- The constraints hold for everybody who can use the frames exactly if the first constrained
frame asks for every identity, or nobody can use them. -/
theorem forall_usable_iff_askedFirst {fs : List Frame} :
    (∀ token, Usable fs token →
      ∀ f ∈ fs, ∀ k ∈ f.constraints, k.isValidConstraint token = true) ↔
        ((∃ token, Usable fs token) → AskedFirst fs) := by
  constructor
  · rintro hall ⟨token, husable⟩ f hf k hk hid
    obtain ⟨id, parameter, hname, hparam, heq⟩ :=
      Constraint.isValidConstraint_iff.1 (hall token husable f hf k hk) hid
    refine ⟨by simp [hparam], ?_⟩
    by_cases hno : ∀ k₀ ∈ Element.firstConstraints (fs.map .frame), ¬k₀.IsIdentity
    · obtain ⟨id', -, hname', -⟩ := Constraint.isValidConstraint_iff.1
        (hall none (husable.of_no_identity hno) f hf k hk) hid
      simp [identityOf] at hname'
    · obtain ⟨k₀, hk₀, hid₀⟩ : ∃ k₀ ∈ Element.firstConstraints (fs.map .frame), k₀.IsIdentity := by
        simpa using hno
      obtain ⟨id₀, parameter₀, hname₀, hparam₀, heq₀⟩ :=
        Constraint.isValidConstraint_iff.1 (husable.constraints k₀ hk₀) hid₀
      obtain rfl : id = id₀ := Option.some.inj (hname.symm.trans hname₀)
      exact ⟨k₀, hk₀, hid₀, by simp [hparam, hparam₀, ← heq, ← heq₀]⟩
  · intro hasked token husable f hf k hk
    refine Constraint.isValidConstraint_iff.2 fun hid => ?_
    obtain ⟨hone, k₀, hk₀, hid₀, hsame⟩ := hasked ⟨token, husable⟩ f hf k hk hid
    obtain ⟨id, parameter₀, hname, hparam₀, heq⟩ :=
      Constraint.isValidConstraint_iff.1 (husable.constraints k₀ hk₀) hid₀
    obtain ⟨parameter, hparam⟩ := List.length_eq_one_iff.1 hone
    have hparameter : cStr parameter₀ = cStr parameter := by simpa [hparam, hparam₀] using hsame
    exact ⟨id, parameter, hname, hparam, heq.trans hparameter⟩

/-- Every delegator's constraints hold for every accepted request behind the frames `fs`
exactly if the first constrained frame asks for every identity, or nobody can use them. -/
theorem all_constraints_valid_iff {mac : Mac} {stale : ℕ → ℕ → CapabilityType} {s : Str}
    {t : CapabilityToken} {fs : List Frame} {r : Request}
    (h : CapabilityToken.empty.fromString mac stale s false = .ok t)
    (hbody : t.body = fs.map .frame ++ [.request r]) :
    (∀ s' t' r' token, CapabilityToken.empty.fromString mac stale s' false = .ok t' →
      t'.body = fs.map .frame ++ [.request r'] → t'.isValidRequest mac token = .ok true →
        ∀ f ∈ fs, ∀ k ∈ f.constraints, k.isValidConstraint token = true) ↔
      ((∃ token, Usable fs token) → Serves fs → AskedFirst fs) := by
  have hiff := constraints_valid_of_identity_iff h hbody
  constructor
  · intro hall husable hserves
    refine forall_usable_iff_askedFirst.1 (fun token husable => ?_) husable
    exact (hiff token).1 (fun s' t' r' token' hs' hbody' _ => hall s' t' r' token' hs' hbody')
      husable hserves
  · intro hasked s' t' r' token hs' hbody' hacc
    refine (hiff token).2 (fun husable hserves => ?_) s' t' r' token hs' hbody' rfl hacc
    exact forall_usable_iff_askedFirst.2 (fun hsome => hasked hsome hserves) token husable

/-- Only the first delegated frame asks for an identity. -/
theorem all_constraints_valid_delegated :
    Constraint.isValidConstraint ⟨"identity_constraint".toList, ["alice".toList]⟩
      (some delegatedIdentity) = true :=
  (all_constraints_valid_iff fromString_delegatedBody rfl).2 (fun _ _ => by decide +kernel) _ _ _ _
    fromString_delegatedBody rfl isValidRequest_delegatedToken delegatedRoot List.mem_cons_self _
    List.mem_cons_self

/-! A first frame with a time limit, and a second one for one user only. -/

/-- The tag of `restrictedBody`. -/
def restrictedTag : Str :=
  hexEncode 0x5484C9C578CBBB2F6125FF38F79FFA572243B2A99E4694E6FDA41757DBFC1F12

/-- The text of both frames and a request. -/
def restrictedBody : Str :=
  ("%FRAME%/a+0+111$FUNCTION:expiration_time:9" ++
    "%FRAME%/a+0+111$FUNCTION:identity_constraint:alice%FRAME%request:/a:h:v:001").toList

/-- Both frames. -/
def restrictedFrames : List Frame :=
  [⟨[⟨"/a".toList, .deviceCap, 0b111⟩], [⟨"expiration_time".toList, ["9".toList]⟩]⟩, delegatedRoot]

/-- The request. -/
def restrictedRequest : Request :=
  ⟨⟨"/a".toList, .deviceCap, 0b001⟩, ['h'], ['v']⟩

/-- HMAC(SHA-256) as far as the text goes. -/
def restrictedMac : Mac :=
  .ofChains
    [[("/a+0+111$FUNCTION:expiration_time:9".toList,
        0x3DE60C6D3D720FA86282C658C1F8327078058BD87DF7E32A86CA4D345661EA5C),
      ("/a+0+111$FUNCTION:identity_constraint:alice".toList,
        0xD9E106538B2AF757102AAF941CF3DB446F6620A75A5166018A6732881577401A),
      ("request:/a:h:v:001".toList,
        0x5484C9C578CBBB2F6125FF38F79FFA572243B2A99E4694E6FDA41757DBFC1F12)]]

/-- A token for one user is accepted without any identity. -/
theorem not_all_constraints_valid : ¬∀ (mac : Mac) (stale : ℕ → ℕ → CapabilityType) (s : Str)
    (t : CapabilityToken) (fs : List Frame) (r : Request) (token : Option IdentityToken),
    CapabilityToken.empty.fromString mac stale s false = .ok t →
      t.body = fs.map .frame ++ [.request r] → t.isValidRequest mac token = .ok true →
        ∀ f ∈ fs, ∀ k ∈ f.constraints, k.isValidConstraint token = true := by
  intro h
  have halice := h restrictedMac (fun _ _ => .ownerCap) (restrictedTag ++ restrictedBody)
    ⟨restrictedTag, restrictedFrames.map .frame ++ [.request restrictedRequest],
      some restrictedRequest⟩
    restrictedFrames restrictedRequest none (by decide +kernel) rfl (by decide +kernel)
    delegatedRoot (by simp [restrictedFrames]) _ List.mem_cons_self
  revert halice
  decide +kernel

end Caplets
