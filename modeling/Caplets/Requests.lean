import Caplets.Delegation

/-!
# The check of a request

Two things are missing in `is_valid_request` and `is_valid_request_cspot`.

The operation is compared with the request the wrong way round : the request's bits have to
be bits of the operation. So an operation may ask for more than the request, exactly if the
request asks for less than the operation (`cspot_operation_granted_iff`).

Nothing makes sure that the body ends in an element and a request before both are used. A
token that verifies without that is not refused : the body is indexed at `-1`, or a frame is
used as a request (`request_check_safe_iff`).
-/

namespace Caplets

open Delimited KeyedChain

/-! ## Operations -/

section Operations

variable {mac : Mac} {stale : ℕ → ℕ → CapabilityType} {s : Str} {t : CapabilityToken}
  {fs : List Frame} {r : Request}

theorem request_of_fromString {es : List Element}
    (h : CapabilityToken.empty.fromString mac stale s false = .ok t)
    (hbody : t.body = es ++ [.request r]) : t.request = some r := by
  rw [CapabilityToken.request_eq_of_fromString h, hbody]
  exact Element.lastRequest_append_request es r

theorem isValidRequestCspot_eq_true_iff {token : Option IdentityToken} {op : BitVec 3}
    (hr : t.request = some r) : t.isValidRequestCspot mac token op = .ok true ↔
      t.isValidRequest mac token = .ok true ∧ isCapBitsValid r.capability.capBits op = true := by
  rw [CapabilityToken.isValidRequestCspot, bind_eq_ok]
  constructor
  · rintro ⟨b, hb, h⟩
    cases b with
    | false => simp at h
    | true => exact ⟨hb, by simpa [hr] using h⟩
  · rintro ⟨hb, h⟩
    exact ⟨true, hb, by simpa [hr] using h⟩

/-- For one identity, or for none, only operations with granted rights are performed for the
request `r` behind the frames `fs` exactly if the bits of `r` are no proper subset of those of
the operation, or `r` is not accepted for this identity. -/
theorem operation_granted_of_identity_iff (op : BitVec 3)
    (h : CapabilityToken.empty.fromString mac stale s false = .ok t)
    (hbody : t.body = fs.map .frame ++ [.request r]) (token : Option IdentityToken) :
    (∀ s' t' token', CapabilityToken.empty.fromString mac stale s' false = .ok t' →
      t'.body = t.body → identityOf token' = identityOf token →
        t'.isValidRequestCspot mac token' op = .ok true →
          isCapBitsValid op r.capability.capBits = true ∧ ∃ f ∈ fs.getLast?, ∃ c ∈ f.capabilities,
            isPathSubsetOfPath r.capability.resource c.resource = true ∧
              isCapBitsValid op c.capBits = true) ↔
      (Usable fs token →
        (∃ f ∈ fs.getLast?, ∃ c ∈ f.capabilities, covered r.capability c = true) →
          isCapBitsValid r.capability.capBits op = true → r.capability.capBits = op) := by
  constructor
  · rintro hall husable ⟨f, hf, c, hc, hcov⟩ hsub
    have hread := CapabilityToken.readsBody_of_fromString h
    have hmem : .request r ∈ t.body := by simp [hbody]
    obtain ⟨ps, hps⟩ := exists_readsFrames h hbody
    obtain ⟨s', t', token', hs', hbody', hsame, hacc⟩ :=
      exists_accepted mac hps husable hf (hread.clean _ hmem) (hread.frameMarker_free _ hmem) hc
        hcov
    have hcspot :=
      (isValidRequestCspot_eq_true_iff (request_of_fromString hs' hbody')).2 ⟨hacc, hsub⟩
    obtain ⟨hop, -⟩ := hall s' t' token' hs' (hbody'.trans hbody.symm) hsame hcspot
    rw [isCapBitsValid, beq_iff_eq] at hsub hop
    rw [← hsub, BitVec.and_comm, hop]
  · intro hproper s' t' token' hs' hbody' hsame hcspot
    rw [hbody] at hbody'
    obtain ⟨hacc, hsub⟩ :=
      (isValidRequestCspot_eq_true_iff (request_of_fromString hs' hbody')).1 hcspot
    obtain ⟨husable, -, f, hf, c, hc, -, hcov⟩ := usable_of_accepted hs' hbody' hacc
    rw [← hproper (husable.congr hsame.symm) ⟨f, hf, c, hc, hcov⟩ hsub]
    rw [covered, Bool.and_eq_true, isCapSubsetOfCap_iff] at hcov
    exact ⟨by simp [isCapBitsValid], f, hf, c, hc, hcov.1, hcov.2.2⟩

/-- Only operations with granted rights are performed for the request `r` behind the frames
`fs` exactly if the bits of `r` are no proper subset of those of the operation, or `r` is
accepted for nobody. -/
theorem cspot_operation_granted_iff (op : BitVec 3)
    (h : CapabilityToken.empty.fromString mac stale s false = .ok t)
    (hbody : t.body = fs.map .frame ++ [.request r]) :
    (∀ s' t' token, CapabilityToken.empty.fromString mac stale s' false = .ok t' →
      t'.body = t.body → t'.isValidRequestCspot mac token op = .ok true →
        isCapBitsValid op r.capability.capBits = true ∧ ∃ f ∈ fs.getLast?, ∃ c ∈ f.capabilities,
          isPathSubsetOfPath r.capability.resource c.resource = true ∧
            isCapBitsValid op c.capBits = true) ↔
      ((∃ token, Usable fs token) →
        (∃ f ∈ fs.getLast?, ∃ c ∈ f.capabilities, covered r.capability c = true) →
          isCapBitsValid r.capability.capBits op = true → r.capability.capBits = op) := by
  have hiff := operation_granted_of_identity_iff op h hbody
  constructor
  · rintro hall ⟨token, husable⟩
    exact (hiff token).1 (fun s' t' token' hs' hbody' _ => hall s' t' token' hs' hbody') husable
  · intro hproper s' t' token hs' hbody' hcspot
    exact (hiff token).2 (fun husable => hproper ⟨token, husable⟩) s' t' token hs' hbody' rfl hcspot

/-- A read operation with a read request. -/
theorem cspot_operation_granted_delegated :
    isCapBitsValid 0b001 delegatedRequest.capability.capBits = true ∧
      ∃ f ∈ delegatedFrames.getLast?, ∃ c ∈ f.capabilities,
        isPathSubsetOfPath delegatedRequest.capability.resource c.resource = true ∧
          isCapBitsValid 0b001 c.capBits = true :=
  (cspot_operation_granted_iff 0b001 fromString_delegatedBody rfl).2 (fun _ _ _ => rfl) _ _
    (some delegatedIdentity) fromString_delegatedBody rfl (by decide +kernel)

/-! A frame for reading only, and a request for nothing. -/

/-- The tag of the frame and the request. -/
def readOnlyTag : Str :=
  hexEncode 0xD07990010FC67D90620E10F4A38FD09D99B00616DED95640FF50053AAE0456A5

/-- The frame. -/
def readOnlyFrame : Frame :=
  ⟨[⟨"/a".toList, .deviceCap, 0b001⟩], []⟩

/-- The request. -/
def readOnlyRequest : Request :=
  ⟨⟨"/a".toList, .deviceCap, 0b000⟩, [], []⟩

/-- HMAC(SHA-256) as far as both go. -/
def readOnlyMac : Mac :=
  .ofChains
    [[("/a+0+001".toList, 0x088FE810416069534A577264490392AC418BE5A42C51ED6E679E5CBA06EF21D8),
      ("request:/a:::000".toList,
        0xD07990010FC67D90620E10F4A38FD09D99B00616DED95640FF50053AAE0456A5)]]

/-- A token for reading only is accepted for a put with a handler. -/
theorem not_cspot_operation_granted : ¬∀ (mac : Mac) (stale : ℕ → ℕ → CapabilityType) (s : Str)
    (t : CapabilityToken) (fs : List Frame) (r : Request) (token : Option IdentityToken)
    (op : BitVec 3), CapabilityToken.empty.fromString mac stale s false = .ok t →
      t.body = fs.map .frame ++ [.request r] → t.isValidRequestCspot mac token op = .ok true →
        isCapBitsValid op r.capability.capBits = true ∧ ∃ f ∈ fs.getLast?, ∃ c ∈ f.capabilities,
          isPathSubsetOfPath r.capability.resource c.resource = true ∧
            isCapBitsValid op c.capBits = true := by
  intro h
  have hput := h readOnlyMac (fun _ _ => .ownerCap)
    (readOnlyTag ++ "%FRAME%/a+0+001%FRAME%request:/a:::000".toList)
    ⟨readOnlyTag, [.frame readOnlyFrame, .request readOnlyRequest], some readOnlyRequest⟩
    [readOnlyFrame] readOnlyRequest none 0b110 (by decide +kernel) rfl (by decide +kernel)
  revert hput
  decide +kernel

end Operations

/-! ## Memory and type safety -/

section Safety

variable {mac : Mac} {stale : ℕ → ℕ → CapabilityType} {s : Str} {t : CapabilityToken}

/-- What the capability match relies on. -/
def EndsInRequest (es : List Element) : Prop :=
  2 ≤ es.length ∧ ∃ r, es.getLast? = some (.request r)

instance (es : List Element) : Decidable (EndsInRequest es) :=
  decidable_of_iff (2 ≤ es.length ∧ ∃ e ∈ es.getLast?, e.frame? = none) <| by
    refine and_congr_right fun _ => ⟨?_, fun ⟨r, hr⟩ => ⟨.request r, hr, rfl⟩⟩
    rintro ⟨e, he, hframe⟩
    cases e with
    | frame f => simp [Element.frame?] at hframe
    | request r => exact ⟨r, he⟩

/-- The elements pass the derivation check for some identity that can be presented. -/
def Derivable (es : List Element) : Prop :=
  Element.Derived es ∧ ∃ token : Option IdentityToken, (∀ i ∈ token, i.identityToken ≠ []) ∧
    ∀ k ∈ Element.firstConstraints es.dropLast, k.isValidConstraint token = true

/-- The elements pass the derivation check for this identity, and it can be presented. -/
structure DerivableFor (es : List Element) (token : Option IdentityToken) : Prop where
  derived : Element.Derived es
  identity : ∀ i ∈ token, i.identityToken ≠ []
  constraints : ∀ k ∈ Element.firstConstraints es.dropLast, k.isValidConstraint token = true

theorem DerivableFor.derivable {es : List Element} {token : Option IdentityToken}
    (h : DerivableFor es token) : Derivable es :=
  ⟨h.derived, token, h.identity, h.constraints⟩

/-- An identity token that is accepted makes the derivation check hold for its identity. -/
theorem derivableFor_of_continueValidation {token : Option IdentityToken}
    (h : t.continueValidation mac token = true) : DerivableFor t.body token := by
  obtain ⟨hid, -, hder⟩ := CapabilityToken.continueValidation_iff.1 h
  obtain ⟨-, hder, hvalid⟩ := CapabilityToken.isValidDerivation_iff.1 hder
  exact ⟨hder, fun i hi => (CapabilityToken.isValidIdentityToken_iff.1 (hid i hi)).1.1, hvalid⟩

theorem DerivableFor.congr {es : List Element} {token token' : Option IdentityToken}
    (h : DerivableFor es token) (hsame : identityOf token' = identityOf token) :
    DerivableFor es token' where
  derived := h.derived
  identity := identityToken_ne_nil_congr hsame h.identity
  constraints k hk := by
    rw [Constraint.isValidConstraint_congr hsame]
    exact h.constraints k hk

theorem getLast?_body_of_pieces {ps : List Str}
    (h : CapabilityToken.empty.fromString mac stale s false = .ok t) (hps : strFrames s = .ok ps) :
    t.body.length = ps.length ∧
      ((∃ r, t.body.getLast? = some (.request r)) ↔ ∃ p ∈ ps.getLast?, requestMarker <:+: p) := by
  obtain ⟨qs, p, fs, e, hqs, hes, hr, he⟩ :=
    readsBody_iff.1 (CapabilityToken.readsBody_of_fromString h)
  obtain rfl : ps = qs ++ [p] := Except.ok.inj (hps.symm.trans hqs)
  refine ⟨by simp [hes, ← hr.length_eq], ?_⟩
  rw [hes, List.getLast?_concat, List.getLast?_concat]
  cases e with
  | frame f => simpa using he.1
  | request r => simpa using he.1

/-- For a text of the pieces `ps`, with any tag, `fs` added to it, and one identity or none, the
match is safe exactly if nothing was added and the text has two pieces and a request at its end,
or the elements do not pass the derivation check for this identity. -/
theorem request_safe_of_identity_iff {ps : List Str} (fs : List Frame)
    (h : CapabilityToken.empty.fromString mac stale s false = .ok t) (hps : strFrames s = .ok ps)
    (token : Option IdentityToken) :
    (∀ s' t₁ t₂ token', CapabilityToken.empty.fromString mac stale s' false = .ok t₁ →
      t₁.body = t.body → (fs.map .frame).foldlM (fun t e => t.addFrame mac e) t₁ = .ok t₂ →
        identityOf token' = identityOf token → t₂.continueValidation mac token' = true →
          EndsInRequest t₂.body) ↔
      (DerivableFor (t.body ++ fs.map .frame) token →
        fs = [] ∧ 2 ≤ ps.length ∧ ∃ p ∈ ps.getLast?, requestMarker <:+: p) := by
  obtain ⟨hlen, hlast⟩ := getLast?_body_of_pieces h hps
  have hread := CapabilityToken.readsBody_of_fromString h
  constructor
  · rintro hall ⟨hder, hid, hvalid⟩
    have hne := hread.ne_nil
    obtain ⟨s', hs'⟩ := CapabilityToken.exists_retagged mac hread (mac.isTag_bodyTag hne)
    have hadd : (fs.map Element.frame).foldlM (fun (t : CapabilityToken) e => t.addFrame mac e)
        ⟨mac.bodyTag t.body, t.body, Element.lastRequest t.body⟩ =
          Except.ok ⟨mac.bodyTag (t.body ++ fs.map .frame), t.body ++ fs.map .frame,
            Element.lastRequest t.body⟩ := by
      rw [mac.bodyTag_append]
      exact CapabilityToken.foldlM_addFrame (t := ⟨mac.bodyTag t.body, t.body, _⟩) hne _
    have hends := hall s' _ _ (presentedTo mac _ token) hs' rfl hadd
      (identityOf_presentedTo mac _ token)
      (continueValidation_presentedTo mac (by simp [hne]) rfl hid
        (CapabilityToken.isValidDerivation_iff.2 ⟨by simp [hne], hder, hvalid⟩))
    obtain ⟨hlen', r, hr⟩ := hends
    have hfs : fs = [] := by
      by_contra hfs
      obtain ⟨fs, f, rfl⟩ := (List.eq_nil_or_concat' fs).resolve_left hfs
      simp [List.getLast?_append] at hr
    subst hfs
    rw [List.map_nil, List.append_nil] at hlen' hr
    exact ⟨rfl, hlen ▸ hlen', hlast.1 ⟨r, hr⟩⟩
  · intro hcond s' t₁ t₂ token' hs' hbody hadd hsame hcont
    rw [CapabilityToken.foldlM_addFrame (hbody ▸ hread.ne_nil), Except.ok.injEq] at hadd
    subst hadd
    have hder := (derivableFor_of_continueValidation hcont).congr hsame.symm
    rw [hbody] at hder
    obtain ⟨rfl, hlen', hreq⟩ := hcond hder
    have hbody' : t₁.body ++ ([] : List Frame).map .frame = t.body := by simp [hbody]
    rw [hbody', EndsInRequest, hlen]
    exact ⟨hlen', hlast.2 hreq⟩

/-- For a text of the pieces `ps`, with any tag, and `fs` added to it, the match is safe
exactly if nothing was added and the text has two pieces and a request at its end, or the
elements pass the derivation check for nobody. -/
theorem request_check_safe_iff {ps : List Str} (fs : List Frame)
    (h : CapabilityToken.empty.fromString mac stale s false = .ok t) (hps : strFrames s = .ok ps) :
    (∀ s' t₁ t₂ token, CapabilityToken.empty.fromString mac stale s' false = .ok t₁ →
      t₁.body = t.body → (fs.map .frame).foldlM (fun t e => t.addFrame mac e) t₁ = .ok t₂ →
        t₂.continueValidation mac token = true → EndsInRequest t₂.body) ↔
      (Derivable (t.body ++ fs.map .frame) →
        fs = [] ∧ 2 ≤ ps.length ∧ ∃ p ∈ ps.getLast?, requestMarker <:+: p) := by
  have hiff := request_safe_of_identity_iff fs h hps
  constructor
  · rintro hall ⟨hder, token, hid, hvalid⟩
    refine (hiff token).1 (fun s' t₁ t₂ token' hs' hbody hadd _ => ?_) ⟨hder, hid, hvalid⟩
    exact hall s' t₁ t₂ token' hs' hbody hadd
  · intro hcond s' t₁ t₂ token hs' hbody hadd hcont
    exact (hiff token).2 (fun hder => hcond hder.derivable) s' t₁ t₂ token hs' hbody hadd rfl hcont

/-- A parsed request with a frame in front of it is checked safely. -/
theorem request_check_safe_delegated : EndsInRequest delegatedToken.body := by
  have hpieces : strFrames (delegatedTag ++ delegatedBody) = .ok
      ["/a+0+111$FUNCTION:identity_constraint:alice".toList, "/a/b+0+001".toList,
        "request:/a/b:h:v:001".toList] := by
    decide +kernel
  exact (request_check_safe_iff [] fromString_delegatedBody hpieces).2
    (fun _ => ⟨rfl, by simp, _, rfl, by decide +kernel⟩) _ _ delegatedToken
    (some delegatedIdentity) fromString_delegatedBody rfl rfl
    CapabilityToken.continueValidation_delegatedToken

/-- A tagged token of one frame is indexed at `-1`. -/
theorem not_request_check_safe : ¬∀ (mac : Mac) (stale : ℕ → ℕ → CapabilityType) (s : Str)
    (t₁ t₂ : CapabilityToken) (fs : List Frame) (token : Option IdentityToken),
    CapabilityToken.empty.fromString mac stale s false = .ok t₁ →
      (fs.map Element.frame).foldlM (fun (t : CapabilityToken) e => t.addFrame mac e) t₁ = .ok t₂ →
        t₂.continueValidation mac token = true → EndsInRequest t₂.body := by
  intro h
  have hone := h readOnlyMac (fun _ _ => .ownerCap)
    (hexEncode 0x088FE810416069534A577264490392AC418BE5A42C51ED6E679E5CBA06EF21D8 ++
      "%FRAME%/a+0+001".toList)
    ⟨hexEncode 0x088FE810416069534A577264490392AC418BE5A42C51ED6E679E5CBA06EF21D8,
      [.frame readOnlyFrame], none⟩ _ [] none (by decide +kernel) rfl (by decide +kernel)
  exact absurd hone.1 (by decide)

end Safety

end Caplets
