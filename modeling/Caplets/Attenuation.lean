import Caplets.Checks
import Caplets.Paths

/-!
# What derivation keeps

The derivation check compares an element with the one before it and with no other. In the
paths this says nothing about elements further back, since coverage is not transitive. In
the types and the rights it does : whatever a frame holds, every frame before it holds with
the same type and at least these rights (`rights_shrink`).

Of a frame the check uses the set of capabilities and the set of constraints, and nothing of
their order or number. It is monotone : more capabilities in the first frame, fewer in the
last one and fewer elements never turn a derivation that holds into one that fails
(`derivation_of_sets`).
-/

namespace Caplets

open Delimited KeyedChain

/-- The bits of `part` are among those of `full`. -/
theorem isCapBitsValid_iff {part full : BitVec 3} :
    isCapBitsValid part full = true ↔ part &&& full = part := by
  rw [isCapBitsValid, beq_iff_eq]

theorem isCapSubsetOfCap_refl (c : CapabilityStructure) : isCapSubsetOfCap c c = true :=
  isCapSubsetOfCap_iff.2 ⟨rfl, isCapBitsValid_iff.2 BitVec.and_self⟩

namespace Element

/-- Every capability of `cur` has one of `prev` with its type and at least its rights. -/
def Bounds (prev cur : Element) : Prop :=
  ∀ c ∈ cur.getCapabilities, ∃ p ∈ prev.getCapabilities, isCapSubsetOfCap c p = true

theorem Bounds.refl (e : Element) : e.Bounds e :=
  fun c hc => ⟨c, hc, isCapSubsetOfCap_refl c⟩

theorem Bounds.trans {e₁ e₂ e₃ : Element} (h : e₁.Bounds e₂) (h' : e₂.Bounds e₃) :
    e₁.Bounds e₃ := by
  intro c hc
  obtain ⟨p, hp, hcp⟩ := h' c hc
  obtain ⟨q, hq, hpq⟩ := h p hp
  exact ⟨q, hq, isCapSubsetOfCap_trans hcp hpq⟩

instance : Trans Bounds Bounds Bounds := ⟨Bounds.trans⟩

/-- A derived element is bounded by the one before. -/
theorem DerivedFrom.bounds {prev cur : Element} (h : prev.DerivedFrom cur) : prev.Bounds cur := by
  intro c hc
  obtain ⟨p, hp, hcov⟩ := h c hc
  exact ⟨p, hp, (covered_iff.1 hcov).2⟩

/-- What holds between neighbours holds between any two elements. -/
theorem Derived.pairwise_bounds {es : List Element} (h : Derived es) : es.Pairwise Bounds :=
  (h.imp fun _ _ => DerivedFrom.bounds).pairwise

end Element

namespace CapabilityToken

variable {mac : Mac} {stale : ℕ → ℕ → CapabilityType} {calcTag : Bool} {s : Str}
  {t : CapabilityToken} {token : Option IdentityToken}

/-- The frames of the chain. -/
def frames (t : CapabilityToken) : List Frame :=
  t.body.filterMap Element.frame?

theorem mem_frames {f : Frame} : f ∈ t.frames ↔ .frame f ∈ t.body := by
  simp [frames]

/-- A frame of a derived chain holds nothing that an earlier one does not bound. -/
theorem bounds_of_derived (h : Element.Derived t.body) {k m : ℕ} (hkm : k ≤ m) {f g : Frame}
    (hf : t.frames[k]? = some f) (hg : t.frames[m]? = some g) :
    (Element.frame f).Bounds (.frame g) := by
  rcases Nat.eq_or_lt_of_le hkm with rfl | hlt
  · obtain rfl := Option.some.inj (hf.symm.trans hg)
    exact .refl _
  · obtain ⟨hk, rfl⟩ := List.getElem?_eq_some_iff.1 hf
    obtain ⟨hm, rfl⟩ := List.getElem?_eq_some_iff.1 hg
    have hpair : t.frames.Pairwise fun f g => (Element.frame f).Bounds (.frame g) := by
      refine List.pairwise_filterMap.2 (h.pairwise_bounds.imp fun {e e'} hee f hf g hg => ?_)
      rw [Element.frame?_eq_some] at hf hg
      exact hf ▸ hg ▸ hee
    exact List.pairwise_iff_getElem.1 hpair k m hk hm hlt

/-- Every frame bounds a request that is accepted behind it. -/
theorem bounds_of_isValidRequest (h : t.isValidRequest mac token = .ok true) :
    ∃ r, t.body.getLast? = some (.request r) ∧
      ∀ f ∈ t.frames, ∃ p ∈ f.capabilities, isCapSubsetOfCap r.capability p = true := by
  obtain ⟨hcont, es, e, r, hbody, c, hc, hcov⟩ := isValidRequest_eq_true_iff.1 h
  obtain ⟨-, hderived, -⟩ := isValidDerivation_iff.1 (continueValidation_iff.1 hcont).2.2
  refine ⟨r, by simp [hbody], fun f hf => ?_⟩
  have hlast : (Element.frame f).Bounds e := by
    rw [mem_frames, hbody, List.mem_append] at hf
    have hpair := hderived.pairwise_bounds
    rw [hbody, List.pairwise_append] at hpair
    rcases hf with hf | hf
    · exact hpair.2.2 _ hf e (by simp)
    · obtain rfl : .frame f = e := by simpa using hf
      exact .refl _
  obtain ⟨p, hp, hcp⟩ := hlast c hc
  exact ⟨p, hp, isCapSubsetOfCap_trans (covered_iff.1 hcov).2 hcp⟩

/-- Types and rights only shrink along a chain. A capability has one of the same type with
at least its rights in every frame before it, and an accepted request has a device
capability with at least its rights in every frame. -/
theorem rights_shrink (h : empty.fromString mac stale s calcTag = .ok t)
    (hder : t.isValidDerivation token = true) :
    (∀ (k m : ℕ) (f g : Frame), k ≤ m → t.frames[k]? = some f → t.frames[m]? = some g →
      ∀ c ∈ g.capabilities, ∃ p ∈ f.capabilities,
        p.type = c.type ∧ c.capBits &&& p.capBits = c.capBits) ∧
    ∀ token', t.isValidRequest mac token' = .ok true → ∃ r, t.request = some r ∧
      ∀ f ∈ t.frames, ∃ p ∈ f.capabilities,
        p.type = .deviceCap ∧ r.capability.capBits &&& p.capBits = r.capability.capBits := by
  refine ⟨fun k m f g hkm hf hg c hc => ?_, fun token' hreq => ?_⟩
  · obtain ⟨p, hp, hcp⟩ := bounds_of_derived (isValidDerivation_iff.1 hder).2.1 hkm hf hg c hc
    rw [isCapSubsetOfCap_iff, isCapBitsValid_iff] at hcp
    exact ⟨p, hp, hcp.1.symm, hcp.2⟩
  · obtain ⟨r, hlast, hbound⟩ := bounds_of_isValidRequest hreq
    have hclean : Element.Clean (.request r) :=
      (readsBody_of_fromString h).clean _ (List.mem_of_getLast? hlast)
    refine ⟨r, by rw [request_eq_of_fromString h, Element.lastRequest, hlast], fun f hf => ?_⟩
    obtain ⟨p, hp, hrp⟩ := hbound f hf
    rw [isCapSubsetOfCap_iff, isCapBitsValid_iff] at hrp
    exact ⟨p, hp, hrp.1.symm.trans hclean.type, hrp.2⟩

/-- The rights in both frames of a delegated token and in its request. -/
theorem rights_shrink_delegated :
    (∀ c ∈ (delegatedToken.frames.getD 1 .empty).capabilities,
      ∃ p ∈ delegatedRoot.capabilities, p.type = c.type ∧ c.capBits &&& p.capBits = c.capBits) ∧
    ∃ r, delegatedToken.request = some r ∧ ∀ f ∈ delegatedToken.frames, ∃ p ∈ f.capabilities,
      p.type = .deviceCap ∧ r.capability.capBits &&& p.capBits = r.capability.capBits := by
  obtain ⟨hchain, hrequest⟩ := rights_shrink fromString_delegatedBody
    isValidDerivation_delegatedToken
  exact ⟨hchain 0 1 _ _ (by omega) (by decide +kernel) (by decide +kernel),
    hrequest _ isValidRequest_delegatedToken⟩

end CapabilityToken

/-! ## Frames as sets -/

namespace Element

/-- The same capabilities and the same constraints, in any order and any number. -/
def SameSets : Element → Element → Prop
  | frame f, frame g => (∀ c, c ∈ f.capabilities ↔ c ∈ g.capabilities) ∧
      ∀ k, k ∈ f.constraints ↔ k ∈ g.constraints
  | request r, request r' => r = r'
  | frame _, request _ => False
  | request _, frame _ => False

variable {e e' d d' : Element} {es es' : List Element}

theorem SameSets.refl (e : Element) : e.SameSets e := by
  cases e <;> simp [SameSets]

theorem SameSets.mem_getCapabilities (h : e.SameSets e') (c : CapabilityStructure) :
    c ∈ e.getCapabilities ↔ c ∈ e'.getCapabilities := by
  cases e <;> cases e' <;> simp_all [SameSets, getCapabilities]

theorem SameSets.mem_getConstraints (h : e.SameSets e') (k : Constraint) :
    k ∈ e.getConstraints ↔ k ∈ e'.getConstraints := by
  cases e <;> cases e' <;> simp_all [SameSets, getConstraints]

theorem SameSets.asRequest_eq (h : e.SameSets e') : e.asRequest = e'.asRequest := by
  cases e <;> cases e' <;> simp_all [SameSets, asRequest]

theorem SameSets.derivedFrom_iff (h : e.SameSets e') (h' : d.SameSets d') :
    e.DerivedFrom d ↔ e'.DerivedFrom d' := by
  simp only [DerivedFrom, h.mem_getCapabilities, h'.mem_getCapabilities]

/-- Whether elements are derived depends on the sets of their capabilities only. -/
theorem derived_iff_of_forall₂ (h : List.Forall₂ SameSets es es') : Derived es ↔ Derived es' := by
  induction h with
  | nil => simp [Derived]
  | cons he hes ih =>
    cases hes with
    | nil => simp [Derived]
    | cons hd _ =>
      rw [Derived, Derived, List.isChain_cons_cons, List.isChain_cons_cons]
      exact and_congr (he.derivedFrom_iff hd) ih

/-- Which constraints are looked at depends on the sets only, too. -/
theorem mem_firstConstraints_iff_of_forall₂ (h : List.Forall₂ SameSets es es') (k : Constraint) :
    k ∈ firstConstraints es ↔ k ∈ firstConstraints es' := by
  induction h with
  | nil => rfl
  | @cons e e' _ _ he _ ih =>
    have hnil : e.getConstraints = [] ↔ e'.getConstraints = [] := by
      simp only [List.eq_nil_iff_forall_not_mem, he.mem_getConstraints]
    rw [firstConstraints_cons, firstConstraints_cons]
    by_cases h0 : e.getConstraints = []
    · rwa [if_pos h0, if_pos (hnil.1 h0)]
    · rw [if_neg h0, if_neg (mt hnil.2 h0)]
      exact he.mem_getConstraints k

theorem firstConstraints_congr (h : es.map getConstraints = es'.map getConstraints) :
    firstConstraints es = firstConstraints es' := by
  rw [firstConstraints, h, firstConstraints]

/-- Elements without capabilities are derived from anything. -/
theorem derived_cons_of_forall (e : Element) :
    ∀ {es : List Element}, (∀ d ∈ es, d.getCapabilities = []) → Derived (e :: es)
  | [], _ => List.isChain_singleton e
  | d :: es, h => by
    refine List.isChain_cons_cons.2 ⟨fun c hc => ?_, derived_cons_of_forall d fun d' hd' => ?_⟩
    · simp [h d (by simp)] at hc
    · exact h d' (by simp [hd'])

end Element

namespace CapabilityToken

variable {t t' : CapabilityToken} {token : Option IdentityToken} {es : List Element}

/-- The last test of `is_valid_request`, the one after `continue_validation` : the request
against the element before it. -/
def requestMatches (self : CapabilityToken) : Except Fault Bool := do
  let bodySize : ℤ := self.body.length
  let prev ← self.bodyAt (bodySize - 2)
  let last ← self.bodyAt (bodySize - 1)
  let request ← last.asRequest
  return prev.getCapabilities.any fun permissive => covered request.capability permissive

theorem isValidRequest_eq (mac : Mac) : t.isValidRequest mac token =
    if t.continueValidation mac token then t.requestMatches else .ok false :=
  rfl

/-- So does the answer of `is_valid_derivation`. -/
theorem isValidDerivation_eq_of_forall₂ (h : List.Forall₂ Element.SameSets t.body t'.body) :
    t.isValidDerivation token = t'.isValidDerivation token := by
  have hnil : t.body ≠ [] ↔ t'.body ≠ [] := by
    rw [← List.length_pos_iff, ← List.length_pos_iff, h.length_eq]
  have hfront : List.Forall₂ Element.SameSets t.body.dropLast t'.body.dropLast := by
    rw [List.dropLast_eq_take, List.dropLast_eq_take, ← h.length_eq]
    exact List.forall₂_take _ h
  rw [Bool.eq_iff_iff, isValidDerivation_iff, isValidDerivation_iff, hnil,
    Element.derived_iff_of_forall₂ h]
  simp only [Element.mem_firstConstraints_iff_of_forall₂ hfront]

/-- Both bodies fail at the same index, or hold elements with the same sets there. -/
theorem bodyAt_of_forall₂ (h : List.Forall₂ Element.SameSets t.body t'.body) (i : ℤ) :
    t.bodyAt i = .error .badIndex ∧ t'.bodyAt i = .error .badIndex ∨
      ∃ e e', t.bodyAt i = .ok e ∧ t'.bodyAt i = .ok e' ∧ e.SameSets e' := by
  have hlen := h.length_eq
  unfold bodyAt vecAt
  by_cases hi : 0 ≤ i ∧ i.toNat < t.body.length
  · have hlt := hi.2
    have hlt' : i.toNat < t'.body.length := by omega
    refine Or.inr ⟨t.body[i.toNat], t'.body[i.toNat], ?_, ?_, h.get _ _⟩
    · simp [hi]
    · simp [hi, ← hlen]
  · refine Or.inl ⟨?_, ?_⟩
    · split_ifs with h0
      · rw [List.getElem?_eq_none (by omega)]
      · rfl
    · split_ifs with h0
      · rw [List.getElem?_eq_none (by omega)]
      · rfl

/-- And whether the last frame covers the request. -/
theorem requestMatches_eq_of_forall₂ (h : List.Forall₂ Element.SameSets t.body t'.body) :
    t.requestMatches = t'.requestMatches := by
  unfold requestMatches
  simp only [h.length_eq]
  rcases bodyAt_of_forall₂ h (t'.body.length - 2) with ⟨h₁, h₂⟩ | ⟨prev, prev', h₁, h₂, hprev⟩
  · rw [h₁, h₂]
    rfl
  rcases bodyAt_of_forall₂ h (t'.body.length - 1) with ⟨h₃, h₄⟩ | ⟨last, last', h₃, h₄, hlast⟩
  · rw [h₁, h₂, h₃, h₄]
    rfl
  have hany : ∀ c, (prev.getCapabilities.any fun p => covered c p) =
      prev'.getCapabilities.any fun p => covered c p := by
    intro c
    rw [Bool.eq_iff_iff, List.any_eq_true, List.any_eq_true]
    simp only [hprev.mem_getCapabilities]
  rw [h₁, h₂, h₃, h₄]
  simp only [bind, Except.bind, hlast.asRequest_eq, hany]

/-- So as long as validation goes on alike, a request is answered alike. -/
theorem isValidRequest_eq_of_forall₂ (h : List.Forall₂ Element.SameSets t.body t'.body)
    {mac : Mac} (hcont : t.continueValidation mac token = t'.continueValidation mac token) :
    t.isValidRequest mac token = t'.isValidRequest mac token := by
  rw [isValidRequest_eq, isValidRequest_eq, hcont, requestMatches_eq_of_forall₂ h]

/-- A derivation that holds carries over to elements with the same constraints. -/
theorem isValidDerivation_of_derived (h : t.isValidDerivation token = true)
    (hder : Element.Derived es)
    (hes : es.map Element.getConstraints = t.body.map Element.getConstraints) :
    isValidDerivation { t with body := es } token = true := by
  obtain ⟨hne, -, hvalid⟩ := isValidDerivation_iff.1 h
  refine isValidDerivation_iff.2 ⟨?_, hder, ?_⟩
  · rintro rfl
    exact hne (List.map_eq_nil_iff.1 hes.symm)
  · have hfirst : Element.firstConstraints es.dropLast =
        Element.firstConstraints t.body.dropLast :=
      Element.firstConstraints_congr (by rw [List.map_dropLast, List.map_dropLast, hes])
    rwa [hfirst]

/-- More capabilities in the first frame do no harm. -/
theorem isValidDerivation_add {f : Frame} {caps : List CapabilityStructure}
    (h : t.isValidDerivation token = true) (hbody : t.body = .frame f :: es)
    (hcaps : f.capabilities ⊆ caps) :
    isValidDerivation { t with body := .frame ⟨caps, f.constraints⟩ :: es } token = true := by
  refine isValidDerivation_of_derived h ?_ (by simp [hbody, Element.getConstraints])
  have hder := (isValidDerivation_iff.1 h).2.1
  rw [hbody] at hder
  refine hder.cons_of_imp fun d hd c hc => ?_
  obtain ⟨p, hp, hcp⟩ := hd c hc
  exact ⟨p, hcaps hp, hcp⟩

/-- Fewer capabilities in a frame do no harm, if there are none behind it. -/
theorem isValidDerivation_remove {f : Frame} {rest : List Element}
    {caps : List CapabilityStructure} (h : t.isValidDerivation token = true)
    (hbody : t.body = es ++ .frame f :: rest) (hrest : ∀ e ∈ rest, e.getCapabilities = [])
    (hcaps : caps ⊆ f.capabilities) :
    isValidDerivation { t with body := es ++ .frame ⟨caps, f.constraints⟩ :: rest } token =
      true := by
  refine isValidDerivation_of_derived h ?_ (by simp [hbody, Element.getConstraints])
  have hder := (isValidDerivation_iff.1 h).2.1
  rw [hbody, Element.Derived, List.isChain_append] at hder
  refine List.isChain_append.2 ⟨hder.1, Element.derived_cons_of_forall _ hrest, ?_⟩
  intro prev hprev cur hcur c hc
  obtain rfl : .frame ⟨caps, f.constraints⟩ = cur := by simpa using hcur
  exact hder.2.2 prev hprev (.frame f) (by simp) c (hcaps hc)

/-- The first elements of a derivation are one. -/
theorem isValidDerivation_prefix (h : t.isValidDerivation token = true) (hne : es ≠ [])
    (hes : es <+: t.body) : isValidDerivation { t with body := es } token = true := by
  obtain ⟨-, hder, hvalid⟩ := isValidDerivation_iff.1 h
  refine isValidDerivation_iff.2 ⟨hne, hder.prefix hes, fun k hk => hvalid k ?_⟩
  refine Element.mem_firstConstraints_of_prefix ?_ hk
  obtain ⟨l, hl⟩ := hes
  rw [← hl]
  rcases eq_or_ne l [] with rfl | hl
  · simp
  · rw [List.dropLast_append_of_ne_nil hl]
    exact (List.dropLast_prefix es).trans (List.prefix_append _ _)

/-- The derivation check and the last test of a request are functions of the sets in the
frames, and so is the answer to a request if the tests before agree. The derivation check is
monotone in the first frame, antitone in the last frame and in the elements behind a prefix. -/
theorem derivation_of_sets (token : Option IdentityToken) :
    (∀ t t' : CapabilityToken, List.Forall₂ Element.SameSets t.body t'.body →
      t.isValidDerivation token = t'.isValidDerivation token ∧
        t.requestMatches = t'.requestMatches ∧
          ∀ mac, t.continueValidation mac token = t'.continueValidation mac token →
            t.isValidRequest mac token = t'.isValidRequest mac token) ∧
    ∀ t : CapabilityToken, t.isValidDerivation token = true →
      (∀ f es caps, t.body = .frame f :: es → f.capabilities ⊆ caps →
        isValidDerivation { t with body := .frame ⟨caps, f.constraints⟩ :: es } token = true) ∧
      (∀ es f rest caps, t.body = es ++ .frame f :: rest → (∀ e ∈ rest, ∃ r, e = .request r) →
        caps ⊆ f.capabilities →
          isValidDerivation { t with body := es ++ .frame ⟨caps, f.constraints⟩ :: rest } token =
            true) ∧
      ∀ es, es ≠ [] → es <+: t.body → isValidDerivation { t with body := es } token = true := by
  refine ⟨fun t t' h => ⟨isValidDerivation_eq_of_forall₂ h, requestMatches_eq_of_forall₂ h,
      fun mac => isValidRequest_eq_of_forall₂ h⟩,
    fun t h => ⟨fun f es caps => isValidDerivation_add h, fun es f rest caps hbody hrest =>
      isValidDerivation_remove h hbody fun e he => ?_, fun es => isValidDerivation_prefix h⟩⟩
  obtain ⟨r, rfl⟩ := hrest e he
  rfl

/-- A delegated token with everything in its first frame doubled, with a capability more
there, with none in its last frame, and cut off after its first frame. -/
theorem derivation_of_sets_delegated :
    (isValidDerivation { delegatedToken with
        body := .frame ⟨delegatedRoot.capabilities ++ delegatedRoot.capabilities,
          delegatedRoot.constraints ++ delegatedRoot.constraints⟩ :: delegatedToken.body.tail }
      (some delegatedIdentity) = delegatedToken.isValidDerivation (some delegatedIdentity)) ∧
    isValidDerivation { delegatedToken with
        body := .frame ⟨⟨['b'], .userCap, 0⟩ :: delegatedRoot.capabilities,
          delegatedRoot.constraints⟩ :: delegatedToken.body.tail }
      (some delegatedIdentity) = true ∧
    isValidDerivation { delegatedToken with
        body := [.frame delegatedRoot] ++ .frame ⟨[], []⟩ :: [.request delegatedRequest] }
      (some delegatedIdentity) = true ∧
    isValidDerivation { delegatedToken with body := [.frame delegatedRoot] }
      (some delegatedIdentity) = true := by
  obtain ⟨hsame, hmono⟩ := derivation_of_sets (some delegatedIdentity)
  obtain ⟨hadd, hremove, hprefix⟩ := hmono delegatedToken isValidDerivation_delegatedToken
  refine ⟨(hsame _ delegatedToken ?_).1, hadd delegatedRoot _ _ rfl (by simp), ?_, ?_⟩
  · exact .cons ⟨fun c => by simp, fun k => by simp⟩
      (List.forall₂_same.2 fun e _ => Element.SameSets.refl e)
  · exact hremove [.frame delegatedRoot] ⟨[⟨"/a/b".toList, .deviceCap, 0b001⟩], []⟩ _ [] rfl
      (by simp) (by simp)
  · exact hprefix _ (by simp) ⟨_, rfl⟩

end CapabilityToken

end Caplets
