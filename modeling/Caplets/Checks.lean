import Caplets.Bodies
import Mathlib.Data.List.Chain

/-!
# What the checks decide

One specification for each check of `CapabilityToken` and `IdentityToken`, in terms of the
body : the derivation check asks for `Derived` elements and for the constraints of the
first element that has any (`isValidDerivation_iff`), and no others. A request is accepted
if the token is valid for the identity and a capability of the element before the request
covers it (`isValidRequest_eq_true_iff`).
-/

namespace Caplets

open Delimited KeyedChain

namespace Element

/-- Every capability of `cur` is covered by one of `prev`. -/
def DerivedFrom (prev cur : Element) : Prop :=
  ∀ c ∈ cur.getCapabilities, ∃ p ∈ prev.getCapabilities, covered c p = true

instance (prev cur : Element) : Decidable (prev.DerivedFrom cur) :=
  inferInstanceAs (Decidable (∀ c ∈ cur.getCapabilities, ∃ p ∈ prev.getCapabilities,
    covered c p = true))

/-- Every element is derived from the one before it. -/
def Derived (es : List Element) : Prop :=
  es.IsChain DerivedFrom

instance (es : List Element) : Decidable (Derived es) :=
  inferInstanceAs (Decidable (es.IsChain DerivedFrom))

/-- The constraints of the first element that has any. -/
def firstConstraints (es : List Element) : List Constraint :=
  ((es.map getConstraints).find? (· ≠ [])).getD []

theorem firstConstraints_cons (e : Element) (es : List Element) :
    firstConstraints (e :: es) =
      if e.getConstraints = [] then firstConstraints es else e.getConstraints := by
  by_cases h : e.getConstraints = []
  · simp [firstConstraints, h]
  · simp [firstConstraints, h]

/-- Constraints behind the first ones are not looked at. -/
theorem firstConstraints_append (es' : List Element) : ∀ es : List Element,
    firstConstraints (es ++ es') =
      if firstConstraints es = [] then firstConstraints es' else firstConstraints es
  | [] => by simp [firstConstraints]
  | e :: es => by
    rw [List.cons_append, firstConstraints_cons, firstConstraints_cons,
      firstConstraints_append es' es]
    by_cases h : e.getConstraints = []
    · simp [h]
    · simp [h]

/-- What is looked at in the first elements is looked at in all of them. -/
theorem mem_firstConstraints_of_prefix {es es' : List Element} (h : es <+: es')
    {k : Constraint} (hk : k ∈ firstConstraints es) : k ∈ firstConstraints es' := by
  obtain ⟨l, rfl⟩ := h
  rwa [firstConstraints_append, if_neg (List.ne_nil_of_mem hk)]

/-- They are constraints of one of the elements. -/
theorem exists_of_mem_firstConstraints {k : Constraint} :
    ∀ {es : List Element}, k ∈ firstConstraints es → ∃ e ∈ es, k ∈ e.getConstraints
  | [], h => absurd h (by simp [firstConstraints])
  | e :: es, h => by
    rw [firstConstraints_cons] at h
    split_ifs at h
    · obtain ⟨e', he', hk⟩ := exists_of_mem_firstConstraints h
      exact ⟨e', by simp [he'], hk⟩
    · exact ⟨e, by simp, h⟩

/-- Anything may stand in front of an element without capabilities. -/
theorem derived_concat {es : List Element} {e : Element} (he : e.getCapabilities = []) :
    Derived (es ++ [e]) ↔ Derived es := by
  have hfrom : ∀ e' : Element, e'.DerivedFrom e := fun e' c hc => absurd hc (by simp [he])
  rw [Derived, List.isChain_append]
  simp [Derived, hfrom]

end Element

/-! ## Constraints -/

/-- The identity in a token, if one is presented. -/
def identityOf (token : Option IdentityToken) : Option Str :=
  token.map IdentityToken.identityToken

/-- Whether there is an identity to present is a matter of the identity alone. -/
theorem identityToken_ne_nil_congr {token token' : Option IdentityToken}
    (hsame : identityOf token' = identityOf token) (h : ∀ i ∈ token, i.identityToken ≠ []) :
    ∀ i ∈ token', i.identityToken ≠ [] := by
  intro i hi
  rw [Option.mem_def.1 hi, identityOf, Option.map_some, eq_comm, identityOf,
    Option.map_eq_some_iff] at hsame
  obtain ⟨j, hj, hid⟩ := hsame
  exact hid ▸ h j hj

namespace Constraint

/-- Only `identity_constraint` looks at the identity. -/
def IsIdentity (k : Constraint) : Prop :=
  cStr k.function = "identity_constraint".toList

instance (k : Constraint) : Decidable k.IsIdentity :=
  inferInstanceAs (Decidable (_ = _))

/-- Only identity constraints are evaluated, and they need the one parameter to be the identity. -/
theorem isValidConstraint_iff {k : Constraint} {token : Option IdentityToken} :
    k.isValidConstraint token = true ↔ (k.IsIdentity →
      ∃ id parameter, identityOf token = some id ∧ k.parameters = [parameter] ∧
        cStr id = cStr parameter) := by
  have hname : cStr "identity_constraint".toList = "identity_constraint".toList := by decide
  have hcond : strcmpEq k.function "identity_constraint".toList = true ↔ k.IsIdentity := by
    rw [strcmpEq_iff, hname, IsIdentity]
  obtain ⟨function, parameters⟩ := k
  by_cases hid : IsIdentity ⟨function, parameters⟩
  · unfold isValidConstraint
    rw [if_pos (hcond.2 hid)]
    simp only [hid, true_implies]
    cases token with
    | none => simp [identityOf]
    | some idToken =>
      match parameters with
      | [] | _ :: _ :: _ => simp
      | [parameter] => simp [identityOf, strcmpEq_iff]
  · unfold isValidConstraint
    rw [if_neg (mt hcond.1 hid)]
    simp [hid]

/-- The check sees nothing of an identity token but the identity. -/
theorem isValidConstraint_congr {k : Constraint} {token token' : Option IdentityToken}
    (h : identityOf token = identityOf token') :
    k.isValidConstraint token = k.isValidConstraint token' := by
  rw [Bool.eq_iff_iff, isValidConstraint_iff, isValidConstraint_iff, h]

end Constraint

namespace CapabilityToken

/-! ## Derivation -/

section Derivation

variable {t : CapabilityToken} {token : Option IdentityToken}

/-- One round of the loop, which evaluates the constraints of `prev` if none were before. -/
theorem derivationLoop_cons_cons (checked : Bool) (prev cur : Element) (rest : List Element) :
    derivationLoop token checked (prev :: cur :: rest) = true ↔ prev.DerivedFrom cur ∧
      if checked = false ∧ prev.getConstraints ≠ [] then
        (∀ k ∈ prev.getConstraints, k.isValidConstraint token = true) ∧
          derivationLoop token true (cur :: rest) = true
      else derivationLoop token checked (cur :: rest) = true := by
  have hderived : (cur.getCapabilities.all fun c => prev.getCapabilities.any fun p => covered c p) =
      true ↔ prev.DerivedFrom cur := by
    simp [Element.DerivedFrom]
  have hfirst : (!checked && decide (prev.getConstraints.length > 0)) = true ↔
      checked = false ∧ prev.getConstraints ≠ [] := by
    simp [List.length_pos_iff]
  by_cases hd : prev.DerivedFrom cur
  · rw [derivationLoop, hderived.2 hd]
    by_cases hf : checked = false ∧ prev.getConstraints ≠ []
    · rw [if_pos (hfirst.2 hf), if_pos hf, ← List.all_eq_true]
      by_cases hall : prev.getConstraints.all (·.isValidConstraint token) = true
      · simp [hall, hd]
      · simp [hall]
    · rw [if_neg (mt hfirst.1 hf), if_neg hf]
      simp [hd]
  · rw [derivationLoop, Bool.eq_false_iff.2 (mt hderived.1 hd)]
    simp [hd]

/-- The loop accepts derived elements whose first constraints hold, if none were evaluated yet. -/
theorem derivationLoop_iff : ∀ {es : List Element} {checked : Bool},
    derivationLoop token checked es = true ↔ Element.Derived es ∧
      (checked = false →
        ∀ k ∈ Element.firstConstraints es.dropLast, k.isValidConstraint token = true)
  | [], _ => by simp [derivationLoop, Element.Derived, Element.firstConstraints]
  | [e], _ => by simp [derivationLoop, Element.Derived, Element.firstConstraints]
  | prev :: cur :: rest, checked => by
    have hcons : Element.Derived (prev :: cur :: rest) ↔
        prev.DerivedFrom cur ∧ Element.Derived (cur :: rest) :=
      List.isChain_cons_cons
    rw [derivationLoop_cons_cons, derivationLoop_iff, derivationLoop_iff, hcons,
      List.dropLast_cons_cons, Element.firstConstraints_cons, and_assoc]
    refine and_congr_right fun _ => ?_
    by_cases hne : prev.getConstraints = []
    · simp [hne]
    · cases checked with
      | false => simp [hne, and_comm]
      | true => simp

/-- `is_valid_derivation`. The constraints of the last element are never looked at. -/
theorem isValidDerivation_iff : t.isValidDerivation token = true ↔ t.body ≠ [] ∧
    Element.Derived t.body ∧
      ∀ k ∈ Element.firstConstraints t.body.dropLast, k.isValidConstraint token = true := by
  rw [isValidDerivation]
  split_ifs with h0 h1
  · simp [List.length_eq_zero_iff.1 h0]
  · obtain ⟨e, he⟩ := List.length_eq_one_iff.1 h1
    simp [he, Element.Derived, Element.firstConstraints]
  · have hne : t.body ≠ [] := fun h => h0 (by simp [h])
    simp [derivationLoop_iff, hne]

/-- Of the identity token only the identity is looked at. -/
theorem isValidDerivation_congr {token token' : Option IdentityToken}
    (h : identityOf token = identityOf token') :
    t.isValidDerivation token = t.isValidDerivation token' := by
  rw [Bool.eq_iff_iff, isValidDerivation_iff, isValidDerivation_iff]
  simp only [Constraint.isValidConstraint_congr h]

end Derivation

/-! ## Identity tokens -/

end CapabilityToken

namespace IdentityToken

/-- The messages of the identity chain. -/
def messages (i : IdentityToken) : List Str :=
  [IDENTITY_TOKEN_DUMMY_BODY, i.identityToken, i.requestTag]

theorem isValidSignature_iff {mac : Mac} {i : IdentityToken} :
    i.isValidSignature mac = true ↔ chain mac.computeMac SECRET i.messages = cStr i.tag := by
  have htag : IsTag (chain mac.computeMac SECRET i.messages) :=
    mac.isTag_chain _ (by simp [messages])
  rw [← htag.cStr_eq]
  exact strcmpEq_iff

end IdentityToken

namespace CapabilityToken

section Request

variable {mac : Mac} {t : CapabilityToken} {token : Option IdentityToken}

/-- `is_valid_identity_token`. Request tag and tag are compared up to the first null character. -/
theorem isValidIdentityToken_iff {i : IdentityToken} :
    t.isValidIdentityToken mac i = true ↔
      (i.identityToken ≠ [] ∧ i.requestTag ≠ [] ∧ i.tag ≠ []) ∧ cStr i.requestTag = cStr t.tag ∧
        i.isValidSignature mac = true := by
  unfold isValidIdentityToken
  by_cases hlen : i.identityToken ≠ [] ∧ i.requestTag ≠ [] ∧ i.tag ≠ []
  · rw [if_neg (by simpa using hlen)]
    by_cases htag : cStr i.requestTag = cStr t.tag
    · simp [strcmpEq_iff.2 htag, htag, hlen]
    · simp [strcmpEq_iff, htag]
  · rw [if_pos (by simpa [List.length_eq_zero_iff, imp_iff_not_or] using hlen)]
    simp [hlen]

/-- The identity token goes with the capability token, if there is one. -/
def IdentityAccepted (mac : Mac) (t : CapabilityToken) (token : Option IdentityToken) : Prop :=
  ∀ i ∈ token, t.isValidIdentityToken mac i = true

/-- All three checks in front of the request are made. -/
theorem continueValidation_iff : t.continueValidation mac token = true ↔
    t.IdentityAccepted mac token ∧ t.isValidSignature mac = true ∧
      t.isValidDerivation token = true := by
  cases token with
  | none => simp [continueValidation, isValidToken, IdentityAccepted]
  | some i => simp [continueValidation, isValidToken, IdentityAccepted]

theorem isValidRequest_of_not (h : t.continueValidation mac token ≠ true) :
    t.isValidRequest mac token = .ok false := by
  rw [isValidRequest, if_neg h]

/-- The last test of a token whose body ends in an element and a request. -/
theorem isValidRequest_of_body {es : List Element} {e : Element} {r : Request}
    (hbody : t.body = es ++ [e, .request r]) (h : t.continueValidation mac token = true) :
    t.isValidRequest mac token =
      .ok (e.getCapabilities.any fun permissive => covered r.capability permissive) := by
  have hlen : t.body.length = es.length + 2 := by simp [hbody]
  have hprev : t.bodyAt (t.body.length - 2) = .ok e := by
    rw [bodyAt, hlen, if_pos (by omega), vecAt_eq_ok, hbody]
    simp
  have hlast : t.bodyAt (t.body.length - 1) = .ok (.request r) := by
    rw [bodyAt, hlen, if_pos (by omega), vecAt_eq_ok, hbody]
    have hi : ((es.length + 2 : ℕ) - 1 : ℤ).toNat = es.length + 1 := by omega
    rw [hi]
    simp
  rw [isValidRequest, if_pos h]
  simp only [hprev, hlast]
  rfl

theorem bodyAt_eq_ok {i : ℤ} {e : Element} :
    t.bodyAt i = .ok e ↔ 0 ≤ i ∧ t.body[i.toNat]? = some e := by
  unfold bodyAt
  split_ifs with h
  · simp [h]
  · simp [h]

/-- If the last test runs to its end, the body ends in an element and a request. -/
theorem exists_of_isValidRequest_eq_ok {b : Bool} (h : t.continueValidation mac token = true)
    (hb : t.isValidRequest mac token = .ok b) :
    ∃ es e r, t.body = es ++ [e, .request r] := by
  rw [isValidRequest, if_pos h] at hb
  simp only [bind_eq_ok, bodyAt_eq_ok] at hb
  obtain ⟨e, ⟨hpos, he⟩, last, ⟨-, hlast⟩, r, hr, -⟩ := hb
  obtain rfl : last = .request r := by
    cases last with
    | frame f => simp [Element.asRequest] at hr
    | request r' => rw [Element.asRequest, Except.ok.injEq] at hr; rw [hr]
  obtain ⟨es, e', e'', hes⟩ : ∃ es e' e'', t.body = es ++ [e', e''] := by
    obtain ⟨es, e'', hes⟩ := (List.eq_nil_or_concat' t.body).resolve_left (by
      intro h0
      simp [h0] at hpos)
    obtain ⟨es, e', rfl⟩ := (List.eq_nil_or_concat' es).resolve_left (by
      rintro rfl
      simp [hes] at hpos)
    exact ⟨es, e', e'', by simpa using hes⟩
  have hi : ((es.length + 2 : ℕ) - 1 : ℤ).toNat = es.length + 1 := by omega
  have hlen : t.body.length = es.length + 2 := by simp [hes]
  rw [hlen, hi, hes] at hlast
  obtain rfl : e'' = .request r := by simpa using hlast
  exact ⟨es, e', r, hes⟩

/-- `is_valid_request` : the last element is a request, and the one before covers it. -/
theorem isValidRequest_eq_true_iff : t.isValidRequest mac token = .ok true ↔
    t.continueValidation mac token = true ∧ ∃ es e r, t.body = es ++ [e, .request r] ∧
      ∃ c ∈ e.getCapabilities, covered r.capability c = true := by
  constructor
  · intro h
    by_cases hc : t.continueValidation mac token = true
    · obtain ⟨es, e, r, hbody⟩ := exists_of_isValidRequest_eq_ok hc h
      rw [isValidRequest_of_body hbody hc] at h
      exact ⟨hc, es, e, r, hbody, by simpa using h⟩
    · rw [isValidRequest_of_not hc] at h
      simp at h
  · rintro ⟨hc, es, e, r, hbody, c, hmem, hcov⟩
    rw [isValidRequest_of_body hbody hc]
    simpa using ⟨c, hmem, hcov⟩

end Request

/-! ### The delegated token passes every check -/

theorem continueValidation_delegatedToken :
    delegatedToken.continueValidation delegatedMac (some delegatedIdentity) = true :=
  (isValidRequest_eq_true_iff.1 isValidRequest_delegatedToken).1

theorem isValidSignature_delegatedToken : delegatedToken.isValidSignature delegatedMac = true :=
  (continueValidation_iff.1 continueValidation_delegatedToken).2.1

theorem isValidDerivation_delegatedToken :
    delegatedToken.isValidDerivation (some delegatedIdentity) = true :=
  (continueValidation_iff.1 continueValidation_delegatedToken).2.2

theorem isValidSignature_delegatedIdentity :
    delegatedIdentity.isValidSignature delegatedMac = true :=
  (isValidIdentityToken_iff.1
    ((continueValidation_iff.1 continueValidation_delegatedToken).1 _ rfl)).2.2

end CapabilityToken

end Caplets
