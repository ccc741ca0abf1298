import Mathlib.Data.List.Induction
import Mathlib.Tactic.Common

/-!
# Chains of a keyed function

`chain mac k ms` keys `mac` with `k` for the first message and with the last output for
every later one. It is the tag of a message list that can be extended by whoever holds
the tag and by nobody else.

A keyed function with outputs of bounded size has collisions, so none is assumed away for
good. `CollisionFree mac qs` is about the finitely many queries `qs` that a pair of runs
makes (`queries`). Two chains from a root that is no output are then equal only on equal
messages (`chain_inj`), and equally many messages at the end of two chains cancel (`chain_cancel`).
-/

namespace KeyedChain

variable {M K : Type*} (mac : M → K → K)

/-- The last output of `mac` on the messages in turn, each keyed with the output before. -/
def chain (k : K) (ms : List M) : K :=
  ms.foldl (fun k m => mac m k) k

/-- The message and key of every call `chain` makes. -/
def queries : K → List M → List (M × K)
  | _, [] => []
  | k, m :: ms => (m, k) :: queries (mac m k) ms

/-- Different queries of `qs` have different outputs. -/
def CollisionFree (qs : List (M × K)) : Prop :=
  ∀ q ∈ qs, ∀ q' ∈ qs, mac q.1 q.2 = mac q'.1 q'.2 → q = q'

instance [DecidableEq M] [DecidableEq K] (qs : List (M × K)) : Decidable (CollisionFree mac qs) :=
  inferInstanceAs (Decidable (∀ q ∈ qs, ∀ q' ∈ qs, mac q.1 q.2 = mac q'.1 q'.2 → q = q'))

variable {mac}

@[simp] theorem chain_nil (k : K) : chain mac k [] = k := rfl

@[simp] theorem chain_cons (k : K) (m : M) (ms : List M) :
    chain mac k (m :: ms) = chain mac (mac m k) ms := rfl

@[simp] theorem chain_append (k : K) (ms ns : List M) :
    chain mac k (ms ++ ns) = chain mac (chain mac k ms) ns := by
  simp [chain]

@[simp] theorem queries_nil (k : K) : queries mac k ([] : List M) = [] := rfl

@[simp] theorem queries_cons (k : K) (m : M) (ms : List M) :
    queries mac k (m :: ms) = (m, k) :: queries mac (mac m k) ms := rfl

@[simp] theorem queries_append (k : K) (ms ns : List M) :
    queries mac k (ms ++ ns) = queries mac k ms ++ queries mac (chain mac k ms) ns := by
  induction ms generalizing k with
  | nil => rfl
  | cons m ms ih => simp [ih]

theorem CollisionFree.mono {qs rs : List (M × K)} (h : CollisionFree mac qs) (hsub : rs ⊆ qs) :
    CollisionFree mac rs :=
  fun q hq q' hq' => h q (hsub hq) q' (hsub hq')

/-- A chain over at least one message ends in an output. -/
theorem exists_chain_eq (mac : M → K → K) (k : K) {ms : List M} (hms : ms ≠ []) :
    ∃ m k', chain mac k ms = mac m k' := by
  obtain ⟨ns, m, rfl⟩ := (List.eq_nil_or_concat ms).resolve_left hms
  exact ⟨m, chain mac k ns, by simp⟩

/-- From a root that is no output, equal tags mean equal messages, whatever the lengths. -/
theorem chain_inj {root : K} (hroot : ∀ m k, mac m k ≠ root) {ms ns : List M}
    (hfree : CollisionFree mac (queries mac root ms ++ queries mac root ns))
    (h : chain mac root ms = chain mac root ns) : ms = ns := by
  induction ms using List.reverseRecOn generalizing ns with
  | nil =>
    by_contra hne
    obtain ⟨m, k, hout⟩ := exists_chain_eq mac root (Ne.symm hne)
    exact hroot m k (hout ▸ h.symm)
  | append_singleton ms m ih =>
    rcases List.eq_nil_or_concat ns with rfl | ⟨ns, n, rfl⟩
    · exact absurd (by simpa using h) (hroot m _)
    · have hlast := hfree (m, chain mac root ms) (by simp) (n, chain mac root ns) (by simp)
        (by simpa using h)
      obtain ⟨rfl, hkeys⟩ := Prod.mk.inj hlast
      have hsub : queries mac root ms ++ queries mac root ns ⊆
          queries mac root (ms ++ [m]) ++ queries mac root (ns.concat m) := by
        intro q hq
        simp only [List.concat_eq_append, queries_append, List.mem_append] at hq ⊢
        tauto
      obtain rfl := ih (hfree.mono hsub) hkeys
      simp

/-- Two chains over equally many messages lead to the same tag only over the same messages,
and from the same tag. -/
theorem chain_cancel {k t : K} {ms ns : List M} (hlen : ms.length = ns.length)
    (hfree : CollisionFree mac (queries mac k ms ++ queries mac t ns))
    (h : chain mac k ms = chain mac t ns) : k = t ∧ ms = ns := by
  induction ms using List.reverseRecOn generalizing ns with
  | nil =>
    obtain rfl := List.length_eq_zero_iff.1 hlen.symm
    exact ⟨h, rfl⟩
  | append_singleton ms m ih =>
    obtain ⟨ns, n, rfl⟩ := (List.eq_nil_or_concat ns).resolve_left (by
      rintro rfl
      simp at hlen)
    rw [List.concat_eq_append] at hlen hfree h ⊢
    obtain ⟨rfl, hkeys⟩ := Prod.mk.inj (hfree (m, chain mac k ms) (by simp)
      (n, chain mac t ns) (by simp) (by simpa using h))
    have hsub : queries mac k ms ++ queries mac t ns ⊆
        queries mac k (ms ++ [m]) ++ queries mac t (ns ++ [m]) := by
      intro q hq
      simp only [queries_append, List.mem_append] at hq ⊢
      tauto
    obtain ⟨rfl, rfl⟩ := ih (by simpa using hlen) (hfree.mono hsub) hkeys
    exact ⟨rfl, rfl⟩

end KeyedChain
