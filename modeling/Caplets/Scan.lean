import Caplets.Delimited
import Mathlib.Data.List.Sort

/-!
# Matches from left to right

`Scan d l ms` specifies the matches of `d` in `l` that a scan from left to right finds, without
a scan : the occurrences at the positions `ms` do not overlap, and every other occurrence
overlaps one of them that starts before it. There is one such list (`Scan.unique`,
`exists_scan`). A text is its pieces joined, with one delimiter more exactly if the last match
is at its end (`Splits.intercalate_append_iff`).
-/

namespace Delimited

variable {α : Type*} {d l p : List α} {ms : List ℕ} {ps : List (List α)}

/-- `ms` are the positions of the matches of `d` from left to right. -/
structure Scan (d l : List α) (ms : List ℕ) : Prop where
  occurs : ∀ m ∈ ms, d <+: l.drop m
  apart : ms.Pairwise fun m n => m + d.length ≤ n
  /-- An occurrence is left out only for a match that starts before it and overlaps it. -/
  leftmost : ∀ n, d <+: l.drop n → ∃ m ∈ ms, m ≤ n ∧ n < m + d.length

/-- The last of the matches is at the end of the text. -/
def EndsInMatch (d l : List α) (ms : List ℕ) : Prop :=
  ∃ m ∈ ms.getLast?, m + d.length = l.length

/-- No occurrence starts in front of the one at a first cut. -/
theorem First.not_prefix_drop : ∀ {p : List α} {n : ℕ}, First d p → n < p.length →
    ∀ l, ¬d <+: (p ++ d ++ l).drop n
  | a :: p, 0, h, _, l => by
    rw [List.append_assoc]
    exact h.not_prefix_append l
  | a :: p, n + 1, h, hn, l => h.tail.not_prefix_drop (Nat.lt_of_succ_lt_succ hn) l

namespace Scan

/-- Two matches that overlap are the same. -/
theorem eq_of_overlap (h : Scan d l ms) {m n : ℕ} (hm : m ∈ ms) (hn : n ∈ ms) (hle : m ≤ n)
    (hlt : n < m + d.length) : m = n := by
  obtain ⟨i, hi, rfl⟩ := List.getElem_of_mem hm
  obtain ⟨j, hj, rfl⟩ := List.getElem_of_mem hn
  have hapart := List.pairwise_iff_getElem.1 h.apart
  rcases Nat.lt_trichotomy i j with hij | rfl | hji
  · have := hapart i j hi hj hij
    omega
  · rfl
  · have := hapart j i hj hi hji
    omega

/-- A match of one scan is a match of the other one. By induction on its position : what the
other scan has instead of it would start before it. -/
theorem mem_of_mem {ms' : List ℕ} (h : Scan d l ms) (h' : Scan d l ms') :
    ∀ {n : ℕ}, n ∈ ms → n ∈ ms' := by
  intro n
  induction n using Nat.strong_induction_on generalizing ms ms' with
  | _ n ih =>
    intro hn
    obtain ⟨m, hm, hle, hlt⟩ := h'.leftmost n (h.occurs n hn)
    rcases Nat.eq_or_lt_of_le hle with rfl | hless
    · exact hm
    · have hm' : m ∈ ms := ih m hless h' h hm
      have heq := h.eq_of_overlap hm' hn hle hlt
      omega

theorem unique {ms' : List ℕ} (hd : d ≠ []) (h : Scan d l ms) (h' : Scan d l ms') : ms = ms' := by
  have hpos := List.length_pos_iff.2 hd
  have hsorted : ∀ {ms : List ℕ}, Scan d l ms → ms.Pairwise (· < ·) := fun h =>
    h.apart.imp fun {m n} hmn => by omega
  exact (hsorted h).eq_of_mem_iff (hsorted h') fun n => ⟨h.mem_of_mem h', h'.mem_of_mem h⟩

theorem eq_nil (h : Scan d [] ms) (hd : d ≠ []) : ms = [] := by
  refine List.eq_nil_iff_forall_not_mem.2 fun m hm => hd ?_
  simpa using h.occurs m hm

/-- Where nothing occurs there is no match. -/
theorem nil (hfree : ¬d <:+: l) : Scan d l [] :=
  ⟨by simp, .nil, fun n hn => absurd (hn.isInfix.trans (List.drop_suffix n l).isInfix) hfree⟩

/-- The first match is the one at a first occurrence, the others are those behind it. -/
theorem cut (hp : First d p) (h : Scan d l ms) :
    Scan d (p ++ d ++ l) (p.length :: ms.map (· + (p.length + d.length))) := by
  have hdrop : ∀ n, (p ++ d ++ l).drop (n + (p.length + d.length)) = l.drop n := by
    intro n
    have hlen : n + (p.length + d.length) = (p ++ d).length + n := by
      rw [List.length_append]
      omega
    rw [hlen, ← List.drop_drop, List.drop_left]
  refine ⟨?_, ?_, fun n hn => ?_⟩
  · refine List.forall_mem_cons.2 ⟨⟨l, by simp⟩, fun m hm => ?_⟩
    obtain ⟨k, hk, rfl⟩ := List.mem_map.1 hm
    rw [hdrop]
    exact h.occurs k hk
  · refine List.pairwise_cons.2 ⟨fun m hm => ?_, List.pairwise_map.2 ?_⟩
    · obtain ⟨m, -, rfl⟩ := List.mem_map.1 hm
      omega
    · exact h.apart.imp fun {m n} hmn => by omega
  · rcases Nat.lt_or_ge n (p.length + d.length) with hlt | hge
    · refine ⟨p.length, by simp, ?_, hlt⟩
      by_contra hless
      exact hp.not_prefix_drop (by omega) l hn
    · obtain ⟨k, rfl⟩ := Nat.exists_eq_add_of_le' hge
      rw [hdrop] at hn
      obtain ⟨m, hm, hle, hlt⟩ := h.leftmost k hn
      exact ⟨_, List.mem_cons_of_mem _ (List.mem_map_of_mem hm), by omega, by omega⟩

end Scan

/-! ## The matches of a split text -/

theorem exists_scan (hd : d ≠ []) (l : List α) : ∃ ms, Scan d l ms := by
  obtain ⟨ps, hps⟩ := exists_splits hd l
  induction hps with
  | nil => exact ⟨[], .nil (by simpa using hd)⟩
  | last _ hfree => exact ⟨[], .nil hfree⟩
  | cut hp _ ih =>
    obtain ⟨ms, hms⟩ := ih
    exact ⟨_, hms.cut hp⟩

/-- The last match behind a cut is the cut itself if nothing follows. -/
theorem endsInMatch_cut (h : Scan d l ms) (hd : d ≠ []) :
    EndsInMatch d (p ++ d ++ l) (p.length :: ms.map (· + (p.length + d.length))) ↔
      l = [] ∨ EndsInMatch d l ms := by
  have hlen : (p ++ d ++ l).length = p.length + d.length + l.length := by
    rw [List.length_append, List.length_append]
  rw [EndsInMatch, EndsInMatch, hlen]
  rcases List.eq_nil_or_concat' ms with rfl | ⟨ms, m, rfl⟩
  · simp
  · have hl : l ≠ [] := by
      rintro rfl
      simpa using h.eq_nil hd
    rw [List.map_append, List.map_singleton, ← List.cons_append]
    simp only [List.getLast?_concat, Option.mem_some_iff, exists_eq_left', hl, false_or]
    omega

/-- A delimiter at the very end of a text is not in the join of its pieces exactly if it is
the last match. -/
theorem Splits.intercalate_append_iff (h : Splits d l ps) (hd : d ≠ []) (hs : Scan d l ms) :
    l = d.intercalate ps ++ d ↔ EndsInMatch d l ms := by
  induction h generalizing ms with
  | nil => simp [hs.eq_nil hd, EndsInMatch, hd]
  | last _ hfree =>
    obtain rfl := hs.unique hd (.nil hfree)
    simp [EndsInMatch, hd]
  | @cut p l ps hp hrest ih =>
    obtain ⟨ns, hns⟩ := exists_scan hd l
    obtain rfl := hs.unique hd (hns.cut hp)
    rw [endsInMatch_cut hns hd, ← ih hns]
    cases ps with
    | nil =>
      cases hrest
      simp
    | cons q qs =>
      have hl : l ≠ [] := by
        rintro rfl
        simpa using hrest.unique .nil
      rw [List.intercalate_cons_cons, List.append_assoc (p ++ d), List.append_cancel_left_eq]
      simp [hl]

end Delimited
