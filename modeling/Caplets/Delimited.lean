import Mathlib.Data.List.Infix
import Mathlib.Tactic.Common

/-!
# Text cut at a delimiter

A list is cut at the leftmost occurrence of a delimiter `d`, then the rest is cut the
same way, and an empty last piece is dropped. `Splits d l ps` says that this leaves the
pieces `ps` of `l`. It is a function of `l` (`Splits.unique`), defined for every
non-empty delimiter (`exists_splits`).

The delimiter may overlap itself, so a piece and the delimiter after it can contain an
earlier occurrence. `First d p` says that they do not. It is what a printer has to
establish for every piece but the last (`splits_intercalate`), and what a splitter gives
back (`Splits.first_of_mem_dropLast`). For a delimiter of one letter both are the
absence of the letter (`first_singleton`).
-/

namespace Delimited

variable {α : Type*}

/-! ## Occurrences -/

/-- No occurrence of `d` in `p ++ d` starts before the one at the end. -/
def First (d p : List α) : Prop :=
  ¬d <:+: p ++ d.dropLast

instance [DecidableEq α] (d p : List α) : Decidable (First d p) :=
  inferInstanceAs (Decidable (¬d <:+: p ++ d.dropLast))

theorem First.ne_nil {d p : List α} (h : First d p) : d ≠ [] := by
  rintro rfl
  exact h List.nil_infix

theorem First.free {d p : List α} (h : First d p) : ¬d <:+: p := fun hp =>
  h (List.infix_append_of_infix_left hp)

theorem first_nil {d : List α} (hd : d ≠ []) : First d [] := by
  intro h
  have hle := h.length_le
  have hpos := List.length_pos_iff.2 hd
  simp only [List.nil_append, List.length_dropLast] at hle
  omega

theorem singleton_infix_iff {a : α} {p : List α} : [a] <:+: p ↔ a ∈ p := by
  constructor
  · exact fun h => h.mem (by simp)
  · intro h
    obtain ⟨s, t, rfl⟩ := List.append_of_mem h
    exact ⟨s, t, by simp⟩

@[simp] theorem first_singleton {a : α} {p : List α} : First [a] p ↔ a ∉ p := by
  simp [First, singleton_infix_iff]

theorem First.tail {d p : List α} {a : α} (h : First d (a :: p)) : First d p := fun hp =>
  h (by simpa using List.infix_cons hp)

theorem append_dropLast_prefix (d p l : List α) : p ++ d.dropLast <+: p ++ (d ++ l) :=
  (List.prefix_append_right_inj p).2 ((List.dropLast_prefix d).trans (List.prefix_append d l))

/-- `d` starts nowhere in `p`, whatever follows `p ++ d`. -/
theorem First.not_prefix_append {d p : List α} {a : α} (h : First d (a :: p)) (l : List α) :
    ¬d <+: a :: p ++ (d ++ l) := by
  intro hpre
  have hshort : a :: p ++ d.dropLast <+: a :: p ++ (d ++ l) := append_dropLast_prefix d (a :: p) l
  have hlen : d.length ≤ (a :: p ++ d.dropLast).length := by
    simp only [List.length_append, List.length_cons, List.length_dropLast]
    omega
  exact h (List.prefix_of_prefix_length_le hpre hshort hlen).isInfix

section Find

variable [DecidableEq α]

/-- The position of the leftmost occurrence of `d`. -/
def find? (d : List α) : List α → Option ℕ
  | [] => if d = [] then some 0 else none
  | a :: l => if d.isPrefixOf (a :: l) then some 0 else (find? d l).map (· + 1)

theorem find?_eq_none {d l : List α} : find? d l = none ↔ ¬d <:+: l := by
  induction l with
  | nil => simp [find?]
  | cons a l ih =>
    simp only [find?, List.isPrefixOf_iff_prefix, List.infix_cons_iff, not_or]
    split_ifs with h
    · simp [h]
    · simp [h, ih]

theorem find?_append {d p : List α} (h : First d p) (l : List α) :
    find? d (p ++ d ++ l) = some p.length := by
  induction p with
  | nil =>
    obtain ⟨a, d', rfl⟩ := List.exists_cons_of_ne_nil h.ne_nil
    simp [find?]
  | cons a p ih =>
    have hno := h.not_prefix_append l
    have hrest := ih h.tail
    simp only [List.append_assoc, List.cons_append] at hno hrest ⊢
    simp [find?, hno, hrest]

theorem exists_of_find? {d : List α} (hd : d ≠ []) :
    ∀ {l : List α} {n : ℕ}, find? d l = some n →
      ∃ p r, l = p ++ d ++ r ∧ p.length = n ∧ First d p
  | [], n, h => by simp [find?, hd] at h
  | a :: l, n, h => by
    simp only [find?, List.isPrefixOf_iff_prefix] at h
    split_ifs at h with hpre
    · obtain ⟨r, hr⟩ := hpre
      obtain rfl : 0 = n := by simpa using h
      exact ⟨[], r, by simp [hr], rfl, first_nil hd⟩
    · obtain ⟨m, hm, rfl⟩ := Option.map_eq_some_iff.1 h
      obtain ⟨p, r, rfl, rfl, hp⟩ := exists_of_find? hd hm
      refine ⟨a :: p, r, by simp, by simp, fun hin => ?_⟩
      rcases List.infix_cons_iff.1 hin with hin | hin
      · refine hpre (hin.trans ?_)
        simpa using append_dropLast_prefix d (a :: p) r
      · exact hp hin

end Find

/-- The cut at a first occurrence is determined by the text. -/
theorem cut_inj {d p q l m : List α} (hp : First d p) (hq : First d q)
    (h : p ++ d ++ l = q ++ d ++ m) : p = q ∧ l = m := by
  classical
  have hlen : p.length = q.length := by
    have hfind := find?_append hp l
    rw [h, find?_append hq m] at hfind
    exact (Option.some.inj hfind).symm
  simp only [List.append_assoc] at h
  obtain ⟨rfl, hrest⟩ := List.append_inj h hlen
  exact ⟨rfl, (List.append_inj hrest rfl).2⟩

/-! ## Pieces -/

/-- The pieces of a text cut at the leftmost `d`, then at the leftmost `d` of the rest,
and so on. An empty last piece is dropped. -/
inductive Splits (d : List α) : List α → List (List α) → Prop
  | nil : Splits d [] []
  | last {p : List α} : p ≠ [] → ¬d <:+: p → Splits d p [p]
  | cut {p l : List α} {ps : List (List α)} :
      First d p → Splits d l ps → Splits d (p ++ d ++ l) (p :: ps)

theorem exists_splits {d : List α} (hd : d ≠ []) (l : List α) : ∃ ps, Splits d l ps := by
  classical
  induction hn : l.length using Nat.strong_induction_on generalizing l with
  | _ n ih =>
    cases hf : find? d l with
    | none =>
      rcases eq_or_ne l [] with rfl | hl
      · exact ⟨[], .nil⟩
      · exact ⟨[l], .last hl (find?_eq_none.1 hf)⟩
    | some k =>
      obtain ⟨p, r, rfl, -, hp⟩ := exists_of_find? hd hf
      have hpos := List.length_pos_iff.2 hd
      obtain ⟨ps, hps⟩ := ih r.length (by simp at hn; omega) r rfl
      exact ⟨p :: ps, .cut hp hps⟩

theorem infix_cut (d p l : List α) : d <:+: p ++ d ++ l :=
  ⟨p, l, rfl⟩

theorem Splits.unique {d l : List α} {ps qs : List (List α)} (hp : Splits d l ps)
    (hq : Splits d l qs) : ps = qs := by
  induction hp generalizing qs with
  | nil =>
    generalize hl : ([] : List α) = l at hq
    cases hq with
    | nil => rfl
    | last hne _ => exact absurd hl.symm hne
    | cut hfirst _ => simp [hfirst.ne_nil] at hl
  | last hne hfree =>
    cases hq with
    | nil => exact absurd rfl hne
    | last _ _ => rfl
    | cut _ _ => exact absurd (infix_cut _ _ _) hfree
  | @cut p r ps hfirst _ ih =>
    generalize hl : p ++ d ++ r = l at hq
    cases hq with
    | nil => simp [hfirst.ne_nil] at hl
    | last _ hfree => exact absurd (hl ▸ infix_cut _ _ _) hfree
    | cut hfirst' hrest =>
      obtain ⟨rfl, rfl⟩ := cut_inj hfirst hfirst' hl
      rw [ih hrest]

namespace Splits

variable {d l : List α} {ps : List (List α)}

theorem ne_nil (h : Splits d l ps) (hl : l ≠ []) : ps ≠ [] := by
  cases h <;> simp_all

theorem infix_of_mem (h : Splits d l ps) : ∀ p ∈ ps, p <:+: l := by
  induction h with
  | nil => simp
  | last => simp
  | @cut p r ps _ _ ih =>
    intro q hq
    rcases List.mem_cons.1 hq with rfl | hq
    · exact ⟨[], d ++ r, by simp⟩
    · exact List.infix_append_of_infix_right (ih q hq)

theorem free_of_mem (h : Splits d l ps) : ∀ p ∈ ps, ¬d <:+: p := by
  induction h with
  | nil => simp
  | last _ hfree => simpa using hfree
  | cut hfirst _ ih => simpa using ⟨hfirst.free, ih⟩

theorem first_of_mem_dropLast (h : Splits d l ps) : ∀ p ∈ ps.dropLast, First d p := by
  induction h with
  | nil => simp
  | last => simp
  | @cut p r ps hfirst _ ih =>
    cases ps with
    | nil => simp
    | cons q qs => simpa using ⟨hfirst, ih⟩

theorem eq_nil_cons (h : Splits d (d ++ l) ps) (hd : d ≠ []) : ∃ qs, ps = [] :: qs := by
  obtain ⟨qs, hqs⟩ := exists_splits hd l
  exact ⟨qs, h.unique (by simpa using Splits.cut (first_nil hd) hqs)⟩

theorem eq_cons_of_first {p : List α} (h : Splits d (p ++ d ++ l) ps) (hp : First d p) :
    ∃ qs, ps = p :: qs ∧ Splits d l qs := by
  obtain ⟨qs, hqs⟩ := exists_splits hp.ne_nil l
  exact ⟨qs, h.unique (.cut hp hqs), hqs⟩

theorem eq_singleton (h : Splits d l ps) (hl : l ≠ []) (hfree : ¬d <:+: l) : ps = [l] :=
  h.unique (.last hl hfree)

/-- Joining the pieces gives the text back, but for a delimiter at its very end. -/
theorem intercalate_eq (h : Splits d l ps) :
    l = d.intercalate ps ∨ l = d.intercalate ps ++ d := by
  induction h with
  | nil => simp
  | last => simp
  | @cut p r ps _ hrest ih =>
    cases ps with
    | nil =>
      have hr : r = [] := by
        by_contra hr
        exact hrest.ne_nil hr rfl
      exact Or.inr (by simp [hr])
    | cons q qs =>
      rcases ih with ih | ih
      · exact Or.inl (by rw [List.intercalate_cons_cons, List.append_assoc p d, ← ih]; simp)
      · exact Or.inr (by
          rw [List.intercalate_cons_cons, List.append_assoc, List.append_assoc, ← ih]
          simp)

end Splits

/-- Pieces that each end before any earlier delimiter, the last one non-empty and free of
the delimiter, are what splitting their join gives back. -/
theorem splits_intercalate {d : List α} :
    ∀ {ps : List (List α)}, (∀ p ∈ ps.dropLast, First d p) →
      (∀ p ∈ ps.getLast?, p ≠ [] ∧ ¬d <:+: p) → Splits d (d.intercalate ps) ps
  | [], _, _ => .nil
  | [p], _, hlast => by
    obtain ⟨hne, hfree⟩ := hlast p (by simp)
    simpa using Splits.last hne hfree
  | p :: q :: ps, hfirst, hlast => by
    rw [List.intercalate_cons_cons]
    refine .cut (hfirst p (by simp)) (splits_intercalate (fun r hr => ?_) (fun r hr => ?_))
    · exact hfirst r (by simp [hr])
    · exact hlast r (by simpa using hr)

/-- Nothing else is given back. -/
theorem splits_intercalate_iff {d : List α} (hd : d ≠ []) {ps : List (List α)} :
    Splits d (d.intercalate ps) ps ↔
      (∀ p ∈ ps.dropLast, First d p) ∧ ∀ p ∈ ps.getLast?, p ≠ [] ∧ ¬d <:+: p := by
  refine ⟨fun h => ⟨h.first_of_mem_dropLast, ?_⟩, fun h => splits_intercalate h.1 h.2⟩
  induction ps with
  | nil => simp
  | cons p ps ih =>
    cases ps with
    | nil =>
      generalize hl : d.intercalate [p] = l at h
      rw [List.intercalate_singleton] at hl
      cases h with
      | last hne hfree => simpa using ⟨hne, hfree⟩
      | cut hfirst hrest =>
        have hlen := congrArg List.length hl
        have hpos := List.length_pos_iff.2 hd
        simp only [List.length_append] at hlen
        omega
    | cons q ps =>
      generalize hl : d.intercalate (p :: q :: ps) = l at h
      rw [List.intercalate_cons_cons] at hl
      cases h with
      | cut hfirst hrest =>
        obtain rfl := (List.append_cancel_left hl : _)
        simpa using ih hrest

/-- For a delimiter of one letter no piece may contain the letter, and the last one must not be
empty. -/
theorem splits_intercalate_singleton {a : α} {ps : List (List α)} (hfree : ∀ p ∈ ps, a ∉ p)
    (hlast : ∀ p ∈ ps.getLast?, p ≠ []) : Splits [a] ([a].intercalate ps) ps := by
  refine splits_intercalate
    (fun p hp => first_singleton.2 (hfree p (List.mem_of_mem_dropLast hp))) fun p hp => ?_
  rw [singleton_infix_iff]
  exact ⟨hlast p hp, hfree p (List.mem_of_getLast? hp)⟩

theorem suffix_intercalate (d p : List α) (ps : List (List α)) :
    p <:+ d.intercalate (ps ++ [p]) := by
  induction ps with
  | nil => simp
  | cons q ps ih =>
    cases ps with
    | nil => exact ⟨q ++ d, by simp⟩
    | cons r ps =>
      rw [List.cons_append, List.cons_append, List.intercalate_cons_cons]
      exact ih.trans (List.suffix_append _ _)

/-- Terminated pieces in front of a text are its first pieces. -/
theorem Splits.terminated_append {d l : List α} {qs : List (List α)} (h : Splits d l qs) :
    ∀ {ps : List (List α)}, (∀ p ∈ ps, First d p) →
      Splits d ((ps.map (· ++ d)).flatten ++ l) (ps ++ qs)
  | [], _ => by simpa using h
  | p :: ps, hfirst => by
    have hfirst' : ∀ q ∈ ps, First d q := fun q hq => hfirst q (by simp [hq])
    simpa using Splits.cut (hfirst p (by simp)) (h.terminated_append hfirst')

/-! ## Joining -/

theorem intercalate_cons_eq (d p : List α) (ps : List (List α)) :
    d.intercalate (p :: ps) = p ++ ps.flatMap (d ++ ·) := by
  induction ps generalizing p with
  | nil => simp
  | cons q ps ih =>
    rw [List.intercalate_cons_cons, ih, List.flatMap_cons]
    simp

theorem flatMap_cons_eq (d p : List α) (ps : List (List α)) :
    (p :: ps).flatMap (d ++ ·) = d ++ d.intercalate (p :: ps) := by
  rw [intercalate_cons_eq, List.flatMap_cons, List.append_assoc]

theorem intercalate_append {d : List α} {ps : List (List α)} (hps : ps ≠ []) (qs : List (List α)) :
    d.intercalate (ps ++ qs) = d.intercalate ps ++ qs.flatMap (d ++ ·) := by
  obtain ⟨p, ps, rfl⟩ := List.exists_cons_of_ne_nil hps
  rw [List.cons_append, intercalate_cons_eq, intercalate_cons_eq, List.flatMap_append,
    List.append_assoc]

/-- Every piece but the last is followed by a delimiter. -/
theorem intercalate_concat (d p : List α) :
    ∀ ps : List (List α), d.intercalate (ps ++ [p]) = (ps.map (· ++ d)).flatten ++ p
  | [] => by simp
  | [q] => by simp
  | q :: r :: ps => by
    have ih := intercalate_concat d p (r :: ps)
    rw [List.cons_append] at ih
    rw [List.cons_append, List.cons_append, List.intercalate_cons_cons, ih,
      List.map_cons (l := r :: ps), List.flatten_cons, List.append_assoc (q ++ d)]

theorem splits_intercalate_append_nil {d : List α} {ps : List (List α)}
    (h : ∀ p ∈ ps, First d p) : Splits d (d.intercalate (ps ++ [[]])) ps := by
  rw [intercalate_concat]
  simpa using Splits.nil.terminated_append h

/-- The pieces of two texts with the delimiter between them, if no piece of the first one
hides it. -/
theorem Splits.append {d l m : List α} {ps qs : List (List α)} (h : Splits d l ps) (hl : l ≠ [])
    (hend : ¬d <:+ l) (hlast : ∀ p ∈ ps.getLast?, First d p) (hm : Splits d m qs) :
    Splits d (l ++ d ++ m) (ps ++ qs) := by
  have hjoin : l = d.intercalate ps := h.intercalate_eq.resolve_right fun heq =>
    hend (heq ▸ List.suffix_append _ _)
  have hfirst : ∀ p ∈ ps, First d p := by
    obtain ⟨ps, p, rfl⟩ := (List.eq_nil_or_concat' ps).resolve_left (h.ne_nil hl)
    intro q hq
    rcases List.mem_append.1 hq with hq | hq
    · exact h.first_of_mem_dropLast q (by simpa using hq)
    · obtain rfl := List.mem_singleton.1 hq
      exact hlast q (by simp)
  have hterm : l ++ d = (ps.map (· ++ d)).flatten := by
    have hconcat := intercalate_concat d [] ps
    rw [intercalate_append (h.ne_nil hl), ← hjoin] at hconcat
    simpa using hconcat
  rw [hterm]
  exact hm.terminated_append hfirst

theorem infix_intercalate_of_mem {d p : List α} :
    ∀ {ps : List (List α)}, p ∈ ps → p <:+: d.intercalate ps
  | [q], h => by
    rw [List.mem_singleton.1 h]
    simp
  | q :: r :: ps, h => by
    rw [List.intercalate_cons_cons]
    rcases List.mem_cons.1 h with rfl | h
    · exact ⟨[], d ++ d.intercalate (r :: ps), by simp⟩
    · exact List.infix_append_of_infix_right (infix_intercalate_of_mem h)

/-- The cut at a first occurrence leaves everything behind any other occurrence. -/
theorem exists_append_of_cut {d p l a m : List α} (hp : First d p)
    (h : p ++ d ++ l = a ++ d ++ m) : ∃ w, l = w ++ m := by
  have hle : p.length ≤ a.length := by
    by_contra hlt
    have hpos := List.length_pos_iff.2 hp.ne_nil
    have hshort : p ++ d.dropLast <+: a ++ d ++ m := by
      rw [← h, List.append_assoc]
      exact append_dropLast_prefix d p l
    have hlen : (a ++ d).length ≤ (p ++ d.dropLast).length := by
      simp only [List.length_append, List.length_dropLast]
      omega
    have hpre := List.prefix_of_prefix_length_le (List.prefix_append (a ++ d) m) hshort hlen
    exact hp ((List.suffix_append a d).isInfix.trans hpre.isInfix)
  have hlen := congrArg List.length h
  simp only [List.length_append] at hlen
  have hl : l <:+ a ++ d ++ m := h ▸ List.suffix_append _ _
  obtain ⟨w, hw⟩ := List.suffix_of_suffix_length_le (List.suffix_append (a ++ d) m) hl (by omega)
  exact ⟨w, hw.symm⟩

/-- Texts with the delimiter between them are cut into at least as many pieces, if the last
one is not empty. -/
theorem Splits.length_le {d l : List α} {qs : List (List α)} (h : Splits d l qs) :
    ∀ {w : List α} {ps : List (List α)}, l = w ++ d.intercalate ps →
      (∀ p ∈ ps.getLast?, p ≠ []) → ps.length ≤ qs.length := by
  have hone : ∀ {w : List α} {ps : List (List α)}, (∀ p ∈ ps.getLast?, p ≠ []) →
      ps ≠ [] → w ++ d.intercalate ps ≠ [] := by
    intro w ps hlast hps h0
    obtain ⟨rs, p, rfl⟩ := (List.eq_nil_or_concat' ps).resolve_left hps
    have hsuffix := suffix_intercalate d p rs
    rw [(List.append_eq_nil_iff.1 h0).2, List.suffix_nil] at hsuffix
    exact hlast p (by simp) hsuffix
  induction h with
  | nil =>
    intro w ps heq hlast
    by_contra hlen
    refine hone hlast (fun h0 => ?_) heq.symm
    simp [h0] at hlen
  | last _ hfree =>
    intro w ps heq _
    rcases ps with _ | ⟨r, _ | ⟨r', ps⟩⟩
    · simp
    · simp
    · refine absurd ?_ hfree
      rw [heq, List.intercalate_cons_cons, ← List.append_assoc, ← List.append_assoc]
      exact infix_cut _ _ _
  | @cut p l qs hfirst _ ih =>
    intro w ps heq hlast
    rcases ps with _ | ⟨r, _ | ⟨r', ps⟩⟩
    · simp
    · simp
    · rw [List.intercalate_cons_cons, ← List.append_assoc, ← List.append_assoc] at heq
      obtain ⟨w', hw'⟩ := exists_append_of_cut hfirst heq
      have hrest := ih hw' (by simpa using hlast)
      rw [List.length_cons, List.length_cons]
      exact Nat.succ_le_succ hrest

/-- A text without the letter `a` lies in a joined text only if it lies in one piece. -/
theorem infix_of_infix_append {d l r : List α} {a : α} (ha : a ∉ d)
    (h : d <:+: l ++ a :: r) : d <:+: l ∨ d <:+: r := by
  rcases List.infix_append_iff.1 h with h | h | ⟨d₁, d₂, rfl, h₁, h₂⟩
  · exact Or.inl h
  · rcases List.infix_cons_iff.1 h with h | h
    · cases d with
      | nil => exact Or.inl List.nil_infix
      | cons b d =>
        obtain ⟨rfl, -⟩ := List.cons_prefix_cons.1 h
        exact absurd (by simp) ha
    · exact Or.inr h
  · cases d₂ with
    | nil => exact Or.inl (by simpa using h₁.isInfix)
    | cons b d₂ =>
      obtain ⟨rfl, -⟩ := List.cons_prefix_cons.1 h₂
      exact absurd (by simp) ha

/-- The same for a delimiter with the letter at both ends. -/
theorem infix_of_infix_enclosed {d e l r : List α} {a : α} (ha : a ∉ d) (he : ¬d <:+: e)
    (h : d <:+: l ++ (a :: e ++ [a]) ++ r) : d <:+: l ∨ d <:+: r := by
  have hcut : l ++ (a :: e ++ [a]) ++ r = l ++ a :: (e ++ a :: r) := by simp
  rw [hcut] at h
  rcases infix_of_infix_append ha h with h | h
  · exact Or.inl h
  · exact Or.inr ((infix_of_infix_append ha h).resolve_left he)

/-- A text that lies on one side of every delimiter lies in one of the joined pieces. -/
theorem exists_infix_of_infix_join {d k : List α} (hk : k ≠ [])
    (hcut : ∀ l r, k <:+: l ++ d ++ r → k <:+: l ∨ k <:+: r) :
    ∀ {ps : List (List α)}, k <:+: d.intercalate ps → ∃ p ∈ ps, k <:+: p
  | [], h => absurd (List.infix_nil.1 (by simpa using h)) hk
  | [p], h => ⟨p, by simp, by simpa using h⟩
  | p :: q :: ps, h => by
    rw [List.intercalate_cons_cons] at h
    rcases hcut _ _ h with h | h
    · exact ⟨p, by simp, h⟩
    · obtain ⟨r, hr, hin⟩ := exists_infix_of_infix_join hk hcut h
      exact ⟨r, by simp [hr], hin⟩

theorem exists_infix_of_infix_intercalate {d : List α} {a : α} (hd : d ≠ []) (ha : a ∉ d)
    {ps : List (List α)} (h : d <:+: [a].intercalate ps) : ∃ p ∈ ps, d <:+: p :=
  exists_infix_of_infix_join hd (fun _ _ h => infix_of_infix_append ha (by simpa using h)) h

/-- A text without the letter at the end of a join lies at the end of the last piece. -/
theorem exists_of_intercalate_eq_append {a : α} {q e l : List α} {ps : List (List α)}
    (he : a ∉ e) (h : [a].intercalate (ps ++ [l]) = q ++ e) :
    ∃ l₀, l = l₀ ++ e ∧ q = [a].intercalate (ps ++ [l₀]) := by
  rcases eq_or_ne ps [] with rfl | hps
  · exact ⟨q, by simpa using h, by simp⟩
  · rw [intercalate_append hps] at h
    rw [List.flatMap_singleton, List.singleton_append] at h
    rcases List.append_eq_append_iff.1 h with ⟨q', hq, hl⟩ | ⟨e', -, he'⟩
    · cases q' with
      | nil => exact absurd (by simp at hl; simp [← hl]) he
      | cons b l₀ =>
        obtain ⟨rfl, rfl⟩ := List.cons_eq_cons.1 hl
        refine ⟨l₀, rfl, ?_⟩
        rw [intercalate_append hps, hq, List.flatMap_singleton, List.singleton_append]
    · exact absurd (by simp [he']) he

/-- Pieces free of a letter can be told apart in their join. -/
theorem intercalate_singleton_inj [DecidableEq α] {a : α} {ps qs : List (List α)}
    (hps : ∀ p ∈ ps, a ∉ p) (hqs : ∀ q ∈ qs, a ∉ q) (hp : ps ≠ []) (hq : qs ≠ [])
    (h : [a].intercalate ps = [a].intercalate qs) : ps = qs := by
  rw [← List.splitOn_intercalate a hps hp, h, List.splitOn_intercalate a hqs hq]

/-- The same for pieces that each have the letter in front. -/
theorem flatMap_singleton_inj [DecidableEq α] {a : α} :
    ∀ {ps qs : List (List α)}, (∀ p ∈ ps, a ∉ p) → (∀ q ∈ qs, a ∉ q) →
      ps.flatMap ([a] ++ ·) = qs.flatMap ([a] ++ ·) → ps = qs
  | [], [], _, _, _ => rfl
  | [], _ :: _, _, _, h => by simp at h
  | _ :: _, [], _, _, h => by simp at h
  | p :: ps, q :: qs, hps, hqs, h => by
    rw [flatMap_cons_eq, flatMap_cons_eq] at h
    exact intercalate_singleton_inj hps hqs (by simp) (by simp) (List.append_cancel_left h)

/-- Two lists that start with all their values of one kind are cut at the same place. -/
theorem append_inj_of_forall {P : α → Prop} {xs xs' ys ys' : List α} (hxs : ∀ x ∈ xs, P x)
    (hxs' : ∀ x ∈ xs', P x) (hys : ∀ y ∈ ys, ¬P y) (hys' : ∀ y ∈ ys', ¬P y)
    (h : xs ++ ys = xs' ++ ys') : xs = xs' ∧ ys = ys' := by
  classical
  have hkeep : ∀ us vs : List α, (∀ x ∈ us, P x) → (∀ y ∈ vs, ¬P y) →
      (us ++ vs).filter (fun x => decide (P x)) = us := by
    intro us vs hus hvs
    rw [List.filter_append, List.filter_eq_self.2 (by simpa using hus),
      List.filter_eq_nil_iff.2 (by simpa using hvs), List.append_nil]
  obtain rfl : xs = xs' := by rw [← hkeep xs ys hxs hys, h, hkeep xs' ys' hxs' hys']
  exact ⟨rfl, List.append_cancel_left h⟩

theorem map_inj_of_forall {β : Type*} {f : α → β} {P : α → Prop}
    (hf : ∀ x y, P x → P y → f x = f y → x = y) :
    ∀ {xs ys : List α}, (∀ x ∈ xs, P x) → (∀ y ∈ ys, P y) → xs.map f = ys.map f → xs = ys
  | [], [], _, _, _ => rfl
  | x :: xs, y :: ys, hxs, hys, h => by
    simp only [List.map_cons, List.cons.injEq] at h
    rw [hf x y (hxs x (by simp)) (hys y (by simp)) h.1,
      map_inj_of_forall hf (fun z hz => hxs z (by simp [hz]))
        (fun z hz => hys z (by simp [hz])) h.2]

end Delimited
