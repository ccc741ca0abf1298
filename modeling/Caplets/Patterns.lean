import Mathlib.Data.Fintype.EquivFin
import Mathlib.Data.List.Basic
import Mathlib.Tactic.Common

/-!
# Patterns with a wildcard

Patterns are lists of components, one value `w` of which stands for any component.
`Agree w a b` compares `a` with the pattern `b` component by component and stops at the
end of the shorter one. It is not transitive : a short pattern in the middle hides the
components of the last one that it does not reach.

`Within w named b c` repairs this. It asks for a wildcard wherever `c` goes on after the
end of `b`, so what agrees with `b` agrees with `c` (`agree_of_within`). The components
that can be asked for may be limited to those that satisfy `named`. Nothing then reaches
past a component of `b` that does not, and what `c` holds there is free.

The condition is exact. `generic` is a list of named components that agrees with `b` and
with no pattern outside `Within` (`within_of_agree_generic`), so a finite set of patterns
covers everything that agrees with `b` only if one of them alone does.

`Covers w b a` is what a pattern is for : `a` reaches at least as far as `b` and agrees with
it. As a comparison of two patterns it is containment, if there are enough components
(`covers_iff_forall`).
-/

namespace Patterns

variable {α : Type*} (w : α) (named : α → Prop)

/-- Every component of the pattern `b` that `a` reaches is `w` or the one of `a`. -/
def Agree : List α → List α → Prop
  | [], _ => True
  | _ :: _, [] => True
  | x :: a, y :: b => (y = w ∨ x = y) ∧ Agree a b

/-- Every component of `c` is `w` or the one of `b`, up to the first component of `b` that
is not named. -/
def Within : List α → List α → Prop
  | _, [] => True
  | [], z :: c => z = w ∧ Within [] c
  | y :: b, z :: c => ¬named y ∨ (z = w ∨ y = z) ∧ Within b c

instance decidableWithin [DecidableEq α] [DecidablePred named] :
    ∀ b c : List α, Decidable (Within w named b c)
  | [], [] => .isTrue trivial
  | _ :: _, [] => .isTrue trivial
  | [], z :: c =>
    have := decidableWithin [] c
    inferInstanceAs (Decidable (z = w ∧ Within w named [] c))
  | y :: b, z :: c =>
    have := decidableWithin b c
    inferInstanceAs (Decidable (¬named y ∨ (z = w ∨ y = z) ∧ Within w named b c))

@[simp] theorem agree_nil_left (b : List α) : Agree w [] b := by
  simp [Agree]

@[simp] theorem agree_nil_right (a : List α) : Agree w a [] := by
  cases a <;> simp [Agree]

@[simp] theorem agree_cons {x y : α} {a b : List α} :
    Agree w (x :: a) (y :: b) ↔ (y = w ∨ x = y) ∧ Agree w a b :=
  Iff.rfl

@[simp] theorem within_nil (b : List α) : Within w named b [] := by
  cases b <;> simp [Within]

theorem agree_of_within_nil :
    ∀ {a c : List α}, Within w named [] c → Agree w a c
  | [], _, _ => agree_nil_left w _
  | _ :: _, [], _ => trivial
  | _ :: _, _ :: _, h => ⟨Or.inl h.1, agree_of_within_nil h.2⟩

/-- What agrees with `b` agrees with every pattern that `b` lies within. -/
theorem agree_of_within (hw : named w) :
    ∀ {a b c : List α}, (∀ x ∈ a, named x) → Agree w a b → Within w named b c → Agree w a c
  | [], _, _, _, _, _ => agree_nil_left w _
  | _ :: _, _, [], _, _, _ => trivial
  | _ :: _, [], _ :: _, _, _, h => agree_of_within_nil w named h
  | x :: a, y :: b, z :: c, hname, hab, hbc => by
    rcases hbc with hy | ⟨hz, hbc⟩
    · -- `x` would have to match a component that is neither `w` nor named
      rcases hab.1 with rfl | rfl
      · exact absurd hw hy
      · exact absurd (hname x (by simp)) hy
    · refine ⟨?_, agree_of_within hw (fun v hv => hname v (by simp [hv])) hab.2 hbc⟩
      rcases hz with rfl | rfl
      · exact Or.inl rfl
      · exact hab.1

theorem within_of_agree_replicate {x : α} :
    ∀ {n : ℕ} {c : List α}, x ∉ c → c.length ≤ n → Agree w (List.replicate n x) c →
      Within w named [] c
  | _, [], _, _, _ => within_nil w named []
  | 0, _ :: _, _, hn, _ => by simp at hn
  | n + 1, z :: c, hx, hn, h => by
    obtain ⟨hxz, hxc⟩ := not_or.1 (List.mem_cons.not.1 hx)
    rw [List.replicate_succ, agree_cons] at h
    exact ⟨h.1.resolve_right hxz, within_of_agree_replicate hxc (by simpa using hn) h.2⟩

section Generic

variable [DecidableEq α] [DecidablePred named]

/-- A list that agrees with `b` and commits to nothing else : `x` for every wildcard and
`n` more times after the end, cut at the first component that is not named. -/
def generic (x : α) (n : ℕ) : List α → List α
  | [] => List.replicate n x
  | y :: b => if named y then (if y = w then x else y) :: generic x n b else []

theorem mem_generic {x v : α} {n : ℕ} :
    ∀ {b : List α}, v ∈ generic w named x n b → v = x ∨ v ∈ b ∧ named v
  | [], h => Or.inl (List.eq_of_mem_replicate h)
  | y :: b, h => by
    unfold generic at h
    split_ifs at h with hn hy
    · rcases List.mem_cons.1 h with rfl | h
      · exact Or.inl rfl
      · exact (mem_generic h).imp_right fun hv => ⟨by simp [hv.1], hv.2⟩
    · rcases List.mem_cons.1 h with rfl | h
      · exact Or.inr ⟨by simp, hn⟩
      · exact (mem_generic h).imp_right fun hv => ⟨by simp [hv.1], hv.2⟩
    · simp at h

theorem agree_generic (x : α) (n : ℕ) : ∀ b : List α, Agree w (generic w named x n b) b
  | [] => agree_nil_right w _
  | y :: b => by
    unfold generic
    split_ifs with hn hy
    · exact ⟨Or.inl hy, agree_generic x n b⟩
    · exact ⟨Or.inr rfl, agree_generic x n b⟩
    · exact agree_nil_left w _

/-- Only patterns that `b` lies within agree with its generic list. -/
theorem within_of_agree_generic {x : α} {n : ℕ} :
    ∀ {b c : List α}, x ∉ c → c.length ≤ n → Agree w (generic w named x n b) c →
      Within w named b c
  | b, [], _, _, _ => within_nil w named b
  | [], z :: c, hx, hn, h => within_of_agree_replicate w named hx hn h
  | y :: b, z :: c, hx, hn, h => by
    obtain ⟨hxz, hxc⟩ := not_or.1 (List.mem_cons.not.1 hx)
    have hn' : c.length ≤ n := by
      simp only [List.length_cons] at hn
      omega
    unfold generic at h
    split_ifs at h with hname hy
    · exact Or.inr ⟨Or.inl (h.1.resolve_right hxz), within_of_agree_generic hxc hn' h.2⟩
    · exact Or.inr ⟨h.1, within_of_agree_generic hxc hn' h.2⟩
    · exact Or.inl hname

end Generic

/-! ## Containment -/

/-- The list `a` is at least as long as the pattern `b`, and every component of `b` is `w` or
the one of `a`. -/
def Covers : List α → List α → Prop
  | [], _ => True
  | _ :: _, [] => False
  | y :: b, x :: a => (y = w ∨ x = y) ∧ Covers b a

variable {w}

theorem agree_iff_zip : ∀ {a b : List α}, Agree w a b ↔ ∀ p ∈ a.zip b, p.2 = w ∨ p.1 = p.2
  | [], b => by simp
  | x :: a, [] => by simp
  | x :: a, y :: b => by
    rw [agree_cons, agree_iff_zip]
    simp

theorem covers_iff : ∀ {b a : List α}, Covers w b a ↔ b.length ≤ a.length ∧ Agree w a b
  | [], a => by simp [Covers]
  | y :: b, [] => by simp [Covers]
  | y :: b, x :: a => by
    rw [Covers, covers_iff, agree_cons, List.length_cons, List.length_cons, Nat.succ_le_succ_iff]
    tauto

theorem covers_trans : ∀ {c b a : List α}, Covers w c b → Covers w b a → Covers w c a
  | [], _, _, _, _ => trivial
  | _ :: _, y :: b, x :: a, hcb, hba => by
    refine ⟨?_, covers_trans hcb.2 hba.2⟩
    rcases hcb.1 with hz | rfl
    · exact Or.inl hz
    · exact hba.1

section Fresh

variable [DecidableEq α] {x : α}

theorem covers_map_replace (b : List α) : Covers w b (b.map fun y => if y = w then x else y) := by
  induction b with
  | nil => trivial
  | cons y b ih =>
    refine ⟨?_, ih⟩
    by_cases hy : y = w
    · exact Or.inl hy
    · exact Or.inr (if_neg hy)

/-- A component that `c` does not have stands for a wildcard. -/
theorem covers_of_covers_map_replace : ∀ {c b : List α}, x ∉ c →
    Covers w c (b.map fun y => if y = w then x else y) → Covers w c b
  | [], _, _, _ => trivial
  | z :: c, y :: b, hx, h => by
    obtain ⟨hxz, hxc⟩ := not_or.1 (List.mem_cons.not.1 hx)
    refine ⟨?_, covers_of_covers_map_replace hxc h.2⟩
    by_cases hy : y = w
    · refine Or.inl (h.1.resolve_right ?_)
      simpa [hy] using hxz
    · refine h.1.imp_right fun hyz => ?_
      simpa [hy] using hyz

end Fresh

/-- A pattern covers another one exactly if it covers every list without wildcards that the
other one covers. -/
theorem covers_iff_forall [Infinite α] {c b : List α} :
    Covers w c b ↔ ∀ a, w ∉ a → Covers w b a → Covers w c a := by
  classical
  refine ⟨fun hcb a _ hba => covers_trans hcb hba, fun h => ?_⟩
  obtain ⟨x, hx⟩ := Infinite.exists_notMem_finset (w :: c).toFinset
  obtain ⟨hxw, hxc⟩ : x ≠ w ∧ x ∉ c := by simpa using hx
  refine covers_of_covers_map_replace hxc (h _ (fun hw => ?_) (covers_map_replace b))
  obtain ⟨y, -, hy⟩ := List.mem_map.1 hw
  split_ifs at hy with hyw
  · exact hxw hy
  · exact hyw hy

end Patterns
