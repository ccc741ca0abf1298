import Caplets.Patterns
import Caplets.RoundTrip

/-!
# Paths and coverage

`is_path_subset_of_path` compares paths component by component with a wildcard and stops
at the end of the shorter one, so it is `Patterns.Agree` on their components
(`isPathSubsetOfPath_iff`). It is not transitive, and neither is `covered`.

It is not containment either : what `part` covers is covered by `full` if the comparison
succeeds and `full` does not go on after the end of `part`, and otherwise only if it fails
(`path_containment_iff`).

`CoversAll c p` is what has to hold of `p` for every request that `c` covers to be covered
by `p` (`covered_of_coversAll`). It cannot be weakened : `genericRequest` is a request that
`c` covers and `p` covers only then (`coversAll_of_covered_genericRequest`).
-/

namespace Caplets

open Delimited Patterns

/-- The components of a path, each up to its first NUL. -/
def components (path : Str) : List Str :=
  (splitString [] path ['/']).map cStr

/-- The loop compares the components that both paths have. -/
theorem pathLoop_iff : ∀ {part full : List Str},
    pathLoop part full = true ↔ Agree ['*'] (part.map cStr) (full.map cStr)
  | [], _ => by simp [pathLoop]
  | _ :: _, [] => by simp [pathLoop]
  | p :: part, f :: full => by
    have hstar : strcmpEq ['*'] f = true ↔ cStr f = ['*'] := by
      rw [strcmpEq_iff, eq_comm]
      rfl
    rw [List.map_cons, List.map_cons, agree_cons, ← pathLoop_iff, pathLoop]
    by_cases hf : cStr f = ['*']
    · rw [if_pos (hstar.2 hf)]
      simp [hf]
    · rw [if_neg (mt hstar.1 hf)]
      by_cases hp : cStr p = cStr f
      · rw [if_neg (by simpa using strcmpEq_iff.2 hp)]
        simp [hp]
      · have hfalse : strcmpEq p f = false := Bool.eq_false_iff.2 (mt strcmpEq_iff.1 hp)
        rw [if_pos (by simp [hfalse])]
        simp [hf, hp]

/-- `is_path_subset_of_path` : the components agree as far as both paths go. -/
theorem isPathSubsetOfPath_iff {part full : Str} :
    isPathSubsetOfPath part full = true ↔ Agree ['*'] (components part) (components full) :=
  pathLoop_iff

/-! ## Containment -/

/-- Somewhere both paths have a component and these differ, or `full` does not go on after
the end of `part` and its components are matched in all their characters. -/
def Comparable (part full : List Str) : Prop :=
  (∃ p ∈ part.zip full, cStr p.2 ≠ ['*'] ∧ cStr p.1 ≠ cStr p.2) ∨
    full.length ≤ part.length ∧ ∀ p ∈ part.zip full, p.2 = ['*'] ∨ p.1 = p.2

instance (part full : List Str) : Decidable (Comparable part full) :=
  inferInstanceAs (Decidable ((∃ p ∈ part.zip full, cStr p.2 ≠ ['*'] ∧ cStr p.1 ≠ cStr p.2) ∨
    full.length ≤ part.length ∧ ∀ p ∈ part.zip full, p.2 = ['*'] ∨ p.1 = p.2))

theorem isPathSubsetOfPath_iff_zip {part full : Str} : isPathSubsetOfPath part full = true ↔
    ∀ p ∈ (splitString [] part ['/']).zip (splitString [] full ['/']),
      cStr p.2 = ['*'] ∨ cStr p.1 = cStr p.2 := by
  rw [isPathSubsetOfPath_iff, components, components, agree_iff_zip, List.zip_map,
    List.forall_mem_map]
  rfl

theorem comparable_iff {part full : Str} :
    Comparable (splitString [] part ['/']) (splitString [] full ['/']) ↔
      (isPathSubsetOfPath part full = true →
        Covers ['*'] (splitString [] full ['/']) (splitString [] part ['/'])) := by
  have hdiffer : (∃ p ∈ (splitString [] part ['/']).zip (splitString [] full ['/']),
      cStr p.2 ≠ ['*'] ∧ cStr p.1 ≠ cStr p.2) ↔ ¬isPathSubsetOfPath part full = true := by
    simp only [isPathSubsetOfPath_iff_zip, not_forall, not_or, exists_prop, ne_eq]
  rw [Comparable, hdiffer, covers_iff, agree_iff_zip, imp_iff_not_or]

/-- What `full` contains is compared with success. -/
theorem isPathSubsetOfPath_of_covers {part full : Str}
    (h : Covers ['*'] (splitString [] full ['/']) (splitString [] part ['/'])) :
    isPathSubsetOfPath part full = true := by
  rw [covers_iff, agree_iff_zip] at h
  refine isPathSubsetOfPath_iff_zip.2 fun p hp => (h.2 p hp).imp (fun hstar => ?_) (congrArg cStr)
  rw [hstar]
  rfl

/-- The comparison decides whether every concrete path covered by `part` is covered by `full`,
exactly if the two paths are comparable. -/
theorem path_containment_iff (part full : Str) :
    (isPathSubsetOfPath part full = true ↔ ∀ path, ['*'] ∉ path →
      Covers ['*'] (splitString [] part ['/']) path →
        Covers ['*'] (splitString [] full ['/']) path) ↔
      Comparable (splitString [] part ['/']) (splitString [] full ['/']) := by
  rw [← covers_iff_forall, comparable_iff]
  exact ⟨Iff.mp, fun h => ⟨h, isPathSubsetOfPath_of_covers⟩⟩

/-- The comparison stops at the end of the shorter path, so `/a` passes for a part of
`/a/b`. -/
theorem not_path_containment : ¬∀ part full : Str,
    (isPathSubsetOfPath part full = true ↔ ∀ path, ['*'] ∉ path →
      Covers ['*'] (splitString [] part ['/']) path →
        Covers ['*'] (splitString [] full ['/']) path) := by
  intro h
  have hpart : splitString [] "/a".toList ['/'] = [[], ['a']] := by decide
  have hfull : splitString [] "/a/b".toList ['/'] = [[], ['a'], ['b']] := by decide
  have hcov := (h "/a".toList "/a/b".toList).1 (by decide) [[], ['a']] (by decide)
  rw [hpart, hfull] at hcov
  simp [Covers] at hcov

/-! ## Coverage -/

theorem isCapBitsValid_trans {a b c : BitVec 3} (hab : isCapBitsValid a b = true)
    (hbc : isCapBitsValid b c = true) : isCapBitsValid a c = true := by
  rw [isCapBitsValid, beq_iff_eq] at *
  rw [← hab, BitVec.and_assoc, hbc]

/-- `is_cap_subset_of_cap` compares types and bits. -/
theorem isCapSubsetOfCap_iff {part full : CapabilityStructure} :
    isCapSubsetOfCap part full = true ↔
      part.type = full.type ∧ isCapBitsValid part.capBits full.capBits = true := by
  unfold isCapSubsetOfCap
  split_ifs with h
  · simp [h]
  · simp [not_not.1 h]

theorem isCapSubsetOfCap_trans {a b c : CapabilityStructure} (hab : isCapSubsetOfCap a b = true)
    (hbc : isCapSubsetOfCap b c = true) : isCapSubsetOfCap a c = true := by
  rw [isCapSubsetOfCap_iff] at *
  exact ⟨hab.1.trans hbc.1, isCapBitsValid_trans hab.2 hbc.2⟩

/-- A capability is covered in path, type and bits. -/
theorem covered_iff {part full : CapabilityStructure} : covered part full = true ↔
    Agree ['*'] (components part.resource) (components full.resource) ∧
      isCapSubsetOfCap part full = true := by
  rw [covered, Bool.and_eq_true, isPathSubsetOfPath_iff]

/-- A component that a request can name. Its text ends at the next `:`. -/
def Nameable (x : Str) : Prop := ':' ∉ x

instance : DecidablePred Nameable :=
  fun x => inferInstanceAs (Decidable (':' ∉ x))

/-- The rights of `c` are rights of `p`, and every path in `c` that a request can name is a
path in `p`. -/
def CoversAll (c p : CapabilityStructure) : Prop :=
  isCapSubsetOfCap c p = true ∧
    Within ['*'] Nameable (components c.resource) (components p.resource)

instance (c p : CapabilityStructure) : Decidable (CoversAll c p) :=
  inferInstanceAs (Decidable (_ ∧ _))

theorem nameable_of_mem_components {path x : Str} (hpath : ':' ∉ path) (hx : x ∈ components path) :
    Nameable x := by
  obtain ⟨y, hy, rfl⟩ := List.mem_map.1 hx
  have hin := (splits_splitString (d := ['/']) (by simp) path).infix_of_mem y hy
  exact fun hc => hpath (((cStr_infix_self y).trans hin).subset hc)

/-- What `c` covers and can be named is covered by `p`. -/
theorem covered_of_coversAll {a c p : CapabilityStructure} (ha : ':' ∉ a.resource)
    (hac : covered a c = true) (hcp : CoversAll c p) : covered a p = true := by
  rw [covered_iff] at hac ⊢
  refine ⟨?_, isCapSubsetOfCap_trans hac.2 hcp.1⟩
  exact agree_of_within _ Nameable (by decide)
    (fun _ hx => nameable_of_mem_components ha hx) hac.1 hcp.2

/-! ## The generic request -/

/-- The path with the given components. -/
def pathOf (xs : List Str) : Str :=
  ['/'].intercalate (xs ++ [[]])

theorem components_pathOf {xs : List Str} (hslash : ∀ x ∈ xs, '/' ∉ x)
    (hnul : ∀ x ∈ xs, '\x00' ∉ x) : components (pathOf xs) = xs := by
  have hsplit : Splits ['/'] (pathOf xs) xs :=
    splits_intercalate_append_nil fun x hx => first_singleton.2 (hslash x hx)
  rw [components, splitString_eq hsplit (by simp), List.nil_append]
  exact (List.map_congr_left fun x hx => cStr_eq_self (hnul x hx)).trans (List.map_id xs)

/-- A text without `/` lies in a path only if it lies in one of its components. -/
theorem exists_infix_of_infix_pathOf {xs : List Str} {d : Str} (hd : d ≠ []) (hslash : '/' ∉ d)
    (h : d <:+: pathOf xs) : ∃ x ∈ xs, d <:+: x := by
  obtain ⟨x, hx, hin⟩ := exists_infix_of_infix_intercalate hd hslash h
  rcases List.mem_append.1 hx with hx | hx
  · exact ⟨x, hx, hin⟩
  · rw [List.mem_singleton.1 hx] at hin
    exact absurd (List.infix_nil.1 hin) hd

/-- A request for what `c` covers with `x` in the place of every wildcard and `n` more times
at the end. -/
def genericRequest (c : CapabilityStructure) (x : Str) (n : ℕ) : Request where
  capability := ⟨pathOf (generic ['*'] Nameable x n (components c.resource)), .deviceCap, c.capBits⟩
  handlerName := []
  value := []

section Generic

variable {c : CapabilityStructure} {x : Str} {n : ℕ}

theorem slash_nul_not_mem_of_mem_components {path y : Str} (hy : y ∈ components path) :
    '/' ∉ y ∧ '\x00' ∉ y := by
  obtain ⟨z, hz, rfl⟩ := List.mem_map.1 hy
  have hfree := (splits_splitString (d := ['/']) (by simp) path).free_of_mem z hz
  rw [singleton_infix_iff] at hfree
  exact ⟨fun h => hfree ((cStr_infix_self z).subset h), nul_not_mem_cStr z⟩

theorem components_genericRequest (hslash : '/' ∉ x) (hnul : '\x00' ∉ x) :
    components (genericRequest c x n).capability.resource =
      generic ['*'] Nameable x n (components c.resource) := by
  refine components_pathOf (fun y hy => ?_) fun y hy => ?_
  · rcases mem_generic _ _ hy with rfl | ⟨hy, -⟩
    · exact hslash
    · exact (slash_nul_not_mem_of_mem_components hy).1
  · rcases mem_generic _ _ hy with rfl | ⟨hy, -⟩
    · exact hnul
    · exact (slash_nul_not_mem_of_mem_components hy).2

theorem covered_genericRequest (hslash : '/' ∉ x) (hnul : '\x00' ∉ x) (hc : c.type = .deviceCap) :
    covered (genericRequest c x n).capability c = true := by
  rw [covered_iff, components_genericRequest hslash hnul, isCapSubsetOfCap_iff]
  refine ⟨agree_generic _ _ x n _, hc.symm, ?_⟩
  rw [isCapBitsValid, beq_iff_eq]
  exact BitVec.and_self

theorem coversAll_of_covered_genericRequest {p : CapabilityStructure} (hslash : '/' ∉ x)
    (hnul : '\x00' ∉ x) (hc : c.type = .deviceCap) (hx : x ∉ components p.resource)
    (hn : (components p.resource).length ≤ n)
    (h : covered (genericRequest c x n).capability p = true) : CoversAll c p := by
  rw [covered_iff, components_genericRequest hslash hnul] at h
  refine ⟨?_, within_of_agree_generic _ _ hx hn h.1⟩
  rw [isCapSubsetOfCap_iff] at h ⊢
  exact ⟨hc.trans h.2.1, h.2.2⟩

theorem clean_genericRequest (hx : ':' ∉ x) : (genericRequest c x n).Clean := by
  refine ⟨fun h => ?_, by simp [genericRequest], by simp [genericRequest], rfl⟩
  obtain ⟨y, hy, hin⟩ := exists_infix_of_infix_pathOf (by simp) (by decide)
    (singleton_infix_iff.2 h)
  rcases mem_generic _ _ hy with rfl | ⟨-, hy⟩
  · exact hx (singleton_infix_iff.1 hin)
  · exact hy (singleton_infix_iff.1 hin)

end Generic

end Caplets
