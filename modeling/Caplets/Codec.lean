import Caplets.Structures

/-!
# What the parsers accept and the printers print

`Clean` collects what every parsed field has in common : it is free of the separators it
was cut at. A printed value of clean fields determines the value
(`Frame.toString_injective`, `Request.toString_injective`).

`Frame.Reads` is `Frame::from_string` as a relation between pieces and what they are read
as. Capabilities and constraints may alternate in the text and are printed one after the
other, so a frame is not printed as the text it came from. `Frame.Readable` is what makes
the printed text read as the same frame (`Frame.fromString_toString`).
-/

namespace Caplets

open Delimited

/-! ## Capabilities -/

namespace CapabilityStructure

/-- The resource is free of the separators around it. -/
structure Clean (c : CapabilityStructure) : Prop where
  plus : '+' ∉ c.resource
  dollar : '$' ∉ c.resource
  function : ¬functionMarker <:+: c.resource

/-- The type field is one that the parser knows. -/
def TypeSet (c : CapabilityStructure) : Prop :=
  c.type = .deviceCap ∨ c.type = .userCap

instance (c : CapabilityStructure) : Decidable c.TypeSet :=
  inferInstanceAs (Decidable (_ ∨ _))

/-- The first three pieces are read, and the type field only if it is one of two. -/
theorem fromString_eq_ok {self c : CapabilityStructure} {s : Str} :
    self.fromString s = .ok c ↔ ∃ r t b rest, splitString [] s ['+'] = r :: t :: b :: rest ∧
      c = ⟨r, typeOfField t self.type, bitsOfInt (atoi b)⟩ := by
  constructor
  · intro h
    simp only [fromString, bind_eq_ok, vecAt_eq_ok, pure_eq_ok] at h
    obtain ⟨r, hr, t, ht, b, hb, rfl⟩ := h
    rcases hv : splitString [] s ['+'] with _ | ⟨r', _ | ⟨t', _ | ⟨b', rest⟩⟩⟩
    · simp [hv] at hr
    · simp [hv] at ht
    · simp [hv] at hb
    · exact ⟨r, t, b, rest, by simp_all, rfl⟩
  · rintro ⟨r, t, b, rest, hv, rfl⟩
    simp [fromString, hv]

/-- A printed type field sets the type back. -/
theorem typeOfField_of_typeSet {c : CapabilityStructure} (hc : c.TypeSet)
    (prior : CapabilityType) : typeOfField (Nat.toDigits 10 c.type.value) prior = c.type := by
  rcases hc with hc | hc <;> rw [hc] <;> rfl

/-- A parsed resource is the text before the first `+`. -/
theorem resource_infix_of_fromString {self c : CapabilityStructure} {s : Str}
    (h : self.fromString s = .ok c) : c.resource <:+: s := by
  obtain ⟨r, t, b, rest, hv, rfl⟩ := fromString_eq_ok.1 h
  exact ((splitString_eq_iff (by simp)).1 hv).infix_of_mem r (by simp)

/-- What is read from a piece between `$` is clean. -/
theorem clean_of_fromString {self c : CapabilityStructure} {s : Str}
    (h : self.fromString s = .ok c) (hdollar : '$' ∉ s)
    (hfunction : ¬functionMarker <:+: s) : c.Clean := by
  have hin := resource_infix_of_fromString h
  refine ⟨?_, fun hr => hdollar (hin.subset hr), fun hr => hfunction (hr.trans hin)⟩
  obtain ⟨r, t, b, rest, hv, rfl⟩ := fromString_eq_ok.1 h
  have hfree := ((splitString_eq_iff (by simp)).1 hv).free_of_mem r (by simp)
  rwa [singleton_infix_iff] at hfree

theorem value_injective {t t' : CapabilityType} (h : t.value = t'.value) : t = t' := by
  cases t <;> cases t' <;> simp_all [CapabilityType.value]

theorem digits_injective {n m : ℕ} (h : Nat.toDigits 10 n = Nat.toDigits 10 m) : n = m := by
  rw [← Nat.ofDigitChars_ten_toDigits (n := n), h, Nat.ofDigitChars_ten_toDigits]

/-- The printed parts of a capability. -/
def parts (c : CapabilityStructure) : List Str :=
  [c.resource, Nat.toDigits 10 c.type.value, bitsToString c.capBits]

/-- A capability is printed as its three parts. -/
theorem toString_eq (c : CapabilityStructure) : c.toString = ['+'].intercalate c.parts := by
  simp [toString, parts]

theorem toString_ne_nil (c : CapabilityStructure) : c.toString ≠ [] := by
  simp [toString]

theorem getLast?_toString (c : CapabilityStructure) :
    c.toString.getLast? = (bitsToString c.capBits).getLast? := by
  rw [toString, List.getLast?_append_of_ne_nil _ (bitsToString_ne_nil _)]

theorem plus_not_mem_parts {c : CapabilityStructure} (hc : '+' ∉ c.resource) :
    ∀ p ∈ c.parts, '+' ∉ p := by
  have hdigits : '+' ∉ Nat.toDigits 10 c.type.value := fun h => by
    simpa using Nat.isDigit_of_mem_toDigits (by decide) (by decide) h
  simpa [parts, hc, hdigits] using
    not_mem_bitsToString (c := '+') (by decide) (by decide) c.capBits

/-- A text without `+` lies in a printed capability only if it lies in one of its parts. -/
theorem exists_infix_of_infix_toString {c : CapabilityStructure} {d : Str} (hd : d ≠ [])
    (hplus : '+' ∉ d) (h : d <:+: c.toString) :
    d <:+: c.resource ∨ d <:+: Nat.toDigits 10 c.type.value ∨ d <:+: bitsToString c.capBits := by
  rw [toString_eq] at h
  obtain ⟨p, hp, hin⟩ := exists_infix_of_infix_intercalate hd hplus h
  simp only [parts, List.mem_cons, List.not_mem_nil, or_false] at hp
  rcases hp with rfl | rfl | rfl
  · exact Or.inl hin
  · exact Or.inr (Or.inl hin)
  · exact Or.inr (Or.inr hin)

/-- Only the resource of a printed capability holds anything but digits and `+`. -/
theorem infix_resource_of_infix_toString {c : CapabilityStructure} {d : Str} {a : Char}
    (ha : a ∈ d) (hdigit : a.isDigit = false) (hplus : '+' ∉ d) (h : d <:+: c.toString) :
    d <:+: c.resource := by
  rcases exists_infix_of_infix_toString (List.ne_nil_of_mem ha) hplus h with h | h | h
  · exact h
  · have := Nat.isDigit_of_mem_toDigits (by decide) (by decide) (h.subset ha)
    simp [hdigit] at this
  · have h0 : a ≠ '0' := by rintro rfl; simp at hdigit
    have h1 : a ≠ '1' := by rintro rfl; simp at hdigit
    exact absurd (h.subset ha) (not_mem_bitsToString h0 h1 _)

/-- Its text does not cut the frame it stands in. -/
theorem dollar_not_mem_toString {c : CapabilityStructure} (hc : '$' ∉ c.resource) :
    '$' ∉ c.toString := fun h =>
  hc (singleton_infix_iff.1 (infix_resource_of_infix_toString (a := '$') (by simp) (by decide)
    (by decide) (singleton_infix_iff.2 h)))

/-- Its text is not taken for a constraint. -/
theorem function_free_toString {c : CapabilityStructure} (hc : c.Clean) :
    ¬functionMarker <:+: c.toString := fun h =>
  hc.function (infix_resource_of_infix_toString (a := 'F') (by decide) (by decide) (by decide) h)

/-- Capabilities that are printed alike are equal. -/
theorem toString_injective {c c' : CapabilityStructure} (hc : '+' ∉ c.resource)
    (hc' : '+' ∉ c'.resource) (h : c.toString = c'.toString) : c = c' := by
  rw [toString_eq, toString_eq] at h
  have hparts := intercalate_singleton_inj (plus_not_mem_parts hc) (plus_not_mem_parts hc')
    (by simp [parts]) (by simp [parts]) h
  simp only [parts, List.cons.injEq, and_true] at hparts
  obtain ⟨hr, ht, hb⟩ := hparts
  cases c
  cases c'
  simp only [mk.injEq]
  exact ⟨hr, value_injective (digits_injective ht), bitsToString_injective _ _ hb⟩

/-- The printed text is split into the printed parts. -/
theorem splitString_toString {c : CapabilityStructure} (hc : '+' ∉ c.resource) :
    splitString [] c.toString ['+'] = c.parts := by
  rw [splitString_eq_iff (by simp), toString_eq]
  refine splits_intercalate_singleton (plus_not_mem_parts hc) fun p hp => ?_
  obtain rfl : bitsToString c.capBits = p := by simpa [parts] using hp
  exact bitsToString_ne_nil _

/-- A clean capability of a known type is read back from its text. -/
theorem fromString_toString {c : CapabilityStructure} (hc : '+' ∉ c.resource) (ht : c.TypeSet)
    (prior : CapabilityStructure) : prior.fromString c.toString = .ok c := by
  refine fromString_eq_ok.2 ⟨_, _, _, [], splitString_toString hc, ?_⟩
  rw [typeOfField_of_typeSet ht, bitsOfInt_atoi_bitsToString]

end CapabilityStructure

/-! ## Constraints -/

namespace Constraint

theorem functionMarker_eq : functionMarker = "FUNCTION".toList ++ [':'] := rfl

/-- The function and the parameters, the parts of a constraint between its colons. -/
def fields (k : Constraint) : List Str := k.function :: k.parameters

/-- The fields are free of the separators around them. -/
structure Clean (k : Constraint) : Prop where
  colon : ∀ x ∈ k.fields, ':' ∉ x
  dollar : ∀ x ∈ k.fields, '$' ∉ x

/-- The last field is not empty. The parser drops an empty last field. -/
def Readable (k : Constraint) : Prop :=
  ∀ x ∈ k.fields.getLast?, x ≠ []

instance (k : Constraint) : Decidable k.Readable :=
  inferInstanceAs (Decidable (∀ x ∈ k.fields.getLast?, x ≠ []))

/-- What follows the first colon, all of it if there is none. -/
def afterColon (s : Str) : Str :=
  s.drop (findIndex s [':'] + 1).toNat

theorem substr_afterColon (s : Str) :
    substr s (findIndex s [':'] + 1).toNat s.length = .ok (afterColon s) := by
  have hle : (findIndex s [':'] + 1).toNat ≤ s.length := by
    unfold findIndex
    cases hf : find? [':'] s with
    | none => simp
    | some n =>
      obtain ⟨p, r, rfl, rfl, -⟩ := exists_of_find? (by simp) hf
      simp
  rw [substr, if_neg (by omega), afterColon, List.take_of_length_le (by simp)]

/-- The pieces behind the first `:` are the function and the parameters. -/
theorem fromString_eq_ok {k : Constraint} {s : Str} :
    empty.fromString s = .ok k ↔ splitString [] (afterColon s) [':'] = k.fields := by
  simp only [fromString, substr_afterColon, empty, bind_eq_ok, Except.ok.injEq, exists_eq_left',
    vecAt_eq_ok, pure_eq_ok]
  cases k with
  | mk f ps => cases splitString [] (afterColon s) [':'] <;> simp [fields, eq_comm]

/-- Every field stands in the text. -/
theorem infix_of_fromString {k : Constraint} {s : Str} (h : empty.fromString s = .ok k) :
    ∀ x ∈ k.fields, x <:+: s := by
  intro x hx
  rw [← fromString_eq_ok.1 h] at hx
  exact ((splits_splitString (by simp) _).infix_of_mem x hx).trans (List.drop_suffix _ s).isInfix

/-- What is read from a piece between `$` is clean. -/
theorem clean_of_fromString {k : Constraint} {s : Str} (h : empty.fromString s = .ok k)
    (hdollar : '$' ∉ s) : k.Clean := by
  refine ⟨fun x hx => ?_, fun x hx hd => hdollar ((infix_of_fromString h x hx).subset hd)⟩
  rw [← fromString_eq_ok.1 h] at hx
  simpa [singleton_infix_iff] using (splits_splitString (by simp) _).free_of_mem x hx

theorem toString_eq (k : Constraint) :
    k.toString = "FUNCTION".toList ++ ':' :: [':'].intercalate k.fields := by
  rw [toString, fields, intercalate_cons_eq, functionMarker_eq]
  simp only [List.append_assoc, List.cons_append, List.nil_append]

/-- A constraint is printed as its fields, with `FUNCTION` in front. -/
theorem toString_eq_intercalate (k : Constraint) :
    k.toString = [':'].intercalate ("FUNCTION".toList :: k.fields) := by
  rw [fields, List.intercalate_cons_cons, toString_eq, fields, List.append_assoc,
    List.singleton_append]

theorem function_infix_toString (k : Constraint) : functionMarker <:+: k.toString :=
  ⟨[], k.function ++ k.parameters.flatMap ([':'] ++ ·), by
    rw [toString, List.nil_append, List.append_assoc]⟩

/-- Constraints that are printed alike are equal. -/
theorem toString_injective {k k' : Constraint} (hk : k.Clean) (hk' : k'.Clean)
    (h : k.toString = k'.toString) : k = k' := by
  simp only [toString_eq, List.append_cancel_left_eq, List.cons.injEq, true_and] at h
  have hfields := intercalate_singleton_inj hk.colon hk'.colon (by simp [fields])
    (by simp [fields]) h
  cases k
  cases k'
  simpa [fields] using hfields

/-- Its text does not cut the frame it stands in. -/
theorem dollar_not_mem_toString {k : Constraint} (hk : k.Clean) : '$' ∉ k.toString := by
  intro h
  rw [toString_eq_intercalate] at h
  obtain ⟨p, hp, hd⟩ := exists_infix_of_infix_intercalate (d := ['$']) (by simp) (by decide)
    (singleton_infix_iff.2 h)
  rcases List.mem_cons.1 hp with rfl | hp
  · exact absurd (singleton_infix_iff.1 hd) (by decide)
  · exact hk.dollar p hp (singleton_infix_iff.1 hd)

@[simp] theorem afterColon_toString (k : Constraint) :
    afterColon k.toString = [':'].intercalate k.fields := by
  have hfirst : First [':'] "FUNCTION".toList := by decide
  have hfind := find?_append hfirst ([':'].intercalate k.fields)
  rw [List.append_assoc, List.singleton_append, ← toString_eq] at hfind
  rw [afterColon, findIndex, hfind, toString_eq]
  rfl

/-- A clean constraint is read back from its text if its last field is not empty. -/
theorem fromString_toString {k : Constraint} (hk : k.Clean) (hr : k.Readable) :
    empty.fromString k.toString = .ok k := by
  rw [fromString_eq_ok, afterColon_toString, splitString_eq_iff (by simp)]
  exact splits_intercalate_singleton hk.colon hr

end Constraint

/-! ## Frames -/

namespace Frame

/-- The capabilities and constraints that the pieces from the `i`-th on are read as. -/
inductive Reads (stale : ℕ → CapabilityType) :
    ℕ → List Str → List CapabilityStructure → List Constraint → Prop
  | nil {i : ℕ} : Reads stale i [] [] []
  | capability {i : ℕ} {p : Str} {ps : List Str} {c : CapabilityStructure}
      {cs : List CapabilityStructure} {ks : List Constraint} :
      ¬functionMarker <:+: p → (CapabilityStructure.uninit (stale i)).fromString p = .ok c →
        Reads stale (i + 1) ps cs ks → Reads stale i (p :: ps) (c :: cs) ks
  | constraint {i : ℕ} {p : Str} {ps : List Str} {k : Constraint}
      {cs : List CapabilityStructure} {ks : List Constraint} :
      functionMarker <:+: p → Constraint.empty.fromString p = .ok k →
        Reads stale (i + 1) ps cs ks → Reads stale i (p :: ps) cs (k :: ks)

/-- The loop appends what the pieces are read as. -/
theorem addPieces_eq_ok {stale : ℕ → CapabilityType} {f : Frame} :
    ∀ {ps : List Str} {i : ℕ} {self : Frame}, addPieces stale i self ps = .ok f ↔
      ∃ cs ks, Reads stale i ps cs ks ∧ f = ⟨self.capabilities ++ cs, self.constraints ++ ks⟩
  | [], i, self => by
    constructor
    · intro h
      obtain rfl : self = f := by simpa [addPieces] using h
      exact ⟨[], [], .nil, by simp⟩
    · rintro ⟨cs, ks, hr, rfl⟩
      cases hr
      simp [addPieces]
  | p :: ps, i, self => by
    rw [addPieces]
    split_ifs with hp
    · rw [findIndex_eq_neg_one] at hp
      simp only [bind_eq_ok, addPieces_eq_ok]
      constructor
      · rintro ⟨c, hc, cs, ks, hr, rfl⟩
        exact ⟨c :: cs, ks, .capability hp hc hr, by simp⟩
      · rintro ⟨cs, ks, hr, rfl⟩
        cases hr with
        | capability _ hc hr => exact ⟨_, hc, _, _, hr, by simp⟩
        | constraint hin _ _ => exact absurd hin hp
    · rw [findIndex_eq_neg_one, not_not] at hp
      simp only [bind_eq_ok, addPieces_eq_ok]
      constructor
      · rintro ⟨k, hk, cs, ks, hr, rfl⟩
        exact ⟨cs, k :: ks, .constraint hp hk hr, by simp⟩
      · rintro ⟨cs, ks, hr, rfl⟩
        cases hr with
        | capability hnot _ _ => exact absurd hp hnot
        | constraint _ hk hr => exact ⟨_, hk, _, _, hr, by simp⟩

/-- A frame is what the pieces of its text are read as. -/
theorem fromString_eq_ok {stale : ℕ → CapabilityType} {f : Frame} {s : Str} :
    empty.fromString stale s = .ok f ↔
      Reads stale 0 (splitString [] s ['$']) f.capabilities f.constraints := by
  rw [fromString, addPieces_eq_ok]
  constructor
  · rintro ⟨cs, ks, hr, rfl⟩
    exact hr
  · intro hr
    exact ⟨_, _, hr, by simp [empty]⟩

namespace Reads

variable {stale : ℕ → CapabilityType} {i : ℕ} {ps : List Str} {cs : List CapabilityStructure}
  {ks : List Constraint}

/-- Every capability is read from a piece without the marker of a constraint. -/
theorem exists_of_mem_capabilities (h : Reads stale i ps cs ks) : ∀ c ∈ cs,
    ∃ p ∈ ps, ¬functionMarker <:+: p ∧
      ∃ j, (CapabilityStructure.uninit (stale j)).fromString p = .ok c := by
  induction h with
  | nil => simp
  | @capability i p ps c cs ks hp hc _ ih =>
    intro c' hc'
    rcases List.mem_cons.1 hc' with rfl | hc'
    · exact ⟨p, by simp, hp, i, hc⟩
    · obtain ⟨q, hq, hrest⟩ := ih c' hc'
      exact ⟨q, by simp [hq], hrest⟩
  | constraint _ _ _ ih =>
    intro c' hc'
    obtain ⟨q, hq, hrest⟩ := ih c' hc'
    exact ⟨q, by simp [hq], hrest⟩

theorem exists_of_mem_constraints (h : Reads stale i ps cs ks) : ∀ k ∈ ks,
    ∃ p ∈ ps, Constraint.empty.fromString p = .ok k := by
  induction h with
  | nil => simp
  | capability _ _ _ ih =>
    intro k' hk'
    obtain ⟨q, hq, hrest⟩ := ih k' hk'
    exact ⟨q, by simp [hq], hrest⟩
  | @constraint i p ps k cs ks _ hk _ ih =>
    intro k' hk'
    rcases List.mem_cons.1 hk' with rfl | hk'
    · exact ⟨p, by simp, hk⟩
    · obtain ⟨q, hq, hrest⟩ := ih k' hk'
      exact ⟨q, by simp [hq], hrest⟩

end Reads

/-- Every field of the frame is clean. -/
structure Clean (f : Frame) : Prop where
  capabilities : ∀ c ∈ f.capabilities, c.Clean
  constraints : ∀ k ∈ f.constraints, k.Clean

/-- The printed text is read as the same frame. -/
structure Readable (f : Frame) : Prop where
  types : ∀ c ∈ f.capabilities, c.TypeSet
  fields : ∀ k ∈ f.constraints, k.Readable
  /-- Constraints alone are printed behind an empty piece, which no parser accepts. -/
  capabilities : f.constraints ≠ [] → f.capabilities ≠ []

instance (f : Frame) : Decidable f.Readable :=
  decidable_of_iff ((∀ c ∈ f.capabilities, c.TypeSet) ∧ (∀ k ∈ f.constraints, k.Readable) ∧
      (f.constraints ≠ [] → f.capabilities ≠ []))
    ⟨fun h => ⟨h.1, h.2.1, h.2.2⟩, fun h => ⟨h.types, h.fields, h.capabilities⟩⟩

section Parsed

variable {stale : ℕ → CapabilityType} {f : Frame} {s : Str}

/-- Every capability is read from a piece that is no constraint. -/
theorem exists_piece_of_mem_capabilities (h : empty.fromString stale s = .ok f) :
    ∀ c ∈ f.capabilities, ∃ p, p <:+: s ∧ '$' ∉ p ∧ ¬functionMarker <:+: p ∧
      ∃ j, (CapabilityStructure.uninit (stale j)).fromString p = .ok c := by
  intro c hc
  have hsplit := splits_splitString (d := ['$']) (by simp) s
  obtain ⟨p, hp, hrest⟩ := (fromString_eq_ok.1 h).exists_of_mem_capabilities c hc
  exact ⟨p, hsplit.infix_of_mem p hp, by simpa [singleton_infix_iff] using hsplit.free_of_mem p hp,
    hrest⟩

/-- Every constraint is read from a piece. -/
theorem exists_piece_of_mem_constraints (h : empty.fromString stale s = .ok f) :
    ∀ k ∈ f.constraints, ∃ p, p <:+: s ∧ '$' ∉ p ∧ Constraint.empty.fromString p = .ok k := by
  intro k hk
  have hsplit := splits_splitString (d := ['$']) (by simp) s
  obtain ⟨p, hp, hrest⟩ := (fromString_eq_ok.1 h).exists_of_mem_constraints k hk
  exact ⟨p, hsplit.infix_of_mem p hp, by simpa [singleton_infix_iff] using hsplit.free_of_mem p hp,
    hrest⟩

/-- What is read is clean. -/
theorem clean_of_fromString (h : empty.fromString stale s = .ok f) : f.Clean where
  capabilities c hc := by
    obtain ⟨p, -, hdollar, hmark, j, hp⟩ := exists_piece_of_mem_capabilities h c hc
    exact CapabilityStructure.clean_of_fromString hp hdollar hmark
  constraints k hk := by
    obtain ⟨p, -, hdollar, hp⟩ := exists_piece_of_mem_constraints h k hk
    exact Constraint.clean_of_fromString hp hdollar

/-- Every resource stands in the text. -/
theorem resource_infix_of_fromString (h : empty.fromString stale s = .ok f) :
    ∀ c ∈ f.capabilities, c.resource <:+: s := by
  intro c hc
  obtain ⟨p, hp, -, -, j, hc⟩ := exists_piece_of_mem_capabilities h c hc
  exact (CapabilityStructure.resource_infix_of_fromString hc).trans hp

/-- Every field of a constraint stands in the text. -/
theorem field_infix_of_fromString (h : empty.fromString stale s = .ok f) :
    ∀ k ∈ f.constraints, ∀ x ∈ k.fields, x <:+: s := by
  intro k hk x hx
  obtain ⟨p, hp, -, hk⟩ := exists_piece_of_mem_constraints h k hk
  exact (Constraint.infix_of_fromString hk x hx).trans hp

end Parsed

@[simp] theorem fromString_nil (stale : ℕ → CapabilityType) :
    empty.fromString stale [] = .ok empty :=
  fromString_eq_ok.2 (by rw [splitString_eq .nil (by simp)]; exact .nil)

/-! ### Printed frames -/

/-- The printed capabilities and constraints. -/
def pieces (f : Frame) : List Str :=
  f.capabilities.map CapabilityStructure.toString ++ f.constraints.map Constraint.toString

/-- With a capability, the printed pieces have `$` between them. -/
theorem toString_eq_intercalate {f : Frame} (hf : f.capabilities ≠ []) :
    f.toString = ['$'].intercalate f.pieces := by
  rw [pieces, intercalate_append (by simpa using hf), toString, List.flatMap_map]

/-- Without one, `$` stands in front of every constraint. -/
theorem toString_of_capabilities_nil {f : Frame} (hf : f.capabilities = []) :
    f.toString = (f.constraints.map Constraint.toString).flatMap (['$'] ++ ·) := by
  rw [toString, hf, List.flatMap_map]
  simp

/-- A text without `$` lies in a printed frame only if it lies in one of its pieces. -/
theorem exists_infix_of_infix_toString {f : Frame} {d : Str} (hd : d ≠ []) (hdollar : '$' ∉ d)
    (h : d <:+: f.toString) : ∃ p ∈ f.pieces, d <:+: p := by
  rcases eq_or_ne f.capabilities [] with hc | hc
  · have hpieces : f.pieces = f.constraints.map Constraint.toString := by simp [pieces, hc]
    rw [toString_of_capabilities_nil hc, ← hpieces] at h
    cases hps : f.pieces with
    | nil =>
      rw [hps] at h
      exact absurd (List.infix_nil.1 h) hd
    | cons p ps =>
      rw [hps, flatMap_cons_eq] at h
      rcases infix_of_infix_append (l := []) hdollar h with h | h
      · exact absurd (List.infix_nil.1 h) hd
      · exact exists_infix_of_infix_intercalate hd hdollar h
  · rw [toString_eq_intercalate hc] at h
    exact exists_infix_of_infix_intercalate hd hdollar h

theorem dollar_not_mem_pieces {f : Frame} (hf : f.Clean) : ∀ p ∈ f.pieces, '$' ∉ p := by
  intro p hp
  rcases List.mem_append.1 hp with hp | hp
  · obtain ⟨c, hc, rfl⟩ := List.mem_map.1 hp
    exact CapabilityStructure.dollar_not_mem_toString (hf.capabilities c hc).dollar
  · obtain ⟨k, hk, rfl⟩ := List.mem_map.1 hp
    exact Constraint.dollar_not_mem_toString (hf.constraints k hk)

/-- The first character of a printed frame tells whether it has capabilities. -/
theorem capabilities_eq_nil_iff {f : Frame} (hf : f.Clean) :
    f.capabilities = [] ↔ f.toString = [] ∨ ['$'] <+: f.toString := by
  constructor
  · intro hc
    rw [toString_of_capabilities_nil hc]
    cases f.constraints with
    | nil => simp
    | cons k ks => simp
  · intro h
    by_contra hc
    obtain ⟨c, cs, hcs⟩ := List.exists_cons_of_ne_nil hc
    obtain ⟨a, l, hal⟩ := List.exists_cons_of_ne_nil (CapabilityStructure.toString_ne_nil c)
    have htext : ∃ r, f.toString = a :: r := by
      rw [toString_eq_intercalate hc, pieces, hcs, List.map_cons, List.cons_append,
        intercalate_cons_eq, hal]
      exact ⟨_, rfl⟩
    obtain ⟨r, hr⟩ := htext
    rw [hr] at h
    obtain rfl : '$' = a := by simpa using h
    exact CapabilityStructure.dollar_not_mem_toString (hf.capabilities c (by simp [hcs])).dollar
      (by simp [hal])

/-- Printing loses nothing of a clean frame. -/
theorem toString_injective {f g : Frame} (hf : f.Clean) (hg : g.Clean)
    (h : f.toString = g.toString) : f = g := by
  have hpieces : f.pieces = g.pieces := by
    by_cases hc : f.capabilities = []
    · have hc' : g.capabilities = [] := by
        rwa [capabilities_eq_nil_iff hg, ← h, ← capabilities_eq_nil_iff hf]
      rw [toString_of_capabilities_nil hc, toString_of_capabilities_nil hc'] at h
      have hfd := dollar_not_mem_pieces hf
      have hgd := dollar_not_mem_pieces hg
      simp only [pieces, hc, hc', List.map_nil, List.nil_append] at hfd hgd ⊢
      exact flatMap_singleton_inj hfd hgd h
    · have hc' : g.capabilities ≠ [] := by
        rwa [Ne, capabilities_eq_nil_iff hg, ← h, ← capabilities_eq_nil_iff hf]
      rw [toString_eq_intercalate hc, toString_eq_intercalate hc'] at h
      exact intercalate_singleton_inj (dollar_not_mem_pieces hf) (dollar_not_mem_pieces hg)
        (by simp [pieces, hc]) (by simp [pieces, hc']) h
  -- constraints are the pieces with the marker
  have hcap : ∀ {f : Frame}, f.Clean →
      ∀ p ∈ f.capabilities.map CapabilityStructure.toString, ¬functionMarker <:+: p := by
    intro f hf p hp
    obtain ⟨c, hc, rfl⟩ := List.mem_map.1 hp
    exact CapabilityStructure.function_free_toString (hf.capabilities c hc)
  have hcon : ∀ f : Frame, ∀ p ∈ f.constraints.map Constraint.toString,
      ¬¬functionMarker <:+: p := by
    intro f p hp
    obtain ⟨k, -, rfl⟩ := List.mem_map.1 hp
    exact not_not.2 k.function_infix_toString
  obtain ⟨hcaps, hcons⟩ := append_inj_of_forall (hcap hf) (hcap hg) (hcon f) (hcon g) hpieces
  obtain ⟨cs, ks⟩ := f
  obtain ⟨cs', ks'⟩ := g
  rw [mk.injEq]
  exact ⟨map_inj_of_forall
      (fun c c' hc hc' => CapabilityStructure.toString_injective hc.plus hc'.plus)
      hf.capabilities hg.capabilities hcaps,
    map_inj_of_forall (fun k k' hk hk' => Constraint.toString_injective hk hk')
      hf.constraints hg.constraints hcons⟩

end Frame

end Caplets
