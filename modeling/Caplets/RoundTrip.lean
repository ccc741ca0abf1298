import Caplets.Codec
import Mathlib.Data.List.Forall2

/-!
# Reading printed text back

A printed frame is read back as itself exactly if it is `Readable`
(`Frame.fromString_toString_iff`) : its types are known, no constraint ends in an empty
field, and there is a capability if there is a constraint. A frame whose text was cut off
inside its last field is never read back (`Frame.fromString_ne_of_append`). Requests are
read back without any condition but clean fields (`Request.fromString_toString`).
-/

namespace Caplets

open Delimited

/-! ## Constraints -/

namespace Constraint

/-- Only readable constraints are read back. -/
theorem readable_of_fromString_toString {k : Constraint}
    (h : empty.fromString k.toString = .ok k) : k.Readable := by
  rw [fromString_eq_ok, afterColon_toString,
    splitString_eq_iff (by simp), splits_intercalate_iff (by simp)] at h
  exact fun x hx => (h.2 x hx).1

/-- An end without `:` is cut off from the last field. -/
theorem exists_of_toString_eq_append {k : Constraint} {s e : Str} (hcolon : ':' ∉ e)
    (h : k.toString = s ++ e) :
    ∃ z, s = "FUNCTION".toList ++ ':' :: z ∧ [':'].intercalate k.fields = z ++ e := by
  rw [toString_eq] at h
  rcases List.append_eq_append_iff.1 h with ⟨s', rfl, hs'⟩ | ⟨e', -, he'⟩
  · cases s' with
    | nil => exact absurd (by simp at hs'; simp [← hs']) hcolon
    | cons b z =>
      obtain ⟨rfl, hz⟩ := List.cons_eq_cons.1 hs'
      exact ⟨z, rfl, hz⟩
  · exact absurd (by simp [he']) hcolon

/-- What is cut off inside the last field is not made up for. -/
theorem fromString_ne_of_append {k : Constraint} {s e : Str} (he : e ≠ []) (hcolon : ':' ∉ e)
    (h : k.toString = s ++ e) : empty.fromString s ≠ .ok k := by
  intro hk
  obtain ⟨z, hs, hz⟩ := exists_of_toString_eq_append hcolon h
  have hafter : afterColon s = z := by
    have hfirst : First [':'] "FUNCTION".toList := by decide
    have hfind := find?_append hfirst z
    rw [List.append_assoc, List.singleton_append, ← hs] at hfind
    rw [afterColon, findIndex, hfind, hs]
    rfl
  rw [fromString_eq_ok, hafter, splitString_eq_iff (by simp)] at hk
  have hpos := List.length_pos_iff.2 he
  have hlen := congrArg List.length hz
  rcases hk.intercalate_eq with heq | heq
  all_goals
    have hlen' := congrArg List.length heq
    simp only [List.length_append] at hlen hlen'
    omega

end Constraint

/-! ## Frames -/

namespace Frame

variable {stale : ℕ → CapabilityType}

/-- Printed constraints are read back. -/
theorem reads_constraints :
    ∀ {i : ℕ} {ks : List Constraint}, (∀ k ∈ ks, k.Clean ∧ k.Readable) →
      Reads stale i (ks.map Constraint.toString) [] ks
  | _, [], _ => .nil
  | _, k :: _, h =>
    .constraint k.function_infix_toString
      (Constraint.fromString_toString (h k (by simp)).1 (h k (by simp)).2)
      (reads_constraints fun k' hk' => h k' (by simp [hk']))

/-- The printed pieces are read back. -/
theorem reads_pieces {ks : List Constraint} (hks : ∀ k ∈ ks, k.Clean ∧ k.Readable) :
    ∀ {i : ℕ} {cs : List CapabilityStructure}, (∀ c ∈ cs, c.Clean ∧ c.TypeSet) →
      Reads stale i (cs.map CapabilityStructure.toString ++ ks.map Constraint.toString) cs ks
  | _, [], _ => reads_constraints hks
  | _, c :: _, h =>
    .capability (CapabilityStructure.function_free_toString (h c (by simp)).1)
      (CapabilityStructure.fromString_toString (h c (by simp)).1.plus (h c (by simp)).2 _)
      (reads_pieces hks fun c' hc' => h c' (by simp [hc']))

theorem pieces_ne_nil {f : Frame} : ∀ p ∈ f.pieces, p ≠ [] := by
  intro p hp
  rcases List.mem_append.1 hp with hp | hp
  · obtain ⟨c, -, rfl⟩ := List.mem_map.1 hp
    exact CapabilityStructure.toString_ne_nil c
  · obtain ⟨k, -, rfl⟩ := List.mem_map.1 hp
    simp [Constraint.toString_eq]

/-- The splitter gives the printed pieces back. -/
theorem splits_pieces {f : Frame} (hf : f.Clean) (hc : f.capabilities ≠ []) :
    Splits ['$'] f.toString f.pieces := by
  rw [toString_eq_intercalate hc]
  exact splits_intercalate_singleton (dollar_not_mem_pieces hf)
    fun p hp => pieces_ne_nil p (List.mem_of_getLast? hp)

/-- A clean and readable frame is read back from its text. -/
theorem fromString_toString {f : Frame} (hf : f.Clean) (hr : f.Readable) :
    empty.fromString stale f.toString = .ok f := by
  obtain ⟨cs, ks⟩ := f
  rcases eq_or_ne cs [] with rfl | hc
  · obtain rfl : ks = [] := by
      by_contra hk
      exact hr.capabilities hk rfl
    exact fromString_nil stale
  · rw [fromString_eq_ok, splitString_eq (splits_pieces hf hc) (by simp)]
    exact reads_pieces (fun k hk => ⟨hf.constraints k hk, hr.fields k hk⟩)
      fun c hc => ⟨hf.capabilities c hc, hr.types c hc⟩

/-- Every piece with the marker is read as the next constraint. -/
theorem Reads.forall₂_constraints {i : ℕ} {ps : List Str} {cs : List CapabilityStructure}
    {ks : List Constraint} (h : Reads stale i ps cs ks) :
    List.Forall₂ (fun p k => Constraint.empty.fromString p = .ok k)
      (ps.filter fun p => decide (functionMarker <:+: p)) ks := by
  induction h with
  | nil => exact .nil
  | capability hp _ _ ih => simpa [List.filter_cons, hp] using ih
  | constraint hp hk _ ih => simpa [List.filter_cons, hp] using ⟨hk, ih⟩

/-- An empty piece is not read. -/
theorem not_reads_nil_cons {i : ℕ} {ps : List Str} {cs : List CapabilityStructure}
    {ks : List Constraint} : ¬Reads stale i ([] :: ps) cs ks := by
  intro h
  cases h with
  | capability _ hc _ =>
    obtain ⟨r, t, b, rest, hv, -⟩ := CapabilityStructure.fromString_eq_ok.1 hc
    rw [splitString_eq .nil (by simp)] at hv
    simp at hv
  | constraint hp _ _ => exact absurd (List.infix_nil.1 hp) (by decide)

/-- Text with `$` in front is no frame. -/
theorem fromString_dollar_ne {f : Frame} {s : Str} :
    empty.fromString stale ('$' :: s) ≠ .ok f := by
  intro h
  have hsplit := splits_splitString (d := ['$']) (by simp) ('$' :: s)
  obtain ⟨qs, hqs⟩ := Splits.eq_nil_cons (l := s) hsplit (by simp)
  have hr := fromString_eq_ok.1 h
  rw [hqs] at hr
  exact not_reads_nil_cons hr

/-- The pieces with the marker are the constraints. -/
theorem filter_pieces {f : Frame} (hf : f.Clean) :
    f.pieces.filter (fun p => decide (functionMarker <:+: p)) =
      f.constraints.map Constraint.toString := by
  rw [pieces, List.filter_append, List.filter_eq_nil_iff.2, List.filter_eq_self.2, List.nil_append]
  · intro p hp
    obtain ⟨k, -, rfl⟩ := List.mem_map.1 hp
    simpa using k.function_infix_toString
  · intro p hp
    obtain ⟨c, hc, rfl⟩ := List.mem_map.1 hp
    simpa using CapabilityStructure.function_free_toString (hf.capabilities c hc)

/-- A frame of constraints alone is not read back. -/
theorem capabilities_ne_nil_of_fromString_toString {f : Frame}
    (h : empty.fromString stale f.toString = .ok f) (hk : f.constraints ≠ []) :
    f.capabilities ≠ [] := by
  intro hc
  obtain ⟨k, ks, hks⟩ := List.exists_cons_of_ne_nil hk
  rw [toString_of_capabilities_nil hc, hks, List.map_cons, List.flatMap_cons, List.append_assoc,
    List.singleton_append] at h
  exact fromString_dollar_ne h

/-- Among clean frames of known types the readable ones are those that survive. -/
theorem fromString_toString_iff {f : Frame} (hf : f.Clean) (ht : ∀ c ∈ f.capabilities, c.TypeSet) :
    empty.fromString stale f.toString = .ok f ↔ f.Readable := by
  refine ⟨fun h => ?_, fromString_toString hf⟩
  have hcap := capabilities_ne_nil_of_fromString_toString h
  refine ⟨ht, fun k hk => ?_, hcap⟩
  have hc : f.capabilities ≠ [] := hcap (List.ne_nil_of_mem hk)
  have hr := fromString_eq_ok.1 h
  rw [splitString_eq (splits_pieces hf hc) (by simp)] at hr
  have hforall := hr.forall₂_constraints
  rw [List.nil_append, filter_pieces hf, List.forall₂_map_left_iff, List.forall₂_same] at hforall
  exact Constraint.readable_of_fromString_toString (hforall k hk)

theorem exists_getLast_of_forall₂ {β γ : Type*} {R : β → γ → Prop} {xs : List β} {x : β}
    {ys : List γ} (h : List.Forall₂ R (xs ++ [x]) ys) : ∃ y, ys.getLast? = some y ∧ R x y := by
  rw [← List.forall₂_reverse_iff, List.reverse_append, List.reverse_singleton,
    List.singleton_append, List.forall₂_cons_left_iff] at h
  obtain ⟨y, ys', hy, -, hys⟩ := h
  exact ⟨y, by rw [← List.head?_reverse, hys, List.head?_cons], hy⟩

/-- A clean frame is not read from its text with an end cut off that holds no separator
and does not end in a bit. -/
theorem fromString_ne_of_append {f : Frame} (hf : f.Clean) {q e : Str} {a : Char}
    (ha : e.getLast? = some a) (hbit : a ≠ '0' ∧ a ≠ '1') (hdollar : '$' ∉ e) (hcolon : ':' ∉ e)
    (h : f.toString = q ++ e) : empty.fromString stale q ≠ .ok f := by
  intro hq
  have he : e ≠ [] := by
    rintro rfl
    simp at ha
  rcases eq_or_ne f.capabilities [] with hc | hc
  · -- the text starts with `$`, which is not in the part cut off
    cases q with
    | nil =>
      rw [List.nil_append] at h
      rcases (capabilities_eq_nil_iff hf).1 hc with h0 | h0
      · exact he (h ▸ h0)
      · exact hdollar (h ▸ h0.subset (by simp))
    | cons b q =>
      rcases (capabilities_eq_nil_iff hf).1 hc with h0 | h0
      · simp [h0] at h
      · rw [h, List.cons_append] at h0
        obtain ⟨rfl, -⟩ := List.cons_prefix_cons.1 h0
        exact fromString_dollar_ne hq
  · have hpieces : f.pieces ≠ [] := by simp [pieces, hc]
    obtain ⟨ps, l, hps⟩ := (List.eq_nil_or_concat f.pieces).resolve_left hpieces
    rw [List.concat_eq_append] at hps
    rw [toString_eq_intercalate hc, hps] at h
    obtain ⟨l₀, rfl, rfl⟩ := exists_of_intercalate_eq_append hdollar h
    have hlast : l₀ ++ e ∈ f.pieces := by simp [hps]
    rcases List.mem_append.1 hlast with hmem | hmem
    · -- a printed capability ends in a bit
      obtain ⟨c, -, hcs⟩ := List.mem_map.1 hmem
      have hend := congrArg List.getLast? hcs
      rw [CapabilityStructure.getLast?_toString, List.getLast?_append, ha, Option.some_or] at hend
      exact not_mem_bitsToString hbit.1 hbit.2 _ (List.mem_of_getLast? hend)
    · obtain ⟨k, -, hks⟩ := List.mem_map.1 hmem
      obtain ⟨z, hz, -⟩ := Constraint.exists_of_toString_eq_append hcolon hks
      have hmark : functionMarker <:+: l₀ := ⟨[], z, by rw [hz, Constraint.functionMarker_eq]; simp⟩
      have hl₀ : '$' ∉ l₀ := fun hd => dollar_not_mem_pieces hf _ hlast (by simp [hd])
      have hps' : ∀ p ∈ ps ++ [l₀], '$' ∉ p := by
        intro p hp
        rcases List.mem_append.1 hp with hp | hp
        · exact dollar_not_mem_pieces hf p (by simp [hps, hp])
        · rwa [List.mem_singleton.1 hp]
      have hsplit : Splits ['$'] (['$'].intercalate (ps ++ [l₀])) (ps ++ [l₀]) :=
        splits_intercalate_singleton hps' (by simp [hz])
      -- the constraints of `q` are those of the frame, the last of them read from `l₀`
      have hr := fromString_eq_ok.1 hq
      rw [splitString_eq hsplit (by simp), List.nil_append] at hr
      have hforall := hr.forall₂_constraints
      have hfilter := filter_pieces hf
      rw [hps, List.filter_append, List.filter_cons_of_pos
        (by simpa using List.infix_append_of_infix_left hmark), List.filter_nil] at hfilter
      rw [List.filter_append, List.filter_cons_of_pos (by simpa using hmark), List.filter_nil]
        at hforall
      obtain ⟨k', hk', hread⟩ := exists_getLast_of_forall₂ hforall
      have hprint : k'.toString = l₀ ++ e := by
        have hend := congrArg List.getLast? hfilter
        rw [List.getLast?_concat, List.getLast?_map, hk', Option.map_some] at hend
        exact (Option.some.inj hend).symm
      exact Constraint.fromString_ne_of_append he hcolon hprint hread

end Frame

/-! ## Requests -/

namespace Request

/-- The fields are free of the separator around them and the type is that of a device. -/
structure Clean (r : Request) : Prop where
  resource : ':' ∉ r.capability.resource
  handlerName : ':' ∉ r.handlerName
  value : ':' ∉ r.value
  type : r.capability.type = .deviceCap

/-- The printed parts of a request. -/
def parts (r : Request) : List Str :=
  ["request".toList, r.capability.resource, r.handlerName, r.value,
    bitsToString r.capability.capBits]

/-- A request is printed as its parts. -/
theorem toString_eq (r : Request) : r.toString = [':'].intercalate r.parts := by
  have hmark : requestMarker = "request".toList ++ [':'] := rfl
  simp only [toString, parts, hmark, List.intercalate_cons_cons, List.intercalate_singleton,
    List.append_assoc]

/-- The four fields are the pieces behind the first one, whatever that is. -/
theorem fromString_eq_ok {self r : Request} {s : Str} :
    self.fromString s = .ok r ↔ ∃ m res h v b rest,
      splitString [] s [':'] = m :: res :: h :: v :: b :: rest ∧
        r = ⟨⟨res, .deviceCap, bitsOfInt (atoi b)⟩, h, v⟩ := by
  constructor
  · intro hr
    simp only [fromString, bind_eq_ok, vecAt_eq_ok, pure_eq_ok] at hr
    obtain ⟨res, hres, h, hh, v, hv, b, hb, rfl⟩ := hr
    rcases hs : splitString [] s [':'] with
      _ | ⟨m, _ | ⟨res', _ | ⟨h', _ | ⟨v', _ | ⟨b', rest⟩⟩⟩⟩⟩
    · simp [hs] at hres
    · simp [hs] at hres
    · simp [hs] at hh
    · simp [hs] at hv
    · simp [hs] at hb
    · exact ⟨m, res, h, v, b, rest, by simp_all, rfl⟩
  · rintro ⟨m, res, h, v, b, rest, hs, rfl⟩
    simp [fromString, hs]

/-- Every field stands in the text. -/
theorem field_infix_of_fromString {self r : Request} {s : Str} (h : self.fromString s = .ok r) :
    r.capability.resource <:+: s ∧ r.handlerName <:+: s ∧ r.value <:+: s := by
  obtain ⟨m, res, hn, v, b, rest, hs, rfl⟩ := fromString_eq_ok.1 h
  have hin := ((splitString_eq_iff (by simp)).1 hs).infix_of_mem
  exact ⟨hin _ (by simp), hin _ (by simp), hin _ (by simp)⟩

/-- What is read is clean. -/
theorem clean_of_fromString {self r : Request} {s : Str} (h : self.fromString s = .ok r) :
    r.Clean := by
  obtain ⟨m, res, hn, v, b, rest, hs, rfl⟩ := fromString_eq_ok.1 h
  have hfree : ∀ x ∈ m :: res :: hn :: v :: b :: rest, ':' ∉ x := fun x hx => by
    simpa [singleton_infix_iff] using ((splitString_eq_iff (by simp)).1 hs).free_of_mem x hx
  exact ⟨hfree _ (by simp), hfree _ (by simp), hfree _ (by simp), rfl⟩

theorem colon_not_mem_parts {r : Request} (hr : r.Clean) : ∀ p ∈ r.parts, ':' ∉ p := by
  have hbits := not_mem_bitsToString (c := ':') (by decide) (by decide) r.capability.capBits
  have hmark : ':' ∉ "request".toList := by decide
  simp only [parts, List.mem_cons, List.not_mem_nil, or_false]
  rintro p (rfl | rfl | rfl | rfl | rfl)
  exacts [hmark, hr.resource, hr.handlerName, hr.value, hbits]

/-- Requests that are printed alike are equal. -/
theorem toString_injective {r r' : Request} (hr : r.Clean) (hr' : r'.Clean)
    (h : r.toString = r'.toString) : r = r' := by
  rw [toString_eq, toString_eq] at h
  have hparts := intercalate_singleton_inj (colon_not_mem_parts hr) (colon_not_mem_parts hr')
    (by simp [parts]) (by simp [parts]) h
  simp only [parts, List.cons.injEq, and_true, true_and] at hparts
  obtain ⟨hres, hh, hv, hb⟩ := hparts
  obtain ⟨⟨res, t, b⟩, hn, v⟩ := r
  obtain ⟨⟨res', t', b'⟩, hn', v'⟩ := r'
  obtain rfl : t = .deviceCap := hr.type
  obtain rfl : t' = .deviceCap := hr'.type
  obtain rfl := bitsToString_injective b b' hb
  simp_all

/-- A clean request is read back from its text. -/
theorem fromString_toString {r : Request} (hr : r.Clean) (self : Request) :
    self.fromString r.toString = .ok r := by
  have hsplit : Splits [':'] r.toString r.parts := by
    rw [toString_eq]
    refine splits_intercalate_singleton (colon_not_mem_parts hr) fun p hp => ?_
    obtain rfl : bitsToString r.capability.capBits = p := by simpa [parts] using hp
    exact bitsToString_ne_nil _
  refine fromString_eq_ok.2 ⟨_, _, _, _, _, [], splitString_eq hsplit (by simp) [], ?_⟩
  rw [bitsOfInt_atoi_bitsToString, ← hr.type]

theorem getLast?_toString (r : Request) :
    r.toString.getLast? = (bitsToString r.capability.capBits).getLast? := by
  rw [toString, List.getLast?_append_of_ne_nil _ (bitsToString_ne_nil _)]

theorem toString_ne_nil (r : Request) : r.toString ≠ [] := by
  simp [toString]

/-- A printed request is found by its marker. -/
theorem requestMarker_prefix_toString (r : Request) : requestMarker <+: r.toString :=
  ⟨_, by rw [toString, List.append_assoc, List.append_assoc, List.append_assoc,
    List.append_assoc, List.append_assoc, List.append_assoc]⟩

end Request

end Caplets
