import Caplets.Framing

/-!
# Indices out of range

The parsers index the vectors they split their texts into, and look at no size before. How
many pieces a text yields is decided by the text, so a token that is sent decides whether an
index is in range. `InBounds` says for which texts all of them are (`parse_in_bounds_iff`).

`Guarded x P` is the specification of a call that does nothing wrong but index a vector : it
runs to its end if `P` holds and indexes out of range if not.
-/

namespace Caplets

open Delimited

/-- The call `x` runs to its end if `P` holds, and indexes out of range otherwise. -/
structure Guarded {α : Type} (x : Except Fault α) (P : Prop) : Prop where
  ok : P → ∃ a, x = .ok a
  fault : ¬P → x = .error .badIndex

namespace Guarded

variable {α β : Type} {x : Except Fault α} {P Q : Prop}

/-- A guard says when an index is in range. -/
theorem ne_badIndex_iff (h : Guarded x P) : x ≠ .error .badIndex ↔ P := by
  refine ⟨fun hx => ?_, fun hP => ?_⟩
  · by_contra hP
    exact hx (h.fault hP)
  · obtain ⟨a, ha⟩ := h.ok hP
    simp [ha]

theorem pure (a : α) : Guarded (.ok a) True :=
  ⟨fun _ => ⟨a, rfl⟩, fun h => absurd trivial h⟩

/-- Guards of calls in a row add up. -/
theorem bind {f : α → Except Fault β} (hx : Guarded x P)
    (hf : ∀ a, x = .ok a → Guarded (f a) Q) : Guarded (x >>= f) (P ∧ Q) := by
  by_cases hP : P
  · obtain ⟨a, rfl⟩ := hx.ok hP
    exact ⟨fun h => (hf a rfl).ok h.2, fun h => (hf a rfl).fault fun hQ => h ⟨hP, hQ⟩⟩
  · rw [hx.fault hP]
    exact ⟨fun h => absurd h.1 hP, fun _ => rfl⟩

theorem congr (h : Guarded x P) (hPQ : P ↔ Q) : Guarded x Q :=
  ⟨fun hQ => h.ok (hPQ.2 hQ), fun hQ => h.fault (mt hPQ.1 hQ)⟩

/-- One index is guarded by the length. -/
theorem vecAt (v : List α) (i : ℕ) : Guarded (vecAt v i) (i < v.length) := by
  refine ⟨fun hi => ⟨v[i], vecAt_eq_ok.2 (List.getElem?_eq_getElem hi)⟩, fun hi => ?_⟩
  unfold Caplets.vecAt
  rw [List.getElem?_eq_none (by omega)]

end Guarded

/-- Only the empty text has no pieces. -/
theorem splitString_ne_nil_iff {s d : Str} (hd : d ≠ []) : splitString [] s d ≠ [] ↔ s ≠ [] := by
  refine ⟨fun h hs => h ?_, (splits_splitString hd s).ne_nil⟩
  rw [hs, splitString_eq .nil hd, List.nil_append]

/-! ## What each parser needs -/

/-- A capability needs three pieces. -/
theorem CapabilityStructure.guarded_fromString (self : CapabilityStructure) (s : Str) :
    Guarded (self.fromString s) (3 ≤ (splitString [] s ['+']).length) := by
  unfold fromString
  refine ((Guarded.vecAt _ 0).bind fun _ _ => (Guarded.vecAt _ 1).bind fun _ _ =>
    (Guarded.vecAt _ 2).bind fun _ _ => Guarded.pure _).congr ?_
  rw [and_true]
  omega

/-- A constraint needs something behind the first `:`. -/
theorem Constraint.guarded_fromString (s : Str) :
    Guarded (empty.fromString s) (afterColon s ≠ []) := by
  simp only [fromString, substr_afterColon, empty]
  refine ((Guarded.vecAt _ 0).bind fun _ _ => Guarded.pure _).congr ?_
  rw [and_true, List.length_pos_iff]
  exact splitString_ne_nil_iff (by simp)

/-- A piece of a frame has three fields, or something behind its first colon if it is a
constraint. -/
def PieceInBounds (p : Str) : Prop :=
  if functionMarker <:+: p then Constraint.afterColon p ≠ []
  else 3 ≤ (splitString [] p ['+']).length

/-- Every piece of the frame has what it is indexed at. -/
def FrameInBounds (s : Str) : Prop :=
  ∀ p ∈ splitString [] s ['$'], PieceInBounds p

/-- The loop needs it of every piece. -/
theorem Frame.guarded_addPieces (stale : ℕ → CapabilityType) :
    ∀ (ps : List Str) (i : ℕ) (self : Frame),
      Guarded (addPieces stale i self ps) (∀ p ∈ ps, PieceInBounds p)
  | [], _, _ => (Guarded.pure _).congr (by simp)
  | p :: ps, i, self => by
    unfold addPieces
    rw [List.forall_mem_cons, PieceInBounds]
    by_cases hp : functionMarker <:+: p
    · rw [if_neg (by simpa using hp), if_pos hp]
      exact (Constraint.guarded_fromString p).bind fun _ _ => guarded_addPieces stale ps _ _
    · rw [if_pos (by simpa using hp), if_neg hp]
      exact (CapabilityStructure.guarded_fromString _ p).bind fun _ _ =>
        guarded_addPieces stale ps _ _

/-- A frame needs it of all its pieces. -/
theorem Frame.guarded_fromString (stale : ℕ → CapabilityType) (self : Frame) (s : Str) :
    Guarded (self.fromString stale s) (FrameInBounds s) :=
  guarded_addPieces stale _ 0 self

/-- The request has what it is indexed at. -/
def RequestInBounds (s : Str) : Prop :=
  5 ≤ (splitString [] s [':']).length

/-- A request needs five pieces. -/
theorem Request.guarded_fromString (self : Request) (s : Str) :
    Guarded (self.fromString s) (RequestInBounds s) := by
  unfold fromString RequestInBounds
  refine ((Guarded.vecAt _ 1).bind fun _ _ => (Guarded.vecAt _ 2).bind fun _ _ =>
    (Guarded.vecAt _ 3).bind fun _ _ => (Guarded.vecAt _ 4).bind fun _ _ =>
      Guarded.pure _).congr ?_
  rw [and_true]
  omega

/-! ## Whole tokens -/

/-- The last piece of a token is a request if it contains the marker of one. -/
def LastInBounds (p : Str) : Prop :=
  if requestMarker <:+: p then RequestInBounds p else FrameInBounds p

/-- The body of the text has a last piece, and every piece has the fields that are read. -/
def InBounds (s : Str) : Prop :=
  ∀ text, BodyText s text → ∃ ps p, Splits frameMarker text (ps ++ [p]) ∧
    (∀ q ∈ ps, FrameInBounds q) ∧ LastInBounds p

section Token

variable {mac : Mac} {stale : ℕ → ℕ → CapabilityType} {s : Str}

/-- The loop over the pieces of a token, with a request at the end or without. -/
theorem CapabilityToken.guarded_addElements (p : Str) :
    ∀ (ps : List Str) (i : ℕ) (self : CapabilityToken),
      Guarded (addElements mac stale false (decide (requestMarker <:+: p)) i self (ps ++ [p]))
        ((∀ q ∈ ps, FrameInBounds q) ∧ LastInBounds p)
  | [], i, self => by
    rw [List.nil_append, LastInBounds]
    by_cases hp : requestMarker <:+: p
    · rw [if_pos hp, decide_eq_true hp, addElements_request]
      exact ((Request.guarded_fromString _ p).bind fun _ _ => Guarded.pure _).congr (by simp)
    · rw [if_neg hp, decide_eq_false hp, addElements_frame (by simp)]
      exact ((Frame.guarded_fromString _ _ p).bind fun _ _ => Guarded.pure _).congr (by simp)
  | q :: ps, i, self => by
    rw [List.cons_append, addElements_frame (by simp), List.forall_mem_cons, and_assoc]
    exact (Frame.guarded_fromString _ _ q).bind fun _ _ => guarded_addElements p ps _ _

/-- Cutting the text indexes nothing. -/
theorem strFrames_ne_badIndex : strFrames s ≠ .error .badIndex := by
  by_cases hmark : frameMarker <:+: s
  · obtain ⟨tag, text, htag, rfl⟩ := exists_cut hmark
    rw [strFrames_append htag]
    simp
  · rw [strFrames_of_unmarked hmark]
    split_ifs <;> simp

/-- A token needs a piece, and of every piece what its parser needs. -/
theorem CapabilityToken.guarded_fromStringNoTag {ps : List Str} (hps : strFrames s = .ok ps)
    (self : CapabilityToken) : Guarded (self.fromStringNoTag mac stale s false)
      (∃ qs p, ps = qs ++ [p] ∧ (∀ q ∈ qs, FrameInBounds q) ∧ LastInBounds p) := by
  unfold fromStringNoTag
  rw [hps]
  rcases List.eq_nil_or_concat' ps with rfl | ⟨qs, p, rfl⟩
  · exact ⟨by simp, fun _ => rfl⟩
  · have hrequest : decide (0 ≤ findIndex p requestMarker) = decide (requestMarker <:+: p) := by
      simp only [findIndex_nonneg]
    have hguard : Guarded (addElements mac stale false (decide (requestMarker <:+: p)) 0 self
        (qs ++ [p])) _ := guarded_addElements p qs 0 self
    rw [← hrequest] at hguard
    simp only [bind, Except.bind, List.getLast?_concat]
    refine hguard.congr ⟨fun h => ⟨qs, p, rfl, h⟩, ?_⟩
    rintro ⟨qs', p', heq, h⟩
    obtain ⟨rfl, rfl⟩ := List.concat_inj.1 (by simpa using heq)
    exact h

/-- Parsing a text stays within the vectors it is split into exactly if the text is
`InBounds`. A text that is too short to be cut is refused before. -/
theorem parse_in_bounds_iff (mac : Mac) (stale : ℕ → ℕ → CapabilityType) (s : Str) :
    CapabilityToken.empty.fromString mac stale s false ≠ .error .badIndex ↔ InBounds s := by
  have hfromString : CapabilityToken.empty.fromString mac stale s false =
      (CapabilityToken.empty.setTag (tagText s)).fromStringNoTag mac stale s false := rfl
  rw [hfromString]
  cases hps : strFrames s with
  | error fault =>
    have hfault : (CapabilityToken.empty.setTag (tagText s)).fromStringNoTag mac stale s false =
        .error fault := by
      rw [CapabilityToken.fromStringNoTag, hps]
      rfl
    refine iff_of_true ?_ fun text htext => ?_
    · rw [hfault]
      intro h
      obtain rfl := Except.error.inj h
      exact strFrames_ne_badIndex hps
    · obtain ⟨ps, hs⟩ := exists_splits frameMarker_ne_nil text
      simp [strFrames_eq_ok_iff.2 ⟨text, htext, hs⟩] at hps
  | ok ps =>
    rw [(CapabilityToken.guarded_fromStringNoTag hps _).ne_badIndex_iff]
    constructor
    · rintro ⟨qs, p, rfl, h⟩ text htext
      obtain ⟨rs, hs⟩ := exists_splits frameMarker_ne_nil text
      obtain rfl := Except.ok.inj (hps.symm.trans (strFrames_eq_ok_iff.2 ⟨text, htext, hs⟩))
      exact ⟨qs, p, hs, h⟩
    · intro h
      obtain ⟨text, htext, hs⟩ := strFrames_eq_ok_iff.1 hps
      obtain ⟨qs, p, hs', hrest⟩ := h text htext
      exact ⟨qs, p, hs.unique hs', hrest⟩

/-- A marker alone leaves no last piece. -/
theorem not_parse_in_bounds : ¬∀ (mac : Mac) (stale : ℕ → ℕ → CapabilityType) (s : Str),
    CapabilityToken.empty.fromString mac stale s false ≠ .error .badIndex := by
  intro h
  have hfault : CapabilityToken.empty.fromString (.ofTable []) (fun _ _ => .deviceCap)
      "%FRAME%".toList false = .error .badIndex := by
    decide +kernel
  exact h _ _ _ hfault

end Token

end Caplets
