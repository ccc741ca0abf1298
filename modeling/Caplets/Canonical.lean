import Caplets.EndToEnd

/-!
# Texts of the documented format

The format of a token as relations between a text and what is written in it, from the
capability (`CapabilityText`) up to the whole token (`TokenText`). No printer and no parser
occurs in them. A capability, a constraint, a frame and a request are of the format exactly
if they are printed values of honest fields (`frameText_iff`, `requestText_iff`), so a text
of the format is read as what is written in it and printed as it was (`fromString_canonical`).
-/

namespace Caplets

open Delimited

/-! ## The format -/

/-- The digit of a bit. -/
def bitChar (b : Bool) : Char := if b then '1' else '0'

/-- Three binary digits and their value. -/
inductive BitsText : Str → BitVec 3 → Prop
  | written (b₂ b₁ b₀ : Bool) : BitsText [bitChar b₂, bitChar b₁, bitChar b₀]
      (.ofNat 3 (4 * b₂.toNat + 2 * b₁.toNat + b₀.toNat))

/-- `0` for a device, `1` for a user. -/
inductive TypeText : Str → CapabilityType → Prop
  | device : TypeText "0".toList .deviceCap
  | user : TypeText "1".toList .userCap

/-- `resource+type+bits`. -/
inductive CapabilityText : Str → CapabilityStructure → Prop
  | written {resource typeText bitsText : Str} {type : CapabilityType} {bits : BitVec 3} :
      '+' ∉ resource → '$' ∉ resource → '%' ∉ resource → ¬"FUNCTION:".toList <:+: resource →
        TypeText typeText type → BitsText bitsText bits →
          CapabilityText (['+'].intercalate [resource, typeText, bitsText]) ⟨resource, type, bits⟩

/-- `FUNCTION:name:p₁: … :pₙ`. -/
inductive ConstraintText : Str → Constraint → Prop
  | written {name : Str} {parameters : List Str} :
      (∀ x ∈ name :: parameters, x ≠ [] ∧ ':' ∉ x ∧ '$' ∉ x ∧ '%' ∉ x) →
        ConstraintText ("FUNCTION:".toList ++ [':'].intercalate (name :: parameters))
          ⟨name, parameters⟩

/-- Capabilities, and constraints behind them, with `$` in between. -/
inductive FrameText : Str → Frame → Prop
  | written {ps qs : List Str} {cs : List CapabilityStructure} {ks : List Constraint} :
      cs ≠ [] → List.Forall₂ CapabilityText ps cs → List.Forall₂ ConstraintText qs ks →
        FrameText (['$'].intercalate (ps ++ qs)) ⟨cs, ks⟩

/-- `request:resource:handler:value:bits`. -/
inductive RequestText : Str → Request → Prop
  | written {resource handler value bitsText : Str} {bits : BitVec 3} :
      (∀ x ∈ [resource, handler, value], ':' ∉ x ∧ '%' ∉ x) → BitsText bitsText bits →
        RequestText ("request:".toList ++ [':'].intercalate [resource, handler, value, bitsText])
          ⟨⟨resource, .deviceCap, bits⟩, handler, value⟩

/-- The tag is free of `%`, and no character at its ends is trimmed. -/
structure TagText (tag : Str) : Prop where
  percent : '%' ∉ tag
  head : ∀ c ∈ tag.head?, c ∉ ['\t', '\n', '\r', '\x0c', '\x0b']
  last : ∀ c ∈ tag.getLast?, c ∉ ['\t', '\n', '\r', '\x0c', '\x0b']

/-- A tag, and frames with the marker in front of each, and possibly a request with the marker
in front of it. Without a request the last frame is free of the text that starts one. -/
inductive TokenText : Str → Str → List Frame → Option Request → Prop
  | frames {tag : Str} {ps : List Str} {fs : List Frame} :
      TagText tag → fs ≠ [] → List.Forall₂ FrameText ps fs →
        (∀ p ∈ ps.getLast?, ¬"request:".toList <:+: p) →
          TokenText (tag ++ ps.flatMap ("%FRAME%".toList ++ ·)) tag fs none
  | request {tag p : Str} {ps : List Str} {fs : List Frame} {r : Request} :
      TagText tag → fs ≠ [] → List.Forall₂ FrameText ps fs → RequestText p r →
        TokenText (tag ++ (ps ++ [p]).flatMap ("%FRAME%".toList ++ ·)) tag fs (some r)

/-- The token that is written. -/
def writtenToken (tag : Str) (fs : List Frame) (request : Option Request) : CapabilityToken :=
  ⟨tag, fs.map .frame ++ request.toList.map .request, request⟩

/-! ## Texts of the format are printed values -/

theorem bitsText_iff {s : Str} {b : BitVec 3} : BitsText s b ↔ s = bitsToString b := by
  have hprint : ∀ b₂ b₁ b₀ : Bool, bitsToString (.ofNat 3 (4 * b₂.toNat + 2 * b₁.toNat +
      b₀.toNat)) = [bitChar b₂, bitChar b₁, bitChar b₀] := by decide
  have hvalue : ∀ b : BitVec 3, .ofNat 3 (4 * (b.getLsbD 2).toNat + 2 * (b.getLsbD 1).toNat +
      (b.getLsbD 0).toNat) = b := by decide
  constructor
  · rintro ⟨b₂, b₁, b₀⟩
    exact (hprint _ _ _).symm
  · rintro rfl
    have hwritten := BitsText.written (b.getLsbD 2) (b.getLsbD 1) (b.getLsbD 0)
    rwa [← hprint, hvalue] at hwritten

theorem typeText_iff {s : Str} {t : CapabilityType} : TypeText s t ↔
    (t = .deviceCap ∨ t = .userCap) ∧ s = Nat.toDigits 10 t.value := by
  constructor
  · rintro (_ | _)
    · exact ⟨Or.inl rfl, rfl⟩
    · exact ⟨Or.inr rfl, rfl⟩
  · rintro ⟨rfl | rfl, rfl⟩
    · exact .device
    · exact .user

/-- The texts of capabilities are the printed ones of the format. -/
theorem capabilityText_iff {s : Str} {c : CapabilityStructure} : CapabilityText s c ↔
    (c.TypeSet ∧ '+' ∉ c.resource ∧ '$' ∉ c.resource ∧ '%' ∉ c.resource ∧
      ¬functionMarker <:+: c.resource) ∧ s = c.toString := by
  rw [CapabilityStructure.toString_eq]
  constructor
  · rintro ⟨hplus, hdollar, hpercent, hfunction, htext, hbits⟩
    obtain ⟨htype, rfl⟩ := typeText_iff.1 htext
    obtain rfl := bitsText_iff.1 hbits
    exact ⟨⟨htype, hplus, hdollar, hpercent, hfunction⟩, rfl⟩
  · rintro ⟨⟨htype, hplus, hdollar, hpercent, hfunction⟩, rfl⟩
    exact .written hplus hdollar hpercent hfunction (typeText_iff.2 ⟨htype, rfl⟩)
      (bitsText_iff.2 rfl)

/-- The same for constraints. -/
theorem constraintText_iff {s : Str} {k : Constraint} : ConstraintText s k ↔
    (∀ x ∈ k.fields, x ≠ [] ∧ ':' ∉ x ∧ '$' ∉ x ∧ '%' ∉ x) ∧ s = k.toString := by
  have htext : k.toString = "FUNCTION:".toList ++ [':'].intercalate k.fields := by
    rw [Constraint.toString_eq]
    rfl
  rw [htext]
  constructor
  · rintro ⟨hfields⟩
    exact ⟨hfields, rfl⟩
  · rintro ⟨hfields, rfl⟩
    exact .written hfields

/-- Where a text determines its value, so do several texts. -/
theorem forall₂_iff_map {α : Type*} {R : Str → α → Prop} {P : α → Prop} {g : α → Str}
    (h : ∀ s x, R s x ↔ P x ∧ s = g x) :
    ∀ {ps : List Str} {xs : List α}, List.Forall₂ R ps xs ↔ (∀ x ∈ xs, P x) ∧ ps = xs.map g
  | ps, [] => by simp
  | ps, x :: xs => by
    rw [List.forall₂_cons_right_iff]
    simp only [forall₂_iff_map h, h, List.forall_mem_cons, List.map_cons]
    constructor
    · rintro ⟨p, ps, ⟨hx, rfl⟩, ⟨hxs, rfl⟩, rfl⟩
      exact ⟨⟨hx, hxs⟩, rfl⟩
    · rintro ⟨⟨hx, hxs⟩, rfl⟩
      exact ⟨_, _, ⟨hx, rfl⟩, ⟨hxs, rfl⟩, rfl⟩

/-- The same for frames, which are the honest ones. -/
theorem frameText_iff {s : Str} {f : Frame} : FrameText s f ↔ f.Honest ∧ s = f.toString := by
  constructor
  · rintro ⟨hne, hps, hqs⟩
    obtain ⟨hcs, rfl⟩ := (forall₂_iff_map (R := CapabilityText) fun _ _ => capabilityText_iff).1 hps
    obtain ⟨hks, rfl⟩ := (forall₂_iff_map (R := ConstraintText) fun _ _ => constraintText_iff).1 hqs
    exact ⟨⟨hne, fun c hc => (hcs c hc).1, fun c hc => (hcs c hc).2, hks⟩,
      (Frame.toString_eq_intercalate (f := ⟨_, _⟩) hne).symm⟩
  · rintro ⟨hf, rfl⟩
    rw [Frame.toString_eq_intercalate hf.capabilities]
    exact .written hf.capabilities
      ((forall₂_iff_map (R := CapabilityText) fun _ _ => capabilityText_iff).2
        ⟨fun c hc => ⟨hf.types c hc, hf.resources c hc⟩, rfl⟩)
      ((forall₂_iff_map (R := ConstraintText) fun _ _ => constraintText_iff).2 ⟨hf.fields, rfl⟩)

theorem frameTexts_iff {ps : List Str} {fs : List Frame} :
    List.Forall₂ FrameText ps fs ↔ (∀ f ∈ fs, f.Honest) ∧ ps = fs.map Frame.toString :=
  forall₂_iff_map (R := FrameText) fun _ _ => frameText_iff

/-- The same for requests. -/
theorem requestText_iff {s : Str} {r : Request} :
    RequestText s r ↔ r.Honest ∧ s = r.toString := by
  rw [Request.toString_eq]
  constructor
  · rintro ⟨hfields, hbits⟩
    obtain rfl := bitsText_iff.1 hbits
    refine ⟨⟨⟨?_, ?_, ?_, rfl⟩, fun x hx => (hfields x hx).2⟩, rfl⟩
    · exact (hfields _ (by simp)).1
    · exact (hfields _ (by simp)).1
    · exact (hfields _ (by simp)).1
  · obtain ⟨⟨resource, type, bits⟩, handler, value⟩ := r
    rintro ⟨⟨⟨hresource, hhandler, hvalue, rfl⟩, hpercent⟩, rfl⟩
    refine .written (fun x hx => ⟨?_, hpercent x hx⟩) (bitsText_iff.2 rfl)
    simp only [List.mem_cons, List.not_mem_nil, or_false] at hx
    rcases hx with rfl | rfl | rfl
    exacts [hresource, hhandler, hvalue]

/-! ## Tokens -/

namespace TagText

variable {tag : Str}

theorem trim_eq (h : TagText tag) : trim tag = tag := by
  have htrimmed : ∀ c, isTrimmed c = true → c ∈ ['\t', '\n', '\r', '\x0c', '\x0b'] := by
    intro c hc
    simpa [isTrimmed, or_assoc] using hc
  exact trim_eq_self_of_ends (fun c hc => by simpa using mt (htrimmed c) (h.head c hc))
    fun c hc => by simpa using mt (htrimmed c) (h.last c hc)

theorem first_frameMarker (h : TagText tag) : First frameMarker tag :=
  first_frameMarker_of_not_mem h.percent

end TagText

/-- The tags of the MAC are of the format. -/
theorem IsTag.tagText {tag : Str} (h : IsTag tag) : TagText tag := by
  have hfree : ∀ c ∈ tag, c ∉ ['\t', '\n', '\r', '\x0c', '\x0b'] := by
    intro c hc hmem
    simp only [List.mem_cons, List.not_mem_nil, or_false] at hmem
    rcases hmem with rfl | rfl | rfl | rfl | rfl
    all_goals exact absurd hc (h.not_mem (by decide))
  exact ⟨h.not_mem (by decide), fun c hc => hfree c (List.mem_of_head? hc),
    fun c hc => hfree c (List.mem_of_getLast? hc)⟩

section Token

variable {s tag : Str} {fs : List Frame} {request : Option Request}

theorem toString_writtenToken : (writtenToken tag fs request).toString true =
    tag ++ (fs.map Frame.toString ++ request.toList.map Request.toString).flatMap
      (frameMarker ++ ·) := by
  rw [CapabilityToken.toString, if_pos rfl, writtenToken, List.flatMap_append, List.flatMap_map,
    List.flatMap_map, List.flatMap_append, List.flatMap_map, List.flatMap_map]
  rfl

/-- The texts of tokens are the printed tokens of honest elements. -/
theorem tokenText_iff : TokenText s tag fs request ↔
    (TagText tag ∧ fs ≠ [] ∧ (∀ f ∈ fs, f.Honest) ∧ (∀ r ∈ request, r.Honest) ∧
      (request = none → ∃ f ∈ fs.getLast?, ¬requestMarker <:+: f.toString)) ∧
      s = (writtenToken tag fs request).toString true := by
  rw [toString_writtenToken]
  constructor
  · intro h
    cases h with
    | frames htag hne hps hlast =>
      obtain ⟨hfs, rfl⟩ := frameTexts_iff.1 hps
      obtain ⟨gs, f, rfl⟩ := (List.eq_nil_or_concat' fs).resolve_left hne
      refine ⟨⟨htag, hne, hfs, by simp, fun _ => ⟨f, by simp, hlast _ (by simp)⟩⟩, ?_⟩
      rw [Option.toList_none, List.map_nil, List.append_nil]
      rfl
    | request htag hne hps hr =>
      obtain ⟨hfs, rfl⟩ := frameTexts_iff.1 hps
      obtain ⟨hr, rfl⟩ := requestText_iff.1 hr
      refine ⟨⟨htag, hne, hfs, fun r' hr' => ?_, by simp⟩, rfl⟩
      rwa [← Option.some.inj hr']
  · rintro ⟨⟨htag, hne, hfs, hreq, hlast⟩, rfl⟩
    have hps : List.Forall₂ FrameText (fs.map Frame.toString) fs := frameTexts_iff.2 ⟨hfs, rfl⟩
    cases request with
    | none =>
      obtain ⟨f, hf, hmark⟩ := hlast rfl
      rw [Option.toList_none, List.map_nil, List.append_nil]
      refine .frames htag hne hps fun p hp => ?_
      obtain rfl : f.toString = p := by simpa [Option.mem_def.1 hf] using hp
      exact hmark
    | some r => exact .request htag hne hps (requestText_iff.2 ⟨hreq r rfl, rfl⟩)

theorem lastRequest_body_writtenToken (hne : fs ≠ []) :
    Element.lastRequest (writtenToken tag fs request).body = request := by
  cases request with
  | none =>
    obtain ⟨gs, f, rfl⟩ := (List.eq_nil_or_concat' fs).resolve_left hne
    simp [writtenToken]
  | some r => exact Element.lastRequest_append_request _ _

/-- A text of the format is read as what is written in it, and printed as it was. -/
theorem fromString_canonical (mac : Mac) (stale : ℕ → ℕ → CapabilityType)
    (h : TokenText s tag fs request) :
    CapabilityToken.empty.fromString mac stale s false = .ok (writtenToken tag fs request) ∧
      (writtenToken tag fs request).toString true = s := by
  obtain ⟨⟨htag, hne, hfs, hreq, hlast⟩, rfl⟩ := tokenText_iff.1 h
  have hbody : (writtenToken tag fs request).body ≠ [] := by simp [writtenToken, hne]
  have hfirst : First frameMarker (writtenToken tag fs request).tag := htag.first_frameMarker
  refine ⟨CapabilityToken.fromString_false_eq_ok.2
    ⟨(writtenToken tag fs request).body, ?_, ?_⟩, rfl⟩
  · rw [CapabilityToken.toString_true_eq hbody]
    exact readsBody_honest hfirst hfs hreq hlast
  · rw [CapabilityToken.toString_true_eq hbody, tagText_append hfirst,
      lastRequest_body_writtenToken hne]
    exact congrArg (CapabilityToken.mk · _ _) htag.trim_eq.symm

end Token

/-- The text of a delegated token is of the format. -/
theorem tokenText_delegated : TokenText (delegatedTag ++ delegatedBody) delegatedTag delegatedFrames
    (some delegatedRequest) := by
  refine tokenText_iff.2 ⟨⟨(isTag_hexEncode _).tagText, by simp [delegatedFrames],
    HonestRun.delegated.frames_honest, fun r hr => ?_, by simp⟩, ?_⟩
  · rw [← Option.some.inj hr]
    exact HonestRun.delegated.request_honest
  · decide +kernel

theorem fromString_canonical_delegated :
    CapabilityToken.empty.fromString delegatedMac (fun _ _ => .ownerCap)
      (delegatedTag ++ delegatedBody) false = .ok delegatedToken ∧
        delegatedToken.toString true = delegatedTag ++ delegatedBody :=
  fromString_canonical delegatedMac _ tokenText_delegated

end Caplets
