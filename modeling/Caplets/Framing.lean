import Caplets.Bodies

/-!
# Where a token is cut

`from_string` cuts its text in front of the first marker for the tag, and behind it for the
body. If there is no marker, `find` returns `std::string::npos` for both. The tag is then the
whole text, but `npos + 7` is 6, and the body is what follows the first six characters. So
the cut loses and invents nothing exactly if there is a marker (`framing_iff`).
-/

namespace Caplets

open Delimited

variable {s text : Str} {ps : List Str}

/-- `text` is the body that `s` is cut to : what follows the first marker, or the first six
characters if there is none. -/
inductive BodyText : Str → Str → Prop
  | marked {tag text : Str} :
      First frameMarker tag → BodyText (tag ++ frameMarker ++ text) text
  | unmarked {start text : Str} :
      start.length = 6 → ¬frameMarker <:+: start ++ text → BodyText (start ++ text) text

theorem exists_cut (h : frameMarker <:+: s) :
    ∃ tag text, First frameMarker tag ∧ s = tag ++ frameMarker ++ text := by
  cases hf : find? frameMarker s with
  | none => exact absurd h (find?_eq_none.1 hf)
  | some n =>
    obtain ⟨tag, text, rfl, -, htag⟩ := exists_of_find? frameMarker_ne_nil hf
    exact ⟨tag, text, htag, rfl⟩

theorem strFrames_of_unmarked (h : ¬frameMarker <:+: s) : strFrames s =
    if s.length < 6 then .error .outOfRange
    else .ok (splitString [] (s.drop 6) frameMarker) := by
  simp only [strFrames, find?_eq_none.2 h, substr]
  split_ifs with hlen
  · rfl
  · rw [List.take_of_length_le (by simp)]
    rfl

/-- The pieces of a token are those of its body. -/
theorem strFrames_eq_ok_iff :
    strFrames s = .ok ps ↔ ∃ text, BodyText s text ∧ Splits frameMarker text ps := by
  constructor
  · intro h
    by_cases hmark : frameMarker <:+: s
    · obtain ⟨tag, text, htag, rfl⟩ := exists_cut hmark
      exact ⟨text, .marked htag, (strFrames_append_iff htag).1 h⟩
    · rw [strFrames_of_unmarked hmark] at h
      split_ifs at h with hlen
      refine ⟨s.drop 6, ?_, (splitString_eq_iff frameMarker_ne_nil).1 (Except.ok.inj h)⟩
      have hcut := List.take_append_drop 6 s
      have hstart : (s.take 6).length = 6 := by
        rw [List.length_take]
        omega
      rw [← hcut] at hmark
      have hbody := BodyText.unmarked hstart hmark
      rwa [hcut] at hbody
  · rintro ⟨text, hbody, hs⟩
    cases hbody with
    | marked htag => exact (strFrames_append_iff htag).2 hs
    | @unmarked start _ hstart hmark =>
      have hdrop : (start ++ text).drop 6 = text := by rw [← hstart, List.drop_left]
      have hlen : ¬(start ++ text).length < 6 := by
        rw [List.length_append]
        omega
      rw [strFrames_of_unmarked hmark, if_neg hlen, hdrop,
        (splitString_eq_iff frameMarker_ne_nil).2 hs]

/-- The tag text and the pieces, each with a marker in front, are the whole text, but for one
marker that may stand at its end. Without a marker there are no pieces. -/
def Framed (s : Str) (ps : List Str) : Prop :=
  (s = tagText s ++ frameMarker ++ frameMarker.intercalate ps ∨
    s = tagText s ++ frameMarker ++ frameMarker.intercalate ps ++ frameMarker) ∧
  (¬frameMarker <:+: s → ps = [])

theorem framed_iff (h : strFrames s = .ok ps) : Framed s ps ↔ frameMarker <:+: s := by
  constructor
  · rintro ⟨heq | heq, -⟩
    · rw [heq]
      exact infix_cut _ _ _
    · rw [heq]
      exact (infix_cut _ _ _).trans (List.prefix_append _ _).isInfix
  · intro hmark
    refine ⟨?_, fun hnot => absurd hmark hnot⟩
    obtain ⟨tag, text, htag, rfl⟩ := exists_cut hmark
    rw [tagText_append htag]
    rcases ((strFrames_append_iff htag).1 h).intercalate_eq with heq | heq
    · exact Or.inl (by rw [← heq])
    · exact Or.inr (by rw [heq, List.append_assoc _ _ frameMarker])

namespace IdentityToken

/-- The second piece is the identity and the third one the request tag. What is missing stays
as it was. -/
theorem fromString_eq_ok {self i : IdentityToken} : self.fromString s = .ok i ↔
    ∃ ps, strFrames s = .ok ps ∧ i = ⟨trim (tagText s), ps[1]?.getD self.identityToken,
      ps[2]?.getD self.requestTag⟩ := by
  rw [fromString, bind_eq_ok]
  refine exists_congr fun ps => and_congr_right fun _ => ?_
  rw [pure_eq_ok, eq_comm]
  cases ps[1]? <;> cases ps[2]? <;> rfl

end IdentityToken

/-- No byte of a token is skipped, and none is read both as tag and as frame, exactly if the
marker occurs in it. -/
theorem framing_iff (mac : Mac) (stale : ℕ → ℕ → CapabilityType) (s : Str) :
    (∀ self t, CapabilityToken.fromString mac stale self s false = .ok t →
      ∃ ps es, strFrames s = .ok ps ∧ t.tag = trim (tagText s) ∧ t.body = self.body ++ es ∧
        es.length = ps.length ∧ (Framed s ps ↔ frameMarker <:+: s)) ∧
    ∀ self i, IdentityToken.fromString self s = .ok i →
      ∃ ps, strFrames s = .ok ps ∧ i.tag = trim (tagText s) ∧
        i.identityToken = ps[1]?.getD self.identityToken ∧
          i.requestTag = ps[2]?.getD self.requestTag ∧ (Framed s ps ↔ frameMarker <:+: s) := by
  refine ⟨fun self t h => ?_, fun self i h => ?_⟩
  · obtain ⟨es, ⟨ps, last, hps, hlast, hr⟩, rfl⟩ :=
      CapabilityToken.fromString_false_eq_ok_of_self.1 h
    exact ⟨ps, es, hps, rfl, rfl, hr.length_eq, framed_iff hps⟩
  · obtain ⟨ps, hps, rfl⟩ := IdentityToken.fromString_eq_ok.1 h
    exact ⟨ps, hps, rfl, rfl, rfl, framed_iff hps⟩

/-- Nothing of a delegated token and of the identity token behind it is lost. -/
theorem framing_delegated : ∃ ps, strFrames (delegatedTag ++ delegatedBody) = .ok ps ∧
    Framed (delegatedTag ++ delegatedBody) ps := by
  obtain ⟨ps, -, hps, -, -, -, hframed⟩ :=
    (framing_iff delegatedMac (fun _ _ => .ownerCap) (delegatedTag ++ delegatedBody)).1
      .empty delegatedToken fromString_delegatedBody
  exact ⟨ps, hps, hframed.2 (by decide +kernel)⟩

/-- A text without a marker is taken for a tag, and for a frame from its seventh character
on. -/
theorem not_framing : ¬∀ (mac : Mac) (stale : ℕ → ℕ → CapabilityType) (s : Str)
    (t : CapabilityToken), CapabilityToken.empty.fromString mac stale s false = .ok t →
      ∀ ps, strFrames s = .ok ps → Framed s ps := by
  intro h
  have hps : strFrames "DDDDDD/a+0+111".toList = .ok ["/a+0+111".toList] := by decide
  have hparsed : CapabilityToken.empty.fromString (.ofTable []) (fun _ _ => .deviceCap)
      "DDDDDD/a+0+111".toList false =
        .ok ⟨"DDDDDD/a+0+111".toList, [.frame ⟨[⟨"/a".toList, .deviceCap, 0b111⟩], []⟩], none⟩ := by
    decide +kernel
  exact absurd ((h _ _ _ _ hparsed _ hps).2 (by decide)) (by simp)

end Caplets
