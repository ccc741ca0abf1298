import Caplets.Bodies
import Caplets.Scan

/-!
# Splitting and joining

What `splitString` does for any content and any delimiter that is not empty : its loop ends,
and the pieces it appends are the content cut at the matches that a scan from left to right
finds (`splitString_lossless`). Splitting a joined text gives its parts back for every
delimiter of one letter. For the marker it does so exactly if no part but the last ends in
the marker without its last character, since that end and the first character of the marker
behind it are an earlier match (`splitString_intercalate`).
-/

namespace Caplets

open Delimited

/-! ## Splitting loses nothing -/

/-- The loop ends and appends pieces free of the delimiter. Joined they are the content, but
for a delimiter at its end if that is the last match from left to right. -/
theorem splitString_lossless (content delimeter : Str) (hd : delimeter ≠ []) : ∃ ps ms,
    (∀ result fuel, content.length < fuel →
      splitLoop delimeter fuel result content = some (result ++ ps)) ∧
    (∀ result, splitString result content delimeter = result ++ ps) ∧
    (∀ p ∈ ps, ¬delimeter <:+: p) ∧
    (∀ ms', Scan delimeter content ms' ↔ ms' = ms) ∧
    (content = delimeter.intercalate ps ↔ ¬EndsInMatch delimeter content ms) ∧
    (content = delimeter.intercalate ps ++ delimeter ↔ EndsInMatch delimeter content ms) := by
  obtain ⟨ps, hps⟩ := exists_splits hd content
  obtain ⟨ms, hms⟩ := exists_scan hd content
  have hend := hps.intercalate_append_iff hd hms
  refine ⟨ps, ms, fun result fuel => splitLoop_eq hps hd result, splitString_eq hps hd,
    hps.free_of_mem, fun ms' => ⟨fun h => h.unique hd hms, ?_⟩, ?_, hend⟩
  · rintro rfl
    exact hms
  · rw [← hend]
    constructor
    · intro hjoin hlong
      exact hd (List.self_eq_append_right.1 (hjoin.symm.trans hlong))
    · exact fun hlong => hps.intercalate_eq.resolve_right hlong

/-- A content with a doubled delimiter and one at its end. -/
theorem splitString_lossless_resource : ∃ ps ms,
    splitString [['x']] "/a//b/".toList ['/'] = ['x'] :: ps ∧
      (∀ ms', Scan ['/'] "/a//b/".toList ms' ↔ ms' = ms) ∧
      ("/a//b/".toList = ['/'].intercalate ps ++ ['/'] ↔ EndsInMatch ['/'] "/a//b/".toList ms) := by
  obtain ⟨ps, ms, -, hsplit, -, hscan, -, hend⟩ :=
    splitString_lossless "/a//b/".toList ['/'] (by simp)
  exact ⟨ps, ms, hsplit _, hscan, hend⟩

example : splitString [] "%FRAME%FRAME%%FRAME%".toList frameMarker = [[], "FRAME%".toList] := by
  decide

/-! ## Splitting what was joined -/

/-- Parts free of the delimiter, the last one not empty, are given back by splitting their join
if the delimiter is one letter, and for the marker exactly if only the last part may end in
the marker without its last character. -/
theorem splitString_intercalate :
    (∀ (c : Char) (ps : List Str), ps ≠ [] → (∀ p ∈ ps, ¬[c] <:+: p) →
      (∀ p ∈ ps.getLast?, p ≠ []) → splitString [] ([c].intercalate ps) [c] = ps) ∧
    ∀ ps : List Str, ps ≠ [] → (∀ p ∈ ps, ¬frameMarker <:+: p) → (∀ p ∈ ps.getLast?, p ≠ []) →
      (splitString [] (frameMarker.intercalate ps) frameMarker = ps ↔
        ∀ p ∈ ps.dropLast, ¬cutMarker <:+ p) := by
  constructor
  · intro c ps _ hfree hlast
    refine (splitString_eq_iff (by simp)).2 (splits_intercalate_singleton (fun p hp => ?_) hlast)
    rw [← singleton_infix_iff]
    exact hfree p hp
  · intro ps _ hfree hlast
    rw [splitString_eq_iff frameMarker_ne_nil, splits_intercalate_iff frameMarker_ne_nil]
    constructor
    · exact fun h p hp => (first_frameMarker_iff.1 (h.1 p hp)).2
    · intro h
      refine ⟨fun p hp => ?_, fun p hp => ⟨hlast p hp, hfree p (List.mem_of_getLast? hp)⟩⟩
      exact first_frameMarker_iff.2 ⟨hfree p (List.mem_of_mem_dropLast hp), h p hp⟩

/-- Only the last part ends in the start of a marker. -/
theorem splitString_intercalate_frames :
    splitString [] (frameMarker.intercalate ["/a+0+111".toList, [], "%FRAME".toList]) frameMarker =
      ["/a+0+111".toList, [], "%FRAME".toList] :=
  (splitString_intercalate.2 ["/a+0+111".toList, [], "%FRAME".toList] (by simp) (by decide)
    (by decide)).2 (by decide)

/-- The first of two parts ends in the start of a marker, and the join is cut inside it. -/
theorem not_splitString_intercalate :
    ¬∀ d ∈ [['+'], ['$'], [':'], ['/'], frameMarker], ∀ ps : List Str, ps ≠ [] →
      (∀ p ∈ ps, ¬d <:+: p) → (∀ p ∈ ps.getLast?, p ≠ []) →
        splitString [] (d.intercalate ps) d = ps := by
  intro h
  have hjoin := h frameMarker (by simp) ["%FRAME".toList, "a".toList] (by simp) (by decide)
    (by decide)
  exact absurd hjoin (by decide)

end Caplets
