import Caplets.Bodies

/-!
# Minted tokens after transport

A minted token is sent as its printed text and parsed from it. The parser normalises on the
way in, and the printed text of what it read is not always read the same way again. It is
exactly if the token is `Transportable` (`transport_iff`) : every frame is `Readable`, no
frame but the last ends in a marker without its last character, and the last frame is not
empty.
-/

namespace Caplets

open Delimited KeyedChain

/-! ## The end of a printed frame -/

theorem Constraint.cutMarker_suffix_iff {k : Constraint} :
    cutMarker <:+ k.toString ↔ ∃ x ∈ k.fields.getLast?, cutMarker <:+ x := by
  obtain ⟨xs, x, hx⟩ := (List.eq_nil_or_concat' k.fields).resolve_left (by simp [fields])
  rw [toString_eq_intercalate, hx, ← List.cons_append]
  simp only [List.getLast?_concat, Option.mem_some_iff, exists_eq_left']
  constructor
  · rintro ⟨q, hq⟩
    obtain ⟨l₀, rfl, -⟩ := exists_of_intercalate_eq_append (by decide) hq.symm
    exact List.suffix_append _ _
  · exact fun h => h.trans (suffix_intercalate _ _ _)

namespace Frame

/-- The last field of the last constraint ends in the marker but for its last character. -/
def EndsInMarker (f : Frame) : Prop :=
  ∃ k ∈ f.constraints.getLast?, ∃ x ∈ k.fields.getLast?, cutMarker <:+ x

instance (f : Frame) : Decidable f.EndsInMarker :=
  inferInstanceAs (Decidable (∃ k ∈ f.constraints.getLast?, ∃ x ∈ k.fields.getLast?,
    cutMarker <:+ x))

theorem exists_toString_eq {f : Frame} {ps : List Str} {p : Str} (h : f.pieces = ps ++ [p]) :
    ∃ qs, f.toString = ['$'].intercalate (qs ++ [p]) := by
  rcases eq_or_ne f.capabilities [] with hc | hc
  · refine ⟨[] :: ps, ?_⟩
    rw [List.cons_append, intercalate_cons_eq, ← h, toString_of_capabilities_nil hc, pieces, hc]
    rfl
  · exact ⟨ps, by rw [toString_eq_intercalate hc, h]⟩

/-- A printed frame ends in a cut marker only with its last field. -/
theorem cutMarker_suffix_iff {f : Frame} : cutMarker <:+ f.toString ↔ f.EndsInMarker := by
  rcases List.eq_nil_or_concat' f.pieces with h | ⟨ps, p, hp⟩
  · obtain ⟨hcaps, hcons⟩ : f.capabilities = [] ∧ f.constraints = [] := by simpa [pieces] using h
    have htext : f.toString = [] := by simp [toString, hcaps, hcons]
    rw [htext, EndsInMarker, hcons, List.suffix_nil]
    simp [cutMarker]
  · obtain ⟨qs, hqs⟩ := exists_toString_eq hp
    have hlast : cutMarker <:+ f.toString ↔ cutMarker <:+ p := by
      rw [hqs]
      constructor
      · rintro ⟨q, hq⟩
        obtain ⟨l₀, rfl, -⟩ := exists_of_intercalate_eq_append (by decide) hq.symm
        exact List.suffix_append _ _
      · exact fun h => h.trans (suffix_intercalate _ _ _)
    rw [hlast, EndsInMarker]
    rcases List.eq_nil_or_concat' f.constraints with hk | ⟨ks, k, hk⟩
    · have hmem : p ∈ f.pieces := by simp [hp]
      simp only [pieces, hk, List.map_nil, List.append_nil, List.mem_map] at hmem
      obtain ⟨c, -, rfl⟩ := hmem
      simp only [hk, List.getLast?_nil, Option.mem_def, reduceCtorEq, false_and, exists_false,
        iff_false]
      rintro ⟨q, hq⟩
      have hend := CapabilityStructure.getLast?_toString c
      rw [← hq, List.getLast?_append, show cutMarker.getLast? = some 'E' from rfl,
        Option.some_or] at hend
      exact not_mem_bitsToString (by decide) (by decide) _ (List.mem_of_getLast? hend.symm)
    · rw [pieces, hk, List.map_append, List.map_singleton, ← List.append_assoc] at hp
      obtain rfl : k.toString = p := by simpa using (List.append_inj' hp rfl).2
      rw [hk, List.getLast?_concat, Constraint.cutMarker_suffix_iff]
      simp

end Frame

/-! ## Printed elements cut again -/

namespace Element

variable {stale : ℕ → ℕ → CapabilityType}

/-- Pieces of printed elements that are read as these elements are the printed elements.
A cut inside a printed frame leaves a piece that is not read as the frame. -/
theorem pieces_eq_of_reads {q : Str} {e : Element} (hfree : ¬frameMarker <:+: e.toString) :
    ∀ {fs : List Frame} {i : ℕ} {qs : List Str}, (∀ f ∈ fs, f.Clean) →
      (∀ f ∈ fs, ¬frameMarker <:+: f.toString) →
        Splits frameMarker (frameMarker.intercalate ((fs.map frame ++ [e]).map toString))
          (qs ++ [q]) →
          Reads stale false i qs (fs.map frame) → qs ++ [q] = (fs.map frame ++ [e]).map toString
  | [], i, qs, _, _, hs, hr => by
    cases hr
    simp only [List.map_nil, List.nil_append, List.map_singleton, List.intercalate_singleton]
      at hs ⊢
    refine hs.eq_singleton (fun h0 => ?_) hfree
    rw [h0] at hs
    simpa using hs.unique .nil
  | f :: fs, i, qs, hclean, hmark, hs, hr => by
    generalize hes : (f :: fs).map Element.frame = es at hr
    cases hr with
    | nil => simp at hes
    | request h _ => exact absurd h (by simp)
    | @frame _ q₁ qs g es _ hg hr =>
      obtain ⟨rfl, rfl⟩ : f = g ∧ fs.map .frame = es := by simpa using hes
      obtain ⟨p, ps, hps⟩ : ∃ p ps, (fs.map Element.frame ++ [e]).map toString = p :: ps :=
        List.exists_cons_of_ne_nil (by simp)
      rw [List.map_cons, List.cons_append, List.map_cons, hps, List.intercalate_cons_cons, ← hps]
        at hs
      by_cases hfirst : First frameMarker f.toString
      · obtain ⟨qs', hqs', hrest⟩ := hs.eq_cons_of_first hfirst
        obtain ⟨rfl, rfl⟩ : q₁ = f.toString ∧ qs ++ [q] = qs' := by simpa using hqs'
        have ih := pieces_eq_of_reads hfree (fun g hg => hclean g (by simp [hg]))
          (fun g hg => hmark g (by simp [hg])) hrest hr
        simp [ih]
      · -- the cut is in front of the marker, inside the text of `f`
        rw [first_frameMarker_iff, not_and, not_not] at hfirst
        obtain ⟨l, hl⟩ := hfirst (hmark f (by simp))
        have hfree' : ¬frameMarker <:+: l ++ cutMarker := hl ▸ hmark f (by simp)
        have hcut : First frameMarker l := by
          rwa [First, dropLast_frameMarker]
        have htext : f.toString ++ frameMarker ++ frameMarker.intercalate
            ((fs.map Element.frame ++ [e]).map toString) = l ++ frameMarker ++ (cutMarker.tail ++
              '%' :: frameMarker.intercalate ((fs.map Element.frame ++ [e]).map toString)) := by
          rw [← hl, List.append_assoc, List.append_assoc, List.append_assoc]
          rfl
        rw [toString_frame, htext] at hs
        obtain ⟨qs', hqs', -⟩ := hs.eq_cons_of_first hcut
        obtain ⟨rfl, -⟩ : q₁ = l ∧ qs ++ [q] = qs' := by simpa using hqs'
        exact absurd hg (Frame.fromString_ne_of_append (hclean f (by simp)) (a := 'E') rfl
          (by decide) (by decide) (by decide) hl.symm)

/-- Printed frames are read back. -/
theorem reads_printed :
    ∀ {fs : List Frame} {i : ℕ}, (∀ f ∈ fs, f.Clean ∧ f.Readable) →
      Reads stale false i ((fs.map frame).map toString) (fs.map frame)
  | [], _, _ => .nil
  | f :: _, _, h =>
    .frame (by simp) (Frame.fromString_toString (h f (by simp)).1 (h f (by simp)).2)
      (reads_printed fun g hg => h g (by simp [hg]))

theorem exists_fromString_of_reads_printed :
    ∀ {fs : List Frame} {i : ℕ}, Reads stale false i ((fs.map frame).map toString) (fs.map frame) →
      ∀ f ∈ fs, ∃ j, Frame.empty.fromString (stale j) f.toString = .ok f
  | [], _, _, _, hf => absurd hf (by simp)
  | g :: fs, i, h, f, hf => by
    obtain ⟨hg, hr⟩ := h.of_cons_frame
    rcases List.mem_cons.1 hf with rfl | hf
    · exact ⟨i, hg⟩
    · exact exists_fromString_of_reads_printed hr f hf

end Element

/-! ## Transport -/

/-- The printed body is read as the same body. -/
structure Transportable (es : List Element) : Prop where
  readable : ∀ f, .frame f ∈ es → f.Readable
  /-- The marker after a frame starts at its end. -/
  marker : ∀ f, .frame f ∈ es.dropLast → ¬f.EndsInMarker
  /-- An empty last piece is dropped. -/
  last : es.getLast? ≠ some (.frame .empty)

instance (es : List Element) : Decidable (Transportable es) :=
  decidable_of_iff ((∀ e ∈ es, ∀ f ∈ e.frame?, f.Readable) ∧
      (∀ e ∈ es.dropLast, ∀ f ∈ e.frame?, ¬f.EndsInMarker) ∧ es.getLast? ≠ some (.frame .empty))
    ⟨fun h => ⟨fun f hf => h.1 _ hf f rfl, fun f hf => h.2.1 _ hf f rfl, h.2.2⟩,
      fun h => ⟨fun _ he f hf => h.readable f (Element.frame?_eq_some.1 hf ▸ he),
        fun _ he f hf => h.marker f (Element.frame?_eq_some.1 hf ▸ he), h.last⟩⟩

/-- Frames of which none ends in the start of a marker, with a request behind them. -/
theorem transportable_of_frames {fs : List Frame} {r : Request}
    (h : ∀ f ∈ fs, f.Readable ∧ ¬f.EndsInMarker) :
    Transportable (fs.map .frame ++ [.request r]) :=
  ⟨fun f hf => (h f (by simpa using hf)).1, fun f hf => (h f (by simpa using hf)).2, by simp⟩

namespace CapabilityToken

/-- A token is printed as its tag and its elements, each behind a marker. -/
theorem toString_eq {t : CapabilityToken} (h : t.body ≠ []) (containTag : Bool) :
    t.toString containTag = (if containTag then t.tag else []) ++ frameMarker ++
      frameMarker.intercalate (t.body.map Element.toString) := by
  obtain ⟨e, es, hes⟩ := List.exists_cons_of_ne_nil h
  have hmap : t.body.flatMap (fun e => frameMarker ++ e.toString) =
      (t.body.map Element.toString).flatMap (frameMarker ++ ·) := by
    rw [List.flatMap_map]
  rw [toString, hmap, hes, List.map_cons, flatMap_cons_eq, List.append_assoc]

theorem toString_true_eq {t : CapabilityToken} (h : t.body ≠ []) :
    t.toString true =
      t.tag ++ frameMarker ++ frameMarker.intercalate (t.body.map Element.toString) :=
  toString_eq h true

theorem toString_false_eq {t : CapabilityToken} (h : t.body ≠ []) :
    t.toString false = frameMarker ++ frameMarker.intercalate (t.body.map Element.toString) :=
  toString_eq h false

end CapabilityToken

section Transport

variable {mac : Mac} {stale stale' : ℕ → ℕ → CapabilityType} {s : Str} {t : CapabilityToken}

theorem Frame.toString_ne_nil {f : Frame} (hf : f.Clean) (h : f ≠ .empty) : f.toString ≠ [] := by
  intro h0
  refine h (Frame.toString_injective hf ⟨by simp [empty], by simp [empty]⟩ ?_)
  rw [h0]
  rfl

/-- Transportable elements are read from their printed text. -/
theorem readsBody_printed {tag : Str} {fs : List Frame} {e : Element} (htag : First frameMarker tag)
    (hclean : ∀ x ∈ fs.map .frame ++ [e], x.Clean)
    (hfree : ∀ x ∈ fs.map .frame ++ [e], ¬frameMarker <:+: x.toString)
    (hlast : ∀ f, e = .frame f → ¬requestMarker <:+: f.toString)
    (ht : Transportable (fs.map .frame ++ [e])) :
    ReadsBody stale (tag ++ frameMarker ++
      frameMarker.intercalate ((fs.map Element.frame ++ [e]).map Element.toString))
        (fs.map .frame ++ [e]) := by
  have hne : e.toString ≠ [] := by
    cases e with
    | frame f =>
      exact Frame.toString_ne_nil (hclean (.frame f) (by simp)) fun h0 => ht.last (by simp [h0])
    | request r => exact r.toString_ne_nil
  have hsplit : Splits frameMarker
      (frameMarker.intercalate ((fs.map Element.frame ++ [e]).map Element.toString))
        ((fs.map Element.frame).map Element.toString ++ [e.toString]) := by
    rw [List.map_append, List.map_singleton]
    refine splits_intercalate (fun q hq => ?_) fun q hq => ?_
    · rw [List.dropLast_concat] at hq
      obtain ⟨x, hx, rfl⟩ := List.mem_map.1 hq
      obtain ⟨f, hf, rfl⟩ := List.mem_map.1 hx
      refine first_frameMarker_iff.2 ⟨hfree (.frame f) (by simp [hf]), ?_⟩
      exact mt Frame.cutMarker_suffix_iff.1 (ht.marker f (by simpa using hf))
    · obtain rfl : e.toString = q := by simpa using hq
      exact ⟨hne, hfree e (by simp)⟩
  refine (readsBody_append htag hsplit).2 ⟨fs, e, rfl, ?_, ?_⟩
  · exact Element.reads_printed fun f hf =>
      ⟨hclean (.frame f) (by simp [hf]), ht.readable f (by simp [hf])⟩
  · cases e with
    | frame f =>
      exact ⟨hlast f rfl,
        Frame.fromString_toString (hclean (.frame f) (by simp)) (ht.readable f (by simp))⟩
    | request r =>
      exact ⟨r.requestMarker_prefix_toString.isInfix,
        Request.fromString_toString (hclean (.request r) (by simp)) _⟩

/-- What was read and is transportable is read back from its printed text. -/
theorem readsBody_of_transportable {tag : Str} {es : List Element} (htag : IsTag tag)
    (h : ReadsBody stale s es) (ht : Transportable es) :
    ReadsBody stale'
      (tag ++ frameMarker ++ frameMarker.intercalate (es.map Element.toString)) es := by
  have hclean := h.clean
  have hfree := h.frameMarker_free
  obtain ⟨ps, p, fs, e, -, rfl, hr, he⟩ := readsBody_iff.1 h
  refine readsBody_printed htag.first_frameMarker hclean hfree (fun f hf => ?_) ht
  subst hf
  exact Frame.requestMarker_free_toString he.2 he.1

/-- No others are, whatever the memory holds. -/
theorem transportable_of_readsBody {tag : Str} {es : List Element} (htag : IsTag tag)
    (h : ReadsBody stale s es) (htypes : ∀ e ∈ es, ∀ c ∈ e.getCapabilities, c.TypeSet)
    (h' : ReadsBody stale'
      (tag ++ frameMarker ++ frameMarker.intercalate (es.map Element.toString)) es) :
    Transportable es := by
  have hclean := h.clean
  have hfree := h.frameMarker_free
  obtain ⟨qs, q, fs, e, hqs, rfl, hr, he⟩ := readsBody_iff.1 h'
  rw [strFrames_append_iff htag.first_frameMarker] at hqs
  have hpieces := Element.pieces_eq_of_reads (hfree e (by simp))
    (fun f hf => hclean (.frame f) (by simp [hf])) (fun f hf => hfree (.frame f) (by simp [hf]))
    hqs hr
  rw [hpieces] at hqs
  obtain ⟨hfirst, hlast⟩ := (splits_intercalate_iff frameMarker_ne_nil).1 hqs
  rw [List.map_append, List.map_singleton] at hpieces hfirst hlast
  obtain ⟨rfl, hq⟩ := List.append_inj' hpieces rfl
  obtain rfl : q = e.toString := by simpa using hq
  have hread : ∀ f, Element.frame f ∈ fs.map .frame ++ [e] →
      ∃ j, Frame.empty.fromString (stale' j) f.toString = .ok f := by
    intro f hf
    rcases List.mem_append.1 hf with hf | hf
    · exact Element.exists_fromString_of_reads_printed hr f (by simpa using hf)
    · obtain rfl := List.mem_singleton.1 hf
      exact ⟨_, he.2⟩
  refine ⟨fun f hf => ?_, fun f hf => ?_, fun h0 => ?_⟩
  · obtain ⟨j, hj⟩ := hread f hf
    exact (Frame.fromString_toString_iff (hclean (.frame f) hf) (htypes (.frame f) hf)).1 hj
  · rw [List.dropLast_concat] at hf hfirst
    exact mt Frame.cutMarker_suffix_iff.2
      (first_frameMarker_iff.1 (hfirst _ (List.mem_map_of_mem hf))).2
  · rw [List.getLast?_concat] at h0
    exact (hlast e.toString (by simp)).1 (by rw [Option.some.inj h0]; rfl)

/-- What is minted still verifies after transport exactly if it is transportable. -/
theorem transport_iff (h : CapabilityToken.empty.fromString mac stale s true = .ok t)
    (htypes : ∀ e ∈ t.body, ∀ c ∈ e.getCapabilities, c.TypeSet) :
    (∃ t', CapabilityToken.empty.fromString mac stale' (t.toString true) false = .ok t' ∧
      t'.body = t.body ∧ t'.tag = t.tag ∧ t'.isValidSignature mac = true) ↔
        Transportable t.body := by
  obtain ⟨es, hes, rfl⟩ := CapabilityToken.fromString_true_eq_ok.1 h
  have htag : IsTag (mac.bodyTag es) := mac.isTag_bodyTag hes.ne_nil
  rw [CapabilityToken.toString_true_eq hes.ne_nil]
  constructor
  · rintro ⟨t', ht', hbody, -, -⟩
    have hread := CapabilityToken.readsBody_of_fromString ht'
    rw [hbody] at hread
    exact transportable_of_readsBody htag hes htypes hread
  · intro ht
    refine ⟨⟨mac.bodyTag es, es, Element.lastRequest es⟩,
      CapabilityToken.fromString_false_eq_ok.2 ⟨es, readsBody_of_transportable htag hes ht, ?_⟩,
      rfl, rfl, CapabilityToken.isValidSignature_iff.2 htag.cStr_eq.symm⟩
    rw [tagText_append htag.first_frameMarker, htag.trim_eq]

/-- A token with a constraint behind a capability arrives. -/
theorem transport_delegated : ∃ t',
    CapabilityToken.empty.fromString delegatedMac (fun _ _ => .userCap)
        (delegatedToken.toString true) false = .ok t' ∧
      t'.body = delegatedToken.body ∧ t'.tag = delegatedToken.tag ∧
        t'.isValidSignature delegatedMac = true := by
  exact (transport_iff fromString_delegatedBody_true (by decide +kernel)).2
    (transportable_of_frames (by decide +kernel))

/-- A token with a constraint alone is minted, and refused by the parser on arrival. -/
theorem not_transport : ¬∀ (mac : Mac) (stale stale' : ℕ → ℕ → CapabilityType) (s : Str)
    (t : CapabilityToken), CapabilityToken.empty.fromString mac stale s true = .ok t →
      (∀ e ∈ t.body, ∀ c ∈ e.getCapabilities, c.TypeSet) →
        ∃ t', CapabilityToken.empty.fromString mac stale' (t.toString true) false = .ok t' ∧
          t'.body = t.body ∧ t'.tag = t.tag ∧ t'.isValidSignature mac = true := by
  intro h
  have hmint : CapabilityToken.empty.fromString (.ofTable []) (fun _ _ => .deviceCap)
      "%FRAME%FUNCTION:f".toList true =
        .ok ⟨hexEncode 0, [.frame ⟨[], [⟨['f'], []⟩]⟩], none⟩ := by
    decide +kernel
  obtain ⟨t', ht', -⟩ := h _ _ (fun _ _ => .deviceCap) _ _ hmint (by decide +kernel)
  have hfault : CapabilityToken.empty.fromString (.ofTable []) (fun _ _ => .deviceCap)
      (CapabilityToken.toString ⟨hexEncode 0, [.frame ⟨[], [⟨['f'], []⟩]⟩], none⟩ true) false =
        .error .badIndex := by
    decide +kernel
  rw [hfault] at ht'
  simp at ht'

end Transport

end Caplets
