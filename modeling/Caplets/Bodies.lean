import Caplets.RoundTrip
import Caplets.Tokens

/-!
# Reading a token

`Element.Reads` is the loop of `from_string_no_tag` as a relation between pieces and
elements, and `ReadsBody` the same for the whole text of a token. Whether the tag is
calculated on the way makes no difference to the body : `from_string` on a fresh token
gives the elements read and either the tag in the text (`fromString_false_eq_ok`) or the
chain over the printed elements (`fromString_true_eq_ok`), which is what
`is_valid_signature` recomputes (`isValidSignature_iff`).

All elements of a body but the last are frames, and the last one is a request exactly if
its piece contains the marker (`Element.Reads.exists_frames`). A frame read from a piece
without the marker is never printed as a request, so the printed elements determine the
body (`bodies_eq_of_map_toString_eq`).
-/

namespace Caplets

open Delimited KeyedChain

/-! ## The marker -/

/-- What the marker ends in may be the start of another marker. -/
def cutMarker : Str := "%FRAME".toList

theorem frameMarker_ne_nil : frameMarker ≠ [] := by decide

theorem percent_mem_frameMarker : '%' ∈ frameMarker := by decide

theorem percent_mem_cutMarker : '%' ∈ cutMarker := by decide

theorem dropLast_frameMarker : frameMarker.dropLast = cutMarker := by decide

theorem first_frameMarker_nil : First frameMarker [] :=
  first_nil frameMarker_ne_nil

/-- A piece and the marker after it hold an earlier marker only if the piece does or ends
in all but the last character of it. -/
theorem first_frameMarker_iff {p : Str} :
    First frameMarker p ↔ ¬frameMarker <:+: p ∧ ¬cutMarker <:+ p := by
  have hsplits : ∀ n < 8, (frameMarker.drop n).isPrefixOf cutMarker → n = 6 ∨ n = 7 := by decide
  rw [First, dropLast_frameMarker, ← not_or, not_iff_not]
  constructor
  · intro h
    rcases List.infix_append_iff.1 h with h | h | ⟨d₁, d₂, hd, h₁, h₂⟩
    · exact Or.inl h
    · exact absurd h (by decide)
    · have hlen : d₁.length < 8 := by
        have := congrArg List.length hd
        have hmark : frameMarker.length = 7 := by decide
        simp only [List.length_append] at this
        omega
      have hd₁ : frameMarker.take d₁.length = d₁ := by rw [hd, List.take_left]
      have hd₂ : frameMarker.drop d₁.length = d₂ := by rw [hd, List.drop_left]
      rcases hsplits _ hlen (by rwa [hd₂, List.isPrefixOf_iff_prefix]) with hn | hn
      · rw [hn, show frameMarker.take 6 = cutMarker from rfl] at hd₁
        exact Or.inr (hd₁ ▸ h₁)
      · rw [hn, show frameMarker.take 7 = frameMarker from rfl] at hd₁
        exact Or.inl (hd₁ ▸ h₁).isInfix
  · rintro (h | ⟨q, rfl⟩)
    · exact List.infix_append_of_infix_left h
    · refine ⟨q, cutMarker.tail, ?_⟩
      rw [List.append_assoc, List.append_assoc]
      rfl

theorem first_frameMarker_of_not_mem {p : Str} (h : '%' ∉ p) : First frameMarker p :=
  first_frameMarker_iff.2 ⟨fun hin => h (hin.subset percent_mem_frameMarker),
    fun hin => h (hin.subset percent_mem_cutMarker)⟩

/-! ## Tags -/

namespace IsTag

variable {tag : Str}

theorem not_mem (h : IsTag tag) {c : Char} (hc : c ∉ "0123456789ABCDEF".toList) : c ∉ tag :=
  fun hmem => hc (h.2 c hmem)

theorem ne_secret (h : IsTag tag) : tag ≠ SECRET := by
  rintro rfl
  exact absurd h.1 (by decide)

theorem ne_nil (h : IsTag tag) : tag ≠ [] := by
  rintro rfl
  exact absurd h.1 (by decide)

@[simp] theorem trim_eq (h : IsTag tag) : trim tag = tag := by
  have hdigits : ("0123456789ABCDEF".toList.any isTrimmed) = false := by decide
  exact trim_eq_self fun c hc => by simpa using List.any_eq_false.1 hdigits c (h.2 c hc)

theorem cStr_eq (h : IsTag tag) : cStr tag = tag :=
  cStr_eq_self (h.not_mem (by decide))

theorem first_frameMarker (h : IsTag tag) : First frameMarker tag :=
  first_frameMarker_of_not_mem (h.not_mem (by decide))

end IsTag

namespace Mac

variable (mac : Mac)

/-- The tag of a body : the MAC chain over the printed elements, from `SECRET` on. -/
def bodyTag (es : List Element) : Str :=
  chain mac.computeMac SECRET (es.map Element.toString)

/-- The calls of `compute_mac` made for the tag of a body. -/
def bodyQueries (es : List Element) : List (Str × Str) :=
  queries mac.computeMac SECRET (es.map Element.toString)

/-- The tag of a longer body goes on from the tag of the first elements. -/
theorem bodyTag_append (es es' : List Element) :
    mac.bodyTag (es ++ es') = chain mac.computeMac (mac.bodyTag es) (es'.map Element.toString) := by
  rw [bodyTag, List.map_append, chain_append, bodyTag]

theorem isTag_chain (k : Str) {ms : List Str} (hms : ms ≠ []) :
    IsTag (chain mac.computeMac k ms) := by
  obtain ⟨m, k', h⟩ := exists_chain_eq mac.computeMac k hms
  rw [h]
  exact mac.isTag m k'

theorem isTag_bodyTag {es : List Element} (hes : es ≠ []) : IsTag (mac.bodyTag es) :=
  mac.isTag_chain SECRET (by simpa using hes)

theorem cStr_bodyTag (es : List Element) : cStr (mac.bodyTag es) = mac.bodyTag es := by
  rcases eq_or_ne es [] with rfl | hes
  · exact cStr_eq_self (by rw [bodyTag, List.map_nil, chain_nil]; decide)
  · exact (mac.isTag_bodyTag hes).cStr_eq

end Mac

/-! ## The signature check and the update of a tag -/

namespace CapabilityToken

variable {mac : Mac} {t : CapabilityToken}

/-- `is_valid_signature` computes the tag of the body anew. -/
theorem isValidSignature_iff : t.isValidSignature mac = true ↔ mac.bodyTag t.body = cStr t.tag := by
  have hfold : t.body.foldl (fun tag e => mac.computeMac e.toString tag) SECRET =
      mac.bodyTag t.body := by
    rw [Mac.bodyTag, chain, List.foldl_map]
  rw [isValidSignature, hfold, strcmpEq_iff, mac.cStr_bodyTag]

/-- The key for the next element. -/
def linkKey (t : CapabilityToken) : Str := if t.body = [] then SECRET else t.tag

/-- The token with one more element, and with its tag updated if `calcTag` is set. -/
def push (mac : Mac) (calcTag : Bool) (t : CapabilityToken) (e : Element) : CapabilityToken where
  tag := if calcTag then mac.computeMac e.toString t.linkKey else t.tag
  body := t.body ++ [e]
  request := match e with
    | .frame _ => t.request
    | .request r => some r

/-- `update_tag` is the MAC of the last element, under `SECRET` or the tag before. -/
theorem updateTag_append (tag : Str) (es : List Element) (e : Element) (request : Option Request) :
    updateTag mac ⟨tag, es ++ [e], request⟩ =
      .ok ⟨mac.computeMac e.toString (if es = [] then SECRET else tag), es ++ [e], request⟩ := by
  rw [updateTag, List.getLast?_concat]
  rcases eq_or_ne es [] with rfl | hes
  · simp [setTag, (mac.isTag _ _).trim_eq]
  · simp [hes, setTag, (mac.isTag _ _).trim_eq]

/-- `add_frame` appends an element and its MAC, and stores no request. -/
theorem addFrame_eq (t : CapabilityToken) (e : Element) :
    t.addFrame mac e =
      .ok ⟨mac.computeMac e.toString t.linkKey, t.body ++ [e], t.request⟩ := by
  rw [addFrame, updateTag_append, linkKey]

/-- Adding elements one by one extends the chain from the tag. -/
theorem foldlM_addFrame {t : CapabilityToken} (hbody : t.body ≠ []) (es : List Element) :
    es.foldlM (fun t e => t.addFrame mac e) t =
      .ok ⟨chain mac.computeMac t.tag (es.map Element.toString), t.body ++ es, t.request⟩ := by
  induction es generalizing t with
  | nil =>
    rw [List.foldlM_nil, List.map_nil, chain_nil, List.append_nil]
    rfl
  | cons e es ih =>
    rw [List.foldlM_cons, addFrame_eq, linkKey, if_neg hbody]
    refine (ih (by simp)).trans ?_
    rw [List.map_cons, chain_cons, List.append_assoc]
    rfl

section FoldPush

variable {calcTag : Bool}

@[simp] theorem body_foldl_push (es : List Element) :
    (es.foldl (push mac calcTag) t).body = t.body ++ es := by
  induction es generalizing t with
  | nil => simp
  | cons e es ih => simp [ih, push]

theorem tag_foldl_push_false (es : List Element) :
    (es.foldl (push mac false) t).tag = t.tag := by
  induction es generalizing t with
  | nil => rfl
  | cons e es ih => simp [ih, push]

/-- The tag after further elements is the chain over them from the tag before. -/
theorem tag_foldl_push_true (ht : t.body ≠ []) (es : List Element) :
    (es.foldl (push mac true) t).tag =
      chain mac.computeMac t.tag (es.map Element.toString) := by
  induction es generalizing t with
  | nil => rfl
  | cons e es ih =>
    rw [List.foldl_cons, ih (by simp [push]), List.map_cons, chain_cons]
    simp [push, linkKey, ht]

/-- From an empty body it is the tag of the body. -/
theorem tag_foldl_push_true_of_nil (ht : t.body = []) {es : List Element} (hes : es ≠ []) :
    (es.foldl (push mac true) t).tag = mac.bodyTag es := by
  obtain ⟨e, es, rfl⟩ := List.exists_cons_of_ne_nil hes
  rw [List.foldl_cons, tag_foldl_push_true (by simp [push]), Mac.bodyTag, List.map_cons, chain_cons]
  simp [push, linkKey, ht]

theorem request_foldl_push_frames (fs : List Frame) :
    ((fs.map Element.frame).foldl (push mac calcTag) t).request = t.request := by
  induction fs generalizing t with
  | nil => rfl
  | cons f fs ih => simp [ih, push]

end FoldPush

end CapabilityToken

/-! ## Elements read from pieces -/

namespace Element

/-- The elements that the pieces from the `i`-th on are read as. With `hasRequest` the last
one is a request. -/
inductive Reads (stale : ℕ → ℕ → CapabilityType) (hasRequest : Bool) :
    ℕ → List Str → List Element → Prop
  | nil {i : ℕ} : Reads stale hasRequest i [] []
  | frame {i : ℕ} {p : Str} {ps : List Str} {f : Frame} {es : List Element} :
      (hasRequest = true → ps ≠ []) → Frame.empty.fromString (stale i) p = .ok f →
        Reads stale hasRequest (i + 1) ps es → Reads stale hasRequest i (p :: ps) (.frame f :: es)
  | request {i : ℕ} {p : Str} {r : Request} :
      hasRequest = true → Request.empty.fromString p = .ok r →
        Reads stale hasRequest i [p] [.request r]

variable {stale : ℕ → ℕ → CapabilityType} {hasRequest : Bool} {i : ℕ} {ps : List Str}
  {es : List Element}

theorem Reads.length_eq (h : Reads stale hasRequest i ps es) : es.length = ps.length := by
  induction h with
  | nil => rfl
  | frame _ _ _ ih => simp [ih]
  | request => rfl

theorem Reads.ne_nil (h : Reads stale hasRequest i ps es) (hps : ps ≠ []) : es ≠ [] :=
  List.ne_nil_of_length_pos (h.length_eq ▸ List.length_pos_iff.2 hps)

/-- What pieces are read as is settled by the pieces and by uninitialised memory. -/
theorem Reads.unique {es' : List Element} (h : Reads stale hasRequest i ps es)
    (h' : Reads stale hasRequest i ps es') : es = es' := by
  induction h generalizing es' with
  | nil =>
    cases h'
    rfl
  | frame hne hf _ ih =>
    cases h' with
    | frame _ hf' hr =>
      obtain rfl := Except.ok.inj (hf.symm.trans hf')
      rw [ih hr]
    | request hreq _ => exact absurd rfl (hne hreq)
  | request hreq hr =>
    cases h' with
    | frame hne _ _ => exact absurd rfl (hne hreq)
    | request _ hr' => rw [Except.ok.inj (hr.symm.trans hr')]

/-- In front of further pieces every piece is read as a frame. -/
theorem reads_append {qs : List Str} (hqs : qs ≠ []) :
    ∀ {i : ℕ} {ps : List Str} {es : List Element},
    Reads stale hasRequest i (ps ++ qs) es ↔ ∃ fs es', es = fs ++ es' ∧
      Reads stale false i ps fs ∧ Reads stale hasRequest (i + ps.length) qs es'
  | i, [], es => by
    constructor
    · exact fun h => ⟨[], es, rfl, .nil, h⟩
    · rintro ⟨fs, es', rfl, hfs, h⟩
      cases hfs
      exact h
  | i, p :: ps, es => by
    have hlen : i + (p :: ps).length = i + 1 + ps.length := by
      rw [List.length_cons]
      omega
    have hne : hasRequest = true → ps ++ qs ≠ [] := fun _ => by simp [hqs]
    rw [hlen, List.cons_append]
    constructor
    · generalize hrs : ps ++ qs = rs at hne
      intro h
      cases h with
      | frame _ hf hr =>
        obtain ⟨fs, es', rfl, hfs, hes⟩ := (reads_append hqs).1 (hrs ▸ hr)
        exact ⟨_ :: fs, es', rfl, .frame (by simp) hf hfs, hes⟩
      | request hreq _ => exact absurd rfl (hne hreq)
    · rintro ⟨fs, es', rfl, hfs, hes⟩
      cases hfs with
      | frame _ hf hr => exact .frame hne hf ((reads_append hqs).2 ⟨_, es', rfl, hr, hes⟩)
      | request hreq _ => exact absurd hreq (by simp)

theorem Reads.of_cons_frame {p : Str} {f : Frame}
    (h : Reads stale hasRequest i (p :: ps) (.frame f :: es)) :
    Frame.empty.fromString (stale i) p = .ok f ∧ Reads stale hasRequest (i + 1) ps es := by
  cases h with
  | frame _ hf hr => exact ⟨hf, hr⟩

/-- Without a request all pieces are read as frames. -/
theorem Reads.exists_frames : ∀ {i : ℕ} {ps : List Str} {es : List Element},
    Reads stale false i ps es → ∃ fs : List Frame, es = fs.map .frame
  | _, _, _, .nil => ⟨[], rfl⟩
  | _, _, _, .frame (f := f) _ _ hr => by
    obtain ⟨fs, rfl⟩ := hr.exists_frames
    exact ⟨f :: fs, rfl⟩

/-- What the last piece is read as. -/
def ReadsLast (stale : ℕ → ℕ → CapabilityType) (i : ℕ) (p : Str) : Element → Prop
  | .frame f => ¬requestMarker <:+: p ∧ Frame.empty.fromString (stale i) p = .ok f
  | .request r => requestMarker <:+: p ∧ Request.empty.fromString p = .ok r

/-- A last piece is read as a request if it contains the marker. -/
theorem reads_singleton {p : Str} :
    Reads stale (decide (requestMarker <:+: p)) i [p] es ↔
      ∃ e, es = [e] ∧ ReadsLast stale i p e := by
  constructor
  · intro h
    cases h with
    | frame hne hf hr =>
      cases hr
      exact ⟨_, rfl, by simpa using hne, hf⟩
    | request hreq hr => exact ⟨_, rfl, by simpa using hreq, hr⟩
  · rintro ⟨e, rfl, he⟩
    cases e with
    | frame f => exact .frame (by simpa using he.1) he.2 .nil
    | request r => exact .request (by simpa using he.1) he.2

/-- The request at the end of a body. -/
def lastRequest (es : List Element) : Option Request :=
  match es.getLast? with
  | some (.request r) => some r
  | _ => none

@[simp] theorem lastRequest_append_request (es : List Element) (r : Request) :
    lastRequest (es ++ [.request r]) = some r := by
  simp [lastRequest]

@[simp] theorem lastRequest_append_frame (es : List Element) (f : Frame) :
    lastRequest (es ++ [.frame f]) = none := by
  simp [lastRequest]

end Element

namespace CapabilityToken

variable {mac : Mac} {stale : ℕ → ℕ → CapabilityType} {calcTag hasRequest : Bool}

theorem addElements_frame {ps : List Str} (hps : hasRequest = true → ps ≠ []) (i : ℕ)
    (self : CapabilityToken) (p : Str) :
    addElements mac stale calcTag hasRequest i self (p :: ps) =
      (Frame.empty.fromString (stale i) p).bind fun f =>
        addElements mac stale calcTag hasRequest (i + 1) (self.push mac calcTag (.frame f)) ps := by
  have hframe : (hasRequest && !ps.isEmpty || !hasRequest) = true := by
    cases hasRequest with
    | false => rfl
    | true => simpa using hps rfl
  rw [addElements, if_pos hframe]
  refine congrArg (Except.bind _) (funext fun f => ?_)
  cases calcTag with
  | false => rfl
  | true =>
    rw [if_pos rfl, addFrame_eq]
    rfl

theorem addElements_request (i : ℕ) (self : CapabilityToken) (p : Str) :
    addElements mac stale calcTag true i self [p] =
      (Request.empty.fromString p).bind fun r => .ok (self.push mac calcTag (.request r)) := by
  rw [addElements, if_neg (by simp)]
  refine congrArg (Except.bind _) (funext fun r => ?_)
  cases calcTag with
  | false => rfl
  | true =>
    rw [if_pos rfl, updateTag_append]
    rfl

/-- The loop of `from_string_no_tag` appends what the pieces are read as. -/
theorem addElements_eq_ok {t : CapabilityToken} :
    ∀ {ps : List Str} {i : ℕ} {self : CapabilityToken},
      addElements mac stale calcTag hasRequest i self ps = .ok t ↔
        ∃ es, Element.Reads stale hasRequest i ps es ∧ t = es.foldl (push mac calcTag) self
  | [], i, self => by
    rw [addElements]
    constructor
    · intro h
      exact ⟨[], .nil, (Except.ok.inj h).symm⟩
    · rintro ⟨es, hr, rfl⟩
      cases hr
      rfl
  | p :: ps, i, self => by
    by_cases hps : hasRequest = true → ps ≠ []
    · rw [addElements_frame hps, exceptBind_eq_ok]
      simp only [addElements_eq_ok]
      constructor
      · rintro ⟨f, hf, es, hr, rfl⟩
        exact ⟨.frame f :: es, .frame hps hf hr, rfl⟩
      · rintro ⟨es, hr, rfl⟩
        cases hr with
        | frame _ hf hr => exact ⟨_, hf, _, hr, rfl⟩
        | request h _ => exact absurd rfl (hps h)
    · obtain ⟨rfl, rfl⟩ : hasRequest = true ∧ ps = [] := by simpa using hps
      rw [addElements_request, exceptBind_eq_ok]
      constructor
      · rintro ⟨r, hr, ht⟩
        exact ⟨[.request r], .request rfl hr, (Except.ok.inj ht).symm⟩
      · rintro ⟨es, hr, rfl⟩
        cases hr with
        | frame hne _ _ => exact absurd rfl (hne rfl)
        | request _ hr => exact ⟨_, hr, rfl⟩

end CapabilityToken

/-! ## Whole tokens -/

theorem tagText_append {tag : Str} (htag : First frameMarker tag) (text : Str) :
    tagText (tag ++ frameMarker ++ text) = tag := by
  rw [tagText, find?_append htag, List.append_assoc]
  exact List.take_left

theorem strFrames_append {tag : Str} (htag : First frameMarker tag) (text : Str) :
    strFrames (tag ++ frameMarker ++ text) = .ok (splitString [] text frameMarker) := by
  have hlen : tag.length + 7 = (tag ++ frameMarker).length := by
    rw [List.length_append]
    rfl
  simp only [strFrames, find?_append htag, hlen, substr, List.drop_left]
  rw [if_neg (by simp), List.take_of_length_le (by simp; omega)]
  rfl

/-- The pieces of a token do not depend on its tag. -/
theorem strFrames_append_iff {tag text : Str} {ps : List Str} (htag : First frameMarker tag) :
    strFrames (tag ++ frameMarker ++ text) = .ok ps ↔ Splits frameMarker text ps := by
  rw [strFrames_append htag, Except.ok.injEq, splitString_eq_iff frameMarker_ne_nil]

theorem strFrames_frameMarker_iff {text : Str} {ps : List Str} :
    strFrames (frameMarker ++ text) = .ok ps ↔ Splits frameMarker text ps :=
  strFrames_append_iff first_frameMarker_nil

/-- The pieces of a token are cut at the marker. -/
theorem splits_of_strFrames {s : Str} {ps : List Str} (h : strFrames s = .ok ps) :
    ∃ text, text <:+: s ∧ Splits frameMarker text ps := by
  simp only [strFrames, bind_eq_ok, pure_eq_ok] at h
  obtain ⟨text, htext, rfl⟩ := h
  refine ⟨text, ?_, splits_splitString frameMarker_ne_nil text⟩
  rw [substr] at htext
  split_ifs at htext
  rw [← Except.ok.inj htext]
  exact (List.take_prefix _ _).isInfix.trans (List.drop_suffix _ _).isInfix

/-- The elements that the text of a token is read as, whatever its tag. -/
def ReadsBody (stale : ℕ → ℕ → CapabilityType) (s : Str) (es : List Element) : Prop :=
  ∃ ps last, strFrames s = .ok ps ∧ ps.getLast? = some last ∧
    Element.Reads stale (decide (requestMarker <:+: last)) 0 ps es

section ReadsBody

variable {stale : ℕ → ℕ → CapabilityType} {s : Str} {es : List Element}

/-- All pieces but the last are read as frames. -/
theorem readsBody_iff : ReadsBody stale s es ↔ ∃ ps p, ∃ fs : List Frame, ∃ e,
    strFrames s = .ok (ps ++ [p]) ∧ es = fs.map .frame ++ [e] ∧
      Element.Reads stale false 0 ps (fs.map .frame) ∧ Element.ReadsLast stale ps.length p e := by
  constructor
  · rintro ⟨qs, p, hqs, hlast, hr⟩
    obtain ⟨ps, rfl⟩ := List.getLast?_eq_some_iff.1 hlast
    obtain ⟨es₁, es₂, rfl, hfs, hes⟩ := (Element.reads_append (by simp)).1 hr
    obtain ⟨fs, rfl⟩ := hfs.exists_frames
    obtain ⟨e, rfl, he⟩ := Element.reads_singleton.1 hes
    exact ⟨ps, p, fs, e, hqs, rfl, hfs, by simpa using he⟩
  · rintro ⟨ps, p, fs, e, hps, rfl, hfs, he⟩
    refine ⟨ps ++ [p], p, hps, by simp, (Element.reads_append (by simp)).2 ⟨_, [e], rfl, hfs, ?_⟩⟩
    exact Element.reads_singleton.2 ⟨e, rfl, by simpa using he⟩

theorem ReadsBody.ne_nil (h : ReadsBody stale s es) : es ≠ [] := by
  obtain ⟨ps, p, fs, e, -, rfl, -⟩ := readsBody_iff.1 h
  simp

theorem readsBody_append {tag text : Str} {ps : List Str} {p : Str} (htag : First frameMarker tag)
    (hps : Splits frameMarker text (ps ++ [p])) :
    ReadsBody stale (tag ++ frameMarker ++ text) es ↔ ∃ fs : List Frame, ∃ e,
      es = fs.map .frame ++ [e] ∧ Element.Reads stale false 0 ps (fs.map .frame) ∧
        Element.ReadsLast stale ps.length p e := by
  simp only [readsBody_iff, strFrames_append_iff htag]
  constructor
  · rintro ⟨ps', p', fs, e, hps', h⟩
    obtain ⟨rfl, rfl⟩ := List.concat_inj.1 (by simpa using hps.unique hps')
    exact ⟨fs, e, h⟩
  · rintro ⟨fs, e, h⟩
    exact ⟨ps, p, fs, e, hps, h⟩

end ReadsBody

namespace CapabilityToken

variable {mac : Mac} {stale : ℕ → ℕ → CapabilityType} {calcTag : Bool} {s : Str}
  {t : CapabilityToken}

/-- `from_string_no_tag` appends what the text is read as to what the object holds. -/
theorem fromStringNoTag_eq_ok {self : CapabilityToken} :
    self.fromStringNoTag mac stale s calcTag = .ok t ↔
      ∃ es, ReadsBody stale s es ∧ t = es.foldl (push mac calcTag) self := by
  rw [fromStringNoTag, bind_eq_ok]
  constructor
  · rintro ⟨ps, hps, h⟩
    cases hlast : ps.getLast? with
    | none => simp [hlast] at h
    | some last =>
      simp only [hlast, findIndex_nonneg, addElements_eq_ok] at h
      obtain ⟨es, hr, rfl⟩ := h
      exact ⟨es, ⟨ps, last, hps, hlast, hr⟩, rfl⟩
  · rintro ⟨es, ⟨ps, last, hps, hlast, hr⟩, rfl⟩
    refine ⟨ps, hps, ?_⟩
    simp only [hlast, findIndex_nonneg, addElements_eq_ok]
    exact ⟨es, hr, rfl⟩

theorem request_foldl_push (calcTag : Bool) {es : List Element} (h : ReadsBody stale s es)
    (self : CapabilityToken) : (es.foldl (push mac calcTag) self).request =
      (Element.lastRequest es).or self.request := by
  obtain ⟨ps, p, fs, e, -, rfl, -⟩ := readsBody_iff.1 h
  rw [List.foldl_append, List.foldl_cons, List.foldl_nil]
  cases e with
  | frame f => simp [push, request_foldl_push_frames]
  | request r => simp [push]

/-- Receiving a token into an object that holds one already appends to its body. -/
theorem fromString_false_eq_ok_of_self {self : CapabilityToken} :
    self.fromString mac stale s false = .ok t ↔ ∃ es, ReadsBody stale s es ∧
      t = ⟨trim (tagText s), self.body ++ es, (Element.lastRequest es).or self.request⟩ := by
  rw [fromString, if_pos (by simp), fromStringNoTag_eq_ok]
  refine exists_congr fun es => and_congr_right fun h => ?_
  have hfold : es.foldl (push mac false) (self.setTag (tagText s)) =
      ⟨trim (tagText s), self.body ++ es, (Element.lastRequest es).or self.request⟩ := by
    rw [CapabilityToken.mk.injEq, request_foldl_push false h, tag_foldl_push_false,
      body_foldl_push]
    exact ⟨rfl, rfl, rfl⟩
  rw [hfold]

/-- A received token : the elements read, and the tag in front of them. -/
theorem fromString_false_eq_ok :
    empty.fromString mac stale s false = .ok t ↔
      ∃ es, ReadsBody stale s es ∧ t = ⟨trim (tagText s), es, Element.lastRequest es⟩ := by
  simp only [fromString_false_eq_ok_of_self, empty, List.nil_append, Option.or_none]

/-- A minted token : the elements read, and the chain over them. -/
theorem fromString_true_eq_ok :
    empty.fromString mac stale s true = .ok t ↔
      ∃ es, ReadsBody stale s es ∧ t = ⟨mac.bodyTag es, es, Element.lastRequest es⟩ := by
  have hfold : ∀ es, ReadsBody stale s es → es.foldl (push mac true) empty =
      ⟨mac.bodyTag es, es, Element.lastRequest es⟩ := by
    intro es h
    rw [CapabilityToken.mk.injEq, request_foldl_push true h,
      tag_foldl_push_true_of_nil rfl h.ne_nil, body_foldl_push]
    exact ⟨rfl, rfl, Option.or_none⟩
  rw [fromString, if_neg (by simp), fromStringNoTag_eq_ok]
  exact exists_congr fun es => and_congr_right fun h => by rw [hfold es h]

/-- The body of a parsed token is what its text is read as. -/
theorem readsBody_of_fromString (h : empty.fromString mac stale s calcTag = .ok t) :
    ReadsBody stale s t.body := by
  cases calcTag with
  | false =>
    obtain ⟨es, hes, rfl⟩ := fromString_false_eq_ok.1 h
    exact hes
  | true =>
    obtain ⟨es, hes, rfl⟩ := fromString_true_eq_ok.1 h
    exact hes

/-- The field `request` is the request at the end of the body. -/
theorem request_eq_of_fromString (h : empty.fromString mac stale s calcTag = .ok t) :
    t.request = Element.lastRequest t.body := by
  cases calcTag with
  | false =>
    obtain ⟨es, -, rfl⟩ := fromString_false_eq_ok.1 h
    rfl
  | true =>
    obtain ⟨es, -, rfl⟩ := fromString_true_eq_ok.1 h
    rfl

end CapabilityToken

/-- The pieces of a token can be received under every tag. -/
theorem CapabilityToken.exists_retagged (mac : Mac) {stale : ℕ → ℕ → CapabilityType} {s : Str}
    {es : List Element} (h : ReadsBody stale s es) {tag : Str} (htag : IsTag tag) :
    ∃ s', empty.fromString mac stale s' false = .ok ⟨tag, es, Element.lastRequest es⟩ := by
  obtain ⟨ps, last, hps, hlast, hr⟩ := h
  obtain ⟨text, -, hs⟩ := splits_of_strFrames hps
  refine ⟨tag ++ frameMarker ++ text, fromString_false_eq_ok.2 ⟨es, ⟨ps, last, ?_, hlast, hr⟩, ?_⟩⟩
  · exact (strFrames_append_iff htag.first_frameMarker).2 hs
  · rw [tagText_append htag.first_frameMarker, htag.trim_eq]

/-! ## Printed bodies -/

namespace Constraint

variable {k : Constraint} {p : Str}

theorem frameMarker_free_toString (hfields : ∀ x ∈ k.fields, ¬frameMarker <:+: x) :
    ¬frameMarker <:+: k.toString := by
  intro hmark
  rw [toString_eq_intercalate] at hmark
  obtain ⟨x, hx, hin⟩ := exists_infix_of_infix_intercalate (a := ':') (by decide) (by decide) hmark
  rcases List.mem_cons.1 hx with rfl | hx
  · exact absurd hin (by decide)
  · exact hfields x hx hin

/-- The text before the fields ends in no start of the marker of a request. -/
theorem requestMarker_free_toString (h : empty.fromString p = .ok k) (hp : ¬requestMarker <:+: p) :
    ¬requestMarker <:+: k.toString := by
  have hfields : [':'].intercalate k.fields <:+: p := by
    have hafter := (splitString_eq_iff (by simp)).1 (fromString_eq_ok.1 h)
    have hin : afterColon p <:+: p := (List.drop_suffix _ p).isInfix
    rcases hafter.intercalate_eq with heq | heq
    · exact heq ▸ hin
    · exact (List.prefix_append _ [':']).isInfix.trans (heq ▸ hin)
  have hsplits : ∀ n < 9, (requestMarker.take n).isSuffixOf functionMarker → n = 0 := by decide
  intro hmark
  rw [toString_eq, ← List.singleton_append, ← List.append_assoc] at hmark
  rcases List.infix_append_iff.1 hmark with hin | hin | ⟨d₁, d₂, hd, h₁, h₂⟩
  · exact absurd hin (by decide)
  · exact hp (hin.trans hfields)
  · have hlen : d₁.length < 9 := by
      have := congrArg List.length hd
      have hmark : requestMarker.length = 8 := by decide
      simp only [List.length_append] at this
      omega
    have hd₁ : requestMarker.take d₁.length = d₁ := by rw [hd, List.take_left]
    have hzero := hsplits _ hlen (by rw [hd₁, List.isSuffixOf_iff_suffix]; exact h₁)
    rw [List.length_eq_zero_iff.1 hzero, List.nil_append] at hd
    exact hp ((hd ▸ h₂.isInfix).trans hfields)

end Constraint

namespace Frame

variable {stale : ℕ → CapabilityType} {f : Frame} {p : Str}

theorem frameMarker_free_toString (hres : ∀ c ∈ f.capabilities, ¬frameMarker <:+: c.resource)
    (hfields : ∀ k ∈ f.constraints, ∀ x ∈ k.fields, ¬frameMarker <:+: x) :
    ¬frameMarker <:+: f.toString := by
  intro hmark
  obtain ⟨q, hq, hin⟩ := exists_infix_of_infix_toString (by decide) (by decide) hmark
  rcases List.mem_append.1 hq with hq | hq
  · obtain ⟨c, hc, rfl⟩ := List.mem_map.1 hq
    exact hres c hc (CapabilityStructure.infix_resource_of_infix_toString (a := '%') (by decide)
      (by decide) (by decide) hin)
  · obtain ⟨k, hk, rfl⟩ := List.mem_map.1 hq
    exact Constraint.frameMarker_free_toString (hfields k hk) hin

/-- A frame that is not read from the text of a request is not printed as one. -/
theorem requestMarker_free_toString (h : empty.fromString stale p = .ok f)
    (hp : ¬requestMarker <:+: p) : ¬requestMarker <:+: f.toString := by
  intro hmark
  obtain ⟨q, hq, hin⟩ := exists_infix_of_infix_toString (by decide) (by decide) hmark
  rcases List.mem_append.1 hq with hq | hq
  · obtain ⟨c, hc, rfl⟩ := List.mem_map.1 hq
    have hres := CapabilityStructure.infix_resource_of_infix_toString (a := 'r') (by decide)
      (by decide) (by decide) hin
    exact hp (hres.trans (resource_infix_of_fromString h c hc))
  · obtain ⟨k, hk, rfl⟩ := List.mem_map.1 hq
    obtain ⟨q, hq, -, hk⟩ := exists_piece_of_mem_constraints h k hk
    exact Constraint.requestMarker_free_toString hk (fun hm => hp (hm.trans hq)) hin

end Frame

theorem Request.frameMarker_free_toString {r : Request}
    (hfields : ∀ x ∈ [r.capability.resource, r.handlerName, r.value], ¬frameMarker <:+: x) :
    ¬frameMarker <:+: r.toString := by
  intro hmark
  rw [toString_eq] at hmark
  obtain ⟨x, hx, hin⟩ := exists_infix_of_infix_intercalate (a := ':') (by decide) (by decide) hmark
  have hpercent : '%' ∈ x := hin.subset percent_mem_frameMarker
  have hbits := not_mem_bitsToString (c := '%') (by decide) (by decide) r.capability.capBits
  simp only [parts, List.mem_cons, List.not_mem_nil, or_false] at hx hfields
  rcases hx with rfl | hx | hx | hx | rfl
  · exact absurd hpercent (by decide)
  · exact hfields x (Or.inl hx) hin
  · exact hfields x (Or.inr (Or.inl hx)) hin
  · exact hfields x (Or.inr (Or.inr hx)) hin
  · exact hbits hpercent

namespace Element

/-- The fields of the element are clean. -/
def Clean : Element → Prop
  | frame f => f.Clean
  | request r => r.Clean

theorem Reads.clean {stale : ℕ → ℕ → CapabilityType} {hasRequest : Bool} :
    ∀ {i : ℕ} {ps : List Str} {es : List Element}, Reads stale hasRequest i ps es →
      ∀ e ∈ es, e.Clean
  | _, _, _, .nil, _, he => absurd he (by simp)
  | _, _, _, .frame _ hf hr, e, he => by
    rcases List.mem_cons.1 he with rfl | he
    · exact Frame.clean_of_fromString hf
    · exact hr.clean e he
  | _, _, _, .request _ hr, e, he => by
    obtain rfl := List.mem_singleton.1 he
    exact Request.clean_of_fromString hr

theorem ReadsLast.clean {stale : ℕ → ℕ → CapabilityType} {i : ℕ} {p : Str} {e : Element}
    (h : ReadsLast stale i p e) : e.Clean := by
  cases e with
  | frame f => exact Frame.clean_of_fromString h.2
  | request r => exact Request.clean_of_fromString h.2

/-- The printed text of an element holds no marker if the piece it was read from does not. -/
theorem Reads.frameMarker_free {stale : ℕ → ℕ → CapabilityType} {hasRequest : Bool} :
    ∀ {i : ℕ} {ps : List Str} {es : List Element}, Reads stale hasRequest i ps es →
      (∀ p ∈ ps, ¬frameMarker <:+: p) → ∀ e ∈ es, ¬frameMarker <:+: e.toString
  | _, _, _, .nil, _, _, he => absurd he (by simp)
  | _, _, _, .frame _ hf hr, hps, e, he => by
    rcases List.mem_cons.1 he with rfl | he
    · have hp := hps _ List.mem_cons_self
      exact Frame.frameMarker_free_toString
        (fun c hc h => hp (h.trans (Frame.resource_infix_of_fromString hf c hc)))
        fun k hk x hx h => hp (h.trans (Frame.field_infix_of_fromString hf k hk x hx))
    · exact hr.frameMarker_free (fun p hp => hps p (by simp [hp])) e he
  | _, _, _, .request _ hr, hps, e, he => by
    obtain rfl := List.mem_singleton.1 he
    obtain ⟨hres, hname, hvalue⟩ := Request.field_infix_of_fromString hr
    have hp := hps _ List.mem_cons_self
    exact Request.frameMarker_free_toString (by
      simpa using ⟨fun h => hp (h.trans hres), fun h => hp (h.trans hname),
        fun h => hp (h.trans hvalue)⟩)

/-- Lists of frames that are printed alike are equal. -/
theorem toString_injective_of_frames {fs gs : List Frame}
    (hfs : ∀ e ∈ fs.map Element.frame, e.Clean)
    (hgs : ∀ e ∈ gs.map Element.frame, e.Clean)
    (h : (fs.map Element.frame).map toString = (gs.map Element.frame).map toString) : fs = gs := by
  rw [List.map_map, List.map_map] at h
  exact map_inj_of_forall (fun f g hf hg => Frame.toString_injective hf hg)
    (fun f hf => hfs _ (List.mem_map_of_mem hf)) (fun g hg => hgs _ (List.mem_map_of_mem hg)) h

/-- The last elements of two bodies are equal if they are printed alike. -/
theorem ReadsLast.toString_injective {stale stale' : ℕ → ℕ → CapabilityType} {i i' : ℕ}
    {p p' : Str} {e e' : Element} (he : ReadsLast stale i p e) (he' : ReadsLast stale' i' p' e')
    (h : e.toString = e'.toString) : e = e' := by
  cases e with
  | frame f =>
    cases e' with
    | frame g => rw [Frame.toString_injective he.clean he'.clean h]
    | request r =>
      rw [toString_frame, toString_request] at h
      exact absurd (h ▸ r.requestMarker_prefix_toString.isInfix)
        (Frame.requestMarker_free_toString he.2 he.1)
  | request r =>
    cases e' with
    | frame g =>
      rw [toString_frame, toString_request] at h
      exact absurd (h ▸ r.requestMarker_prefix_toString.isInfix)
        (Frame.requestMarker_free_toString he'.2 he'.1)
    | request r' => rw [Request.toString_injective he.clean he'.clean h]

end Element

/-- Everything that is read is clean. -/
theorem ReadsBody.clean {stale : ℕ → ℕ → CapabilityType} {s : Str} {es : List Element}
    (h : ReadsBody stale s es) : ∀ e ∈ es, e.Clean := by
  obtain ⟨ps, last, -, -, hr⟩ := h
  exact hr.clean

/-- No element that is read is printed with a marker in it. -/
theorem ReadsBody.frameMarker_free {stale : ℕ → ℕ → CapabilityType} {s : Str} {es : List Element}
    (h : ReadsBody stale s es) : ∀ e ∈ es, ¬frameMarker <:+: e.toString := by
  obtain ⟨ps, last, hps, -, hr⟩ := h
  obtain ⟨text, -, hs⟩ := splits_of_strFrames hps
  exact hr.frameMarker_free hs.free_of_mem

/-- The printed elements determine the body, and the kind of each element. -/
theorem bodies_eq_of_map_toString_eq {stale stale' : ℕ → ℕ → CapabilityType} {s s' : Str}
    {es es' : List Element} (h : ReadsBody stale s es) (h' : ReadsBody stale' s' es')
    (heq : es.map Element.toString = es'.map Element.toString) : es = es' := by
  obtain ⟨ps, p, fs, e, -, rfl, hfs, he⟩ := readsBody_iff.1 h
  obtain ⟨ps', p', fs', e', -, rfl, hfs', he'⟩ := readsBody_iff.1 h'
  rw [List.map_append, List.map_append, List.map_singleton, List.map_singleton] at heq
  obtain ⟨hfront, hlast⟩ := List.append_inj' heq rfl
  rw [Element.toString_injective_of_frames hfs.clean hfs'.clean hfront,
    he.toString_injective he' (by simpa using hlast)]

end Caplets
