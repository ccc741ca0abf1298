import Caplets.Delegation
import Caplets.Transport

/-!
# Attaching a request

The parser appends the request to the body and tags it. `set_request` stores it in the field
`request`, appends nothing, and tags the last element of the body once more. The token that
`attach` makes has all frames in its text and no request, the one that is read from the text
of the frames and the request has at least one piece more. So the two are never printed alike
(`not_attachesAsRead`).
-/

namespace Caplets

open Delimited KeyedChain

/-- `add_frame` for each frame and then `set_request(r, true)`, on a fresh token. -/
def attach (mac : Mac) (fs : List Frame) (r : Request) : Except Fault CapabilityToken := do
  let token ← (fs.map Element.frame).foldlM (fun t e => t.addFrame mac e) CapabilityToken.empty
  token.setRequest mac (some r) true

/-- The text of frames, each given as `gs` has it, with the text of a request behind them. -/
def requestText (gs : List Str) (r : Request) : Str :=
  (gs ++ [r.toString]).flatMap (frameMarker ++ ·)

/-- The two ways to attach a request lead to tokens with the same tag, the same text and the
same answers. -/
def AttachesAsRead (mac : Mac) (stale : ℕ → ℕ → CapabilityType) (fs : List Frame) (r : Request)
    (gs : List Str) : Prop :=
  ∃ t₁ t₂, attach mac fs r = .ok t₁ ∧
    CapabilityToken.empty.fromString mac stale (requestText gs r) true = .ok t₂ ∧
      t₁.tag = t₂.tag ∧ t₁.toString true = t₂.toString true ∧
        t₁.isValidSignature mac = t₂.isValidSignature mac ∧
          ∀ token, t₁.isValidRequest mac token = t₂.isValidRequest mac token

section Attach

variable {mac : Mac} {stale : ℕ → ℕ → CapabilityType} {fs : List Frame} {r : Request}
  {gs : List Str} {t : CapabilityToken}

theorem foldlM_addFrame_empty {es : List Element} (hes : es ≠ []) :
    es.foldlM (fun t e => t.addFrame mac e) CapabilityToken.empty =
      .ok ⟨mac.bodyTag es, es, none⟩ := by
  obtain ⟨e, es, rfl⟩ := List.exists_cons_of_ne_nil hes
  rw [List.foldlM_cons, CapabilityToken.addFrame_eq]
  exact CapabilityToken.foldlM_addFrame (by simp [CapabilityToken.empty]) es

/-- `set_request` tags the last frame once more, and with `SECRET` if it is the only one. -/
theorem attach_concat (gs : List Frame) (f : Frame) (r : Request) :
    attach mac (gs ++ [f]) r = .ok ⟨mac.computeMac f.toString
      (if gs = [] then SECRET else mac.bodyTag ((gs ++ [f]).map .frame)),
        (gs ++ [f]).map .frame, some r⟩ := by
  rw [attach, foldlM_addFrame_empty (by simp), List.map_append, List.map_singleton]
  refine (CapabilityToken.updateTag_append _ _ _ _).trans ?_
  simp only [List.map_eq_nil_iff]
  rfl

/-- The body of an attached token is made of the frames alone. -/
theorem body_of_attach (h : attach mac fs r = .ok t) :
    fs ≠ [] ∧ t.body = fs.map .frame ∧ IsTag t.tag := by
  rcases List.eq_nil_or_concat' fs with rfl | ⟨gs, f, rfl⟩
  · exact absurd h (by simp [attach, CapabilityToken.setRequest, CapabilityToken.updateTag,
      CapabilityToken.empty])
  · rw [attach_concat, Except.ok.injEq] at h
    subst h
    exact ⟨by simp, rfl, mac.isTag _ _⟩

theorem requestText_eq (gs : List Str) (r : Request) : requestText gs r =
    frameMarker ++ frameMarker.intercalate (gs ++ [r.toString]) := by
  obtain ⟨p, ps, hps⟩ := List.exists_cons_of_ne_nil (l := gs ++ [r.toString]) (by simp)
  rw [requestText, hps, flatMap_cons_eq]

/-- A token that is read from the text and printed like the attached one has printed elements
that join to the same text as the frames. -/
theorem intercalate_eq_of_attachesAsRead (h : AttachesAsRead mac stale fs r gs) :
    ∃ es qs, Splits frameMarker (frameMarker.intercalate (gs ++ [r.toString])) qs ∧
      (∃ hasRequest, Element.Reads stale hasRequest 0 qs es) ∧
        frameMarker.intercalate (fs.map Frame.toString) =
          frameMarker.intercalate (es.map Element.toString) := by
  obtain ⟨t₁, t₂, h₁, h₂, -, htext, -⟩ := h
  obtain ⟨hfs, hbody, htag⟩ := body_of_attach h₁
  obtain ⟨es, hread, rfl⟩ := CapabilityToken.fromString_true_eq_ok.1 h₂
  obtain ⟨qs, last, hqs, -, hr⟩ := id hread
  rw [requestText_eq, strFrames_frameMarker_iff] at hqs
  refine ⟨es, qs, hqs, ⟨_, hr⟩, ?_⟩
  have htag' : IsTag (mac.bodyTag es) := mac.isTag_bodyTag hread.ne_nil
  rw [CapabilityToken.toString_true_eq (by simpa [hbody] using hfs),
    CapabilityToken.toString_true_eq hread.ne_nil, List.append_assoc, List.append_assoc] at htext
  have hjoin := (List.append_inj htext (htag.1.trans htag'.1.symm)).2
  rw [List.append_cancel_left_eq, hbody, List.map_map] at hjoin
  exact hjoin

/-- Attaching a request never gives the token that the parser reads, neither from the printed
frames nor from the pieces they were parsed from. -/
theorem not_attachesAsRead (hgs : gs = fs.map Frame.toString ∨ ReadsFrames stale gs fs) :
    ¬AttachesAsRead mac stale fs r gs := by
  intro h
  obtain ⟨es, qs, hqs, ⟨hasRequest, hr⟩, hjoin⟩ := intercalate_eq_of_attachesAsRead h
  have hfs : fs.map Frame.toString ≠ [] := by
    obtain ⟨t₁, t₂, h₁, -⟩ := h
    simpa using (body_of_attach h₁).1
  rcases hgs with rfl | hgs
  · -- the pieces of the text are as many as the elements, and one more for the request
    have hes : es.map Element.toString ≠ [] := by
      have hne := hr.ne_nil (hqs.ne_nil ?_)
      · simpa using hne
      · rw [intercalate_append hfs]
        simp [frameMarker_ne_nil]
    rw [intercalate_append hfs, hjoin, ← intercalate_append hes] at hqs
    have hle := hqs.length_le (w := []) rfl (by simpa using r.toString_ne_nil)
    have hlen := hr.length_eq
    simp only [List.length_append, List.length_map, List.length_singleton] at hle
    omega
  · -- the elements are the frames, and at least one more
    obtain ⟨rs, hrs⟩ := exists_splits frameMarker_ne_nil r.toString
    have hne := hrs.ne_nil r.toString_ne_nil
    rw [intercalate_concat] at hqs
    obtain rfl := hqs.unique (hrs.terminated_append hgs.1)
    obtain ⟨fs', es', rfl, hfs', hes'⟩ := (Element.reads_append hne).1 hr
    obtain rfl := hfs'.unique hgs.2
    obtain ⟨e, es', rfl⟩ := List.exists_cons_of_ne_nil (hes'.ne_nil hne)
    have hmap : (fs.map Element.frame).map Element.toString = fs.map Frame.toString := by
      rw [List.map_map]
      rfl
    rw [List.map_append, hmap, intercalate_append hfs] at hjoin
    have hnil := List.self_eq_append_right.1 hjoin
    simp [frameMarker_ne_nil] at hnil

/-- It is no different for the frames and the request of a delegated token. -/
theorem not_attachesAsRead_delegated : ¬AttachesAsRead delegatedMac (fun _ _ => .ownerCap)
    delegatedFrames delegatedRequest (delegatedFrames.map Frame.toString) :=
  not_attachesAsRead (Or.inl rfl)

/-! One frame, and a request for what it is about. -/

/-- The frame. -/
def attachedFrame : Frame :=
  ⟨[⟨"/a".toList, .deviceCap, 0b111⟩], []⟩

/-- The request. -/
def attachedRequest : Request :=
  ⟨⟨"/a".toList, .deviceCap, 0b001⟩, ['h'], ['v']⟩

/-- HMAC(SHA-256) as far as both go. -/
def attachedMac : Mac :=
  .ofChains
    [[("/a+0+111".toList, 0xE9636D39A96A87B5C8EF9F9C33C505EFC3C53E6E6178919929A1716D10540785),
      ("request:/a:h:v:001".toList,
        0x2A6BDEB98379546C18B1A72DCD601F8194A3B150D9A0DA35936834B418195445)]]

/-- With one frame already the tags differ : the first one does not know the request. -/
theorem not_attach_as_read : ¬∀ (mac : Mac) (stale : ℕ → ℕ → CapabilityType) (fs : List Frame)
    (r : Request) (gs : List Str), fs ≠ [] → ReadsFrames stale gs fs → r.Clean →
      (∀ x ∈ [r.capability.resource, r.handlerName, r.value], '%' ∉ x) →
        AttachesAsRead mac stale fs r gs := by
  intro h
  have hattach : attach attachedMac [attachedFrame] attachedRequest =
      .ok ⟨hexEncode 0xE9636D39A96A87B5C8EF9F9C33C505EFC3C53E6E6178919929A1716D10540785,
        [.frame attachedFrame], some attachedRequest⟩ := by decide +kernel
  have hparse : CapabilityToken.empty.fromString attachedMac (fun _ _ => .ownerCap)
      (requestText ["/a+0+111".toList] attachedRequest) true =
        .ok ⟨hexEncode 0x2A6BDEB98379546C18B1A72DCD601F8194A3B150D9A0DA35936834B418195445,
          [.frame attachedFrame, .request attachedRequest], some attachedRequest⟩ := by
    decide +kernel
  have hframes : ReadsFrames (fun _ _ => .ownerCap) ["/a+0+111".toList] [attachedFrame] :=
    ⟨by decide, .frame (by simp) (by decide +kernel) .nil⟩
  obtain ⟨t₁, t₂, h₁, h₂, htag, -⟩ := h attachedMac _ _ attachedRequest _ (by simp) hframes
    ⟨by decide, by decide, by decide, rfl⟩ (by decide)
  obtain rfl := Except.ok.inj (hattach.symm.trans h₁)
  obtain rfl := Except.ok.inj (hparse.symm.trans h₂)
  exact absurd htag (by decide +kernel)

end Attach

end Caplets
