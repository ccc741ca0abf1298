import Caplets.Delegation
import Caplets.Transport

/-!
# Behind a request

A request is meant to end a token. But the tag of a token is all that is needed to extend
it, the text of the request is then no longer the last one, and any text but the last is
read as a frame. The MAC is over the printed text only, and does not tell a request from a
frame that is printed alike.

So an extension gets through exactly if the whole text of the token, the request included,
is read as usable frames with the tag of the token (`request_closes_chain_iff`). It can be
accepted exactly if the last of these frames also has a capability for some request
(`not_accepted_behind_request_iff`).
-/

namespace Caplets

open Delimited KeyedChain

namespace CapabilityToken

/-- The text of a token with the texts `gs` behind it, and the tag extended by the
elements `es`. -/
def extension (mac : Mac) (t : CapabilityToken) (es : List Element) (gs : List Str) : Str :=
  chain mac.computeMac t.tag (es.map Element.toString) ++ t.toString false ++
    gs.flatMap (frameMarker ++ ·)

/-- The elements `es` are what the texts `gs` are read as, and `t'` is what the extension is
read as. The calls of `compute_mac` made for the elements, for the tag and for the check of
it, have no collision. -/
structure Extends (mac : Mac) (t : CapabilityToken) (es : List Element) (gs : List Str)
    (t' : CapabilityToken) : Prop where
  texts : gs ≠ []
  elements : ∃ stale, ReadsBody stale (gs.flatMap (frameMarker ++ ·)) es
  parsed : ∃ stale, empty.fromString mac stale (t.extension mac es gs) false = .ok t'
  collisionFree : ∀ es₁ es₂, t'.body = es₁ ++ es₂ → es₂.length = es.length →
    CollisionFree mac.computeMac
      (queries mac.computeMac (mac.bodyTag es₁) (es₂.map Element.toString) ++
        queries mac.computeMac t.tag (es.map Element.toString))

/-- The whole text of a token, the request included, is read as usable frames with the tag of
the token. -/
structure ReopensAs (mac : Mac) (t : CapabilityToken) (fs : List Frame)
    (token : Option IdentityToken) : Prop where
  reads : ∃ stale ps, strFrames (t.toString false) = .ok ps ∧
    Element.Reads stale false 0 ps (fs.map .frame)
  tag : mac.bodyTag (fs.map .frame) = t.tag
  usable : Usable fs token

end CapabilityToken

/-! ## The pieces of an extension -/

/-- A text that a request is at the end of ends in a bit. -/
theorem Request.not_suffix {r : Request} {d l : Str} {a : Char} (hr : r.toString <:+ l)
    (ha : d.getLast? = some a) (h0 : a ≠ '0') (h1 : a ≠ '1') : ¬d <:+ l := by
  rintro ⟨q, rfl⟩
  obtain ⟨p, hp⟩ := hr
  have hend := congrArg List.getLast? hp
  rw [List.getLast?_append_of_ne_nil _ (by simp [toString]), getLast?_toString,
    List.getLast?_append, ha, Option.some_or] at hend
  exact not_mem_bitsToString h0 h1 _ (List.mem_of_getLast? hend)

section Pieces

variable {stale : ℕ → ℕ → CapabilityType} {t : CapabilityToken} {es : List Element} {r : Request}
  {ps qs : List Str}

/-- A request at the end of a text hides no marker behind it. -/
theorem splits_append_of_request {l m : Str} (hr : r.toString <:+ l) (h : Splits frameMarker l ps)
    (hqs : Splits frameMarker m qs) : Splits frameMarker (l ++ frameMarker ++ m) (ps ++ qs) := by
  have hmark : ¬frameMarker <:+ l := Request.not_suffix hr rfl (by decide) (by decide)
  have hne : l ≠ [] := by
    rintro rfl
    exact r.toString_ne_nil (List.suffix_nil.1 hr)
  refine h.append hne hmark (fun p hp => ?_) hqs
  obtain ⟨ps, rfl⟩ := List.getLast?_eq_some_iff.1 hp
  have hjoin : l = frameMarker.intercalate (ps ++ [p]) := h.intercalate_eq.resolve_right fun heq =>
    hmark (heq ▸ List.suffix_append _ _)
  refine first_frameMarker_iff.2 ⟨h.free_of_mem p (by simp), fun hcut => ?_⟩
  refine Request.not_suffix hr (d := cutMarker) rfl (by decide) (by decide) (hcut.trans ?_)
  rw [hjoin]
  exact suffix_intercalate _ _ _

/-- The pieces of a token. -/
theorem exists_splits_toString (hlast : t.body.getLast? = some (.request r)) :
    ∃ l ps, t.toString false = frameMarker ++ l ∧ r.toString <:+ l ∧ Splits frameMarker l ps ∧
      strFrames (t.toString false) = .ok ps := by
  obtain ⟨es, hes⟩ := List.getLast?_eq_some_iff.1 hlast
  have htext := CapabilityToken.toString_false_eq (t := t) (by simp [hes])
  obtain ⟨ps, hps⟩ := exists_splits frameMarker_ne_nil
    (frameMarker.intercalate (t.body.map Element.toString))
  refine ⟨_, ps, htext, ?_, hps, by rw [htext, strFrames_frameMarker_iff.2 hps]⟩
  rw [hes, List.map_append, List.map_singleton]
  exact suffix_intercalate _ _ _

/-- The pieces of an extension : those of the token and those of the texts behind it. -/
theorem strFrames_append_toString {tag m : Str} (htag : First frameMarker tag)
    (hlast : t.body.getLast? = some (.request r)) (hps : strFrames (t.toString false) = .ok ps)
    (hqs : Splits frameMarker m qs) :
    strFrames (tag ++ t.toString false ++ (frameMarker ++ m)) = .ok (ps ++ qs) := by
  obtain ⟨l, ps', htext, hend, hl, hps'⟩ := exists_splits_toString hlast
  obtain rfl : ps = ps' := Except.ok.inj (hps.symm.trans hps')
  have hassoc : tag ++ (frameMarker ++ l) ++ (frameMarker ++ m) =
      tag ++ frameMarker ++ (l ++ frameMarker ++ m) := by
    simp only [List.append_assoc]
  rw [htext, hassoc, strFrames_append_iff htag]
  exact splits_append_of_request hend hl hqs

/-- The texts behind the token are read as before, those of the token itself as frames. -/
theorem readsBody_append_toString {tag m : Str} (htag : First frameMarker tag)
    (hlast : t.body.getLast? = some (.request r)) (hps : strFrames (t.toString false) = .ok ps)
    (hqs : Splits frameMarker m qs) (hne : qs ≠ [])
    (h : ReadsBody stale (tag ++ t.toString false ++ (frameMarker ++ m)) es) :
    ∃ fs : List Frame, ∃ es', es = fs.map .frame ++ es' ∧
      Element.Reads stale false 0 ps (fs.map .frame) ∧ es'.length = qs.length := by
  obtain ⟨ps', last, hps', -, hr⟩ := h
  rw [strFrames_append_toString htag hlast hps hqs, Except.ok.injEq] at hps'
  subst hps'
  obtain ⟨es₁, es', rfl, hfs, hes'⟩ := (Element.reads_append hne).1 hr
  obtain ⟨fs, rfl⟩ := hfs.exists_frames
  exact ⟨fs, es', rfl, hfs, hes'.length_eq⟩

end Pieces

/-! ## What gets through -/

section Extension

variable {mac : Mac} {stale : ℕ → ℕ → CapabilityType} {t t' : CapabilityToken} {r : Request}
  {es : List Element} {gs : List Str} {fs : List Frame} {token : Option IdentityToken}

/-- Texts that are read as elements are cut into as many pieces. -/
theorem exists_splits_of_readsBody (h : ReadsBody stale (gs.flatMap (frameMarker ++ ·)) es)
    (hgs : gs ≠ []) : ∃ m qs, gs.flatMap (frameMarker ++ ·) = frameMarker ++ m ∧
      Splits frameMarker m qs ∧ qs.length = es.length := by
  obtain ⟨g, gs, rfl⟩ := List.exists_cons_of_ne_nil hgs
  obtain ⟨qs, last, hqs, -, hr⟩ := h
  rw [flatMap_cons_eq, strFrames_frameMarker_iff] at hqs
  exact ⟨_, qs, flatMap_cons_eq _ _ _, hqs, hr.length_eq.symm⟩

/-- The tag in front of an extension. -/
theorem tagText_extension (hlast : t.body.getLast? = some (.request r)) (hes : es ≠ []) :
    tagText (t.extension mac es gs) = chain mac.computeMac t.tag (es.map Element.toString) := by
  obtain ⟨l, -, htext, -⟩ := exists_splits_toString hlast
  have hassoc : t.extension mac es gs = chain mac.computeMac t.tag (es.map Element.toString) ++
      frameMarker ++ (l ++ gs.flatMap (frameMarker ++ ·)) := by
    rw [CapabilityToken.extension, htext]
    simp only [List.append_assoc]
  rw [hassoc, tagText_append (mac.isTag_chain _ (by simpa using hes)).first_frameMarker]

/-- The beginning of a derivation that holds is a derivation that holds, with the constraints
that were looked at. -/
theorem usable_of_isValidDerivation (hbody : t.body = fs.map .frame ++ es) (hes : es ≠ [])
    (hid : ∀ i ∈ token, i.identityToken ≠ []) (h : t.isValidDerivation token = true) :
    Usable fs token := by
  obtain ⟨-, hderived, hvalid⟩ := CapabilityToken.isValidDerivation_iff.1 h
  rw [hbody] at hderived hvalid
  refine ⟨(List.isChain_append.1 hderived).1, hid, fun k hk => hvalid k ?_⟩
  rw [List.dropLast_append_of_ne_nil hes]
  exact Element.mem_firstConstraints_of_prefix (List.prefix_append _ _) hk

/-- Only a token that reopens has an extension that is not refused. -/
theorem exists_reopensAs (hlast : t.body.getLast? = some (.request r)) (h : t.Extends mac es gs t')
    (hval : t'.continueValidation mac token = true) :
    ∃ (fs : List Frame) (es' : List Element), t'.body = fs.map .frame ++ es' ∧ es' ≠ [] ∧
      t.ReopensAs mac fs token := by
  obtain ⟨hgs, ⟨stale, hes⟩, ⟨stale', hs⟩, hfree⟩ := h
  obtain ⟨m, qs, hm, hqs, hlen⟩ := exists_splits_of_readsBody hes hgs
  have htag : IsTag (chain mac.computeMac t.tag (es.map Element.toString)) :=
    mac.isTag_chain _ (by simpa using hes.ne_nil)
  have hne : qs ≠ [] := by
    rintro rfl
    exact hes.ne_nil (List.length_eq_zero_iff.1 hlen.symm)
  obtain ⟨-, ps, -, -, -, hps⟩ := exists_splits_toString hlast
  obtain ⟨es', hread, rfl⟩ := CapabilityToken.fromString_false_eq_ok.1 hs
  rw [CapabilityToken.extension, hm] at hread
  obtain ⟨fs, es₂, rfl, hfs, hlen'⟩ :=
    readsBody_append_toString htag.first_frameMarker hlast hps hqs hne hread
  have hne' : es₂ ≠ [] := List.ne_nil_of_length_pos (hlen' ▸ List.length_pos_iff.2 hne)
  obtain ⟨hid, hsig, hder⟩ := CapabilityToken.continueValidation_iff.1 hval
  rw [CapabilityToken.isValidSignature_iff, tagText_extension hlast hes.ne_nil, htag.trim_eq,
    htag.cStr_eq, mac.bodyTag_append] at hsig
  -- both chains end over equally many elements, so the frames have the tag of the token
  have hcancel := chain_cancel (by simp [hlen', hlen]) (hfree _ es₂ rfl (by omega)) hsig
  refine ⟨fs, es₂, rfl, hne', ⟨stale', ps, hps, hfs⟩, hcancel.1, ?_⟩
  exact usable_of_isValidDerivation rfl hne'
    (fun i hi => (CapabilityToken.isValidIdentityToken_iff.1 (hid i hi)).1.1) hder

theorem CapabilityToken.ReopensAs.ne_nil (h : t.ReopensAs mac fs token)
    (hlast : t.body.getLast? = some (.request r)) : fs ≠ [] := by
  obtain ⟨⟨stale, ps, hps, hfs⟩, -, -⟩ := h
  obtain ⟨l, ps', -, hend, hl, hps'⟩ := exists_splits_toString hlast
  obtain rfl : ps = ps' := Except.ok.inj (hps.symm.trans hps')
  have hps : ps ≠ [] := hl.ne_nil fun h0 => by
    rw [h0, List.suffix_nil] at hend
    exact r.toString_ne_nil hend
  exact fun h0 => hfs.ne_nil hps (by simp [h0])

/-- A token that reopens is read again, with any element behind it. -/
theorem extends_of_reopensAs (hlast : t.body.getLast? = some (.request r))
    (h : t.ReopensAs mac fs token) {e : Element} {m p : Str} (hgs : gs ≠ [])
    (hm : gs.flatMap (frameMarker ++ ·) = frameMarker ++ m) (hp : Splits frameMarker m [p])
    (he : ∀ stale i, Element.ReadsLast stale i p e) :
    t.Extends mac [e] gs ⟨mac.bodyTag (fs.map .frame ++ [e]), fs.map .frame ++ [e],
      Element.lastRequest (fs.map .frame ++ [e])⟩ := by
  obtain ⟨⟨stale, ps, hps, hfs⟩, htag, -⟩ := h
  have hchain : chain mac.computeMac t.tag ([e].map Element.toString) =
      mac.bodyTag (fs.map .frame ++ [e]) := by
    rw [mac.bodyTag_append, htag]
  have hout : IsTag (mac.bodyTag (fs.map .frame ++ [e])) := mac.isTag_bodyTag (by simp)
  refine ⟨hgs, ⟨stale, ?_⟩, ⟨stale, CapabilityToken.fromString_false_eq_ok.2
    ⟨fs.map .frame ++ [e], readsBody_iff.2 ⟨ps, p, fs, e, ?_, rfl, hfs, he _ _⟩, ?_⟩⟩, ?_⟩
  · rw [hm, ← List.nil_append (frameMarker ++ m), ← List.append_assoc]
    have hp' : Splits frameMarker m ([] ++ [p]) := hp
    exact (readsBody_append first_frameMarker_nil hp').2 ⟨[], e, rfl, .nil, he _ _⟩
  · rw [CapabilityToken.extension, hm, hchain]
    exact strFrames_append_toString hout.first_frameMarker hlast hps hp
  · rw [tagText_extension hlast (by simp), hchain, hout.trim_eq]
  · -- the element is the only message of both chains, and the key is the same
    intro es₁ es₂ hes hlen
    obtain ⟨rfl, rfl⟩ := List.append_inj' hes (by simpa using hlen.symm)
    intro q hq q' hq' _
    simp only [htag, List.map_singleton, queries_cons, queries_nil, List.mem_append,
      List.mem_singleton, or_self] at hq hq'
    rw [hq, hq']

end Extension

/-! ## Nothing behind a request -/

/-- Every element in front of a capability has one of the same type. -/
theorem Element.exists_type_of_derived {es : List Element} {e : Element}
    (h : Element.Derived (es ++ [e])) {c : CapabilityStructure} (hc : c ∈ e.getCapabilities) :
    ∀ e' ∈ es ++ [e], ∃ p ∈ e'.getCapabilities, p.type = c.type := by
  induction es using List.reverseRecOn generalizing e c with
  | nil =>
    intro e' he'
    obtain rfl := List.mem_singleton.1 he'
    exact ⟨c, hc, rfl⟩
  | append_singleton es prev ih =>
    obtain ⟨hprev, -, hfrom⟩ := List.isChain_append.1 h
    obtain ⟨p, hp, hcov⟩ := hfrom prev (by simp) e (by simp) c hc
    have htype : c.type = p.type := (isCapSubsetOfCap_iff.1 (covered_iff.1 hcov).2).1
    intro e' he'
    rcases List.mem_append.1 he' with he' | he'
    · rw [htype]
      exact ih hprev hp e' he'
    · obtain rfl := List.mem_singleton.1 he'
      exact ⟨c, hc, rfl⟩

section Closing

variable {mac : Mac} {t : CapabilityToken} {r : Request}

/-- No extension of a token with a request gets through the checks, exactly if the token does
not reopen. -/
theorem request_closes_chain_iff (hlast : t.body.getLast? = some (.request r)) :
    (∀ es gs t' token, t.Extends mac es gs t' → t'.isValidRequest mac token = .ok false) ↔
      ¬∃ fs token, t.ReopensAs mac fs token := by
  constructor
  · rintro hall ⟨fs, token, h⟩
    -- an empty frame behind the token, which is taken for a request
    have hempty : Splits frameMarker frameMarker [[]] := by
      simpa using Splits.cut first_frameMarker_nil .nil
    have hext : t.Extends mac [.frame .empty] [[], []] _ :=
      extends_of_reopensAs hlast h (by simp) (by simp) hempty fun _ _ =>
        ⟨by decide, Frame.fromString_nil _⟩
    obtain ⟨es, e, r', hbody⟩ := CapabilityToken.exists_of_isValidRequest_eq_ok
      (continueValidation_presentedTo mac (by simp) rfl h.usable.identity
        ((isValidDerivation_iff_of_body rfl rfl).2 ⟨h.usable.derived, h.usable.constraints⟩))
      (hall _ _ _ _ hext)
    have hlast' := congrArg List.getLast? hbody
    simp at hlast'
  · intro hno es gs t' token hext
    refine CapabilityToken.isValidRequest_of_not fun hcont => hno ?_
    obtain ⟨fs, -, -, -, h⟩ := exists_reopensAs hlast hext hcont
    exact ⟨fs, token, h⟩

/-! A request that is read as a frame with another printed text. -/

/-- The tag of a frame and a request. -/
def closedTag : Str :=
  hexEncode 0xCBFD37D5D06DF5E9ABBD156DC3D87E7633E1204AB6F079A267A1E03EA0054DC2

/-- A frame for every path. -/
def rootFrame : Frame :=
  ⟨[⟨['*'], .deviceCap, 0b111⟩], []⟩

/-- A request with a value that reads as the end of a capability. -/
def closedRequest : Request :=
  ⟨⟨['a'], .deviceCap, 0b000⟩, ['h'], "x+0+111".toList⟩

/-- The frame and the request. -/
def closedToken : CapabilityToken :=
  ⟨closedTag, [.frame rootFrame, .request closedRequest], some closedRequest⟩

/-- The frame that the text of the request is read as. -/
def requestFrame : Frame :=
  ⟨[⟨"request:a:h:x".toList, .deviceCap, 0b111⟩], []⟩

/-- A request for no operation on no resource. -/
def emptyRequest : Request :=
  ⟨⟨[], .deviceCap, 0b000⟩, [], []⟩

/-- The text of a request for nothing. -/
def emptyRequestText : Str := "request::::000".toList

/-- HMAC(SHA-256) as far as the token goes, with a request for nothing behind it or not. -/
def closedMac : Mac :=
  .ofChains
    [[("*+0+111".toList, 0x5B6D8AE74082FDE4FF97A39491579C2D170EFB56262885DDB03A19337D031988),
      ("request:a:h:x+0+111:000".toList,
        0xCBFD37D5D06DF5E9ABBD156DC3D87E7633E1204AB6F079A267A1E03EA0054DC2),
      (emptyRequestText, 0x35D2EFDCAFDE21D8B73F3ECD7AD6F7AF9AA8EABCB0DDA995E7DC50B07641749B)],
     [("*+0+111".toList, 0x5B6D8AE74082FDE4FF97A39491579C2D170EFB56262885DDB03A19337D031988),
      ("request:a:h:x+0+111".toList,
        0x72C2C30DFA1E7B0576BE000C1D383B98A52FD92511616F0C5A429CE1C9C997AC),
      (emptyRequestText, 0x3EA9129A60C4F562873A6948F7757E02DA8481BBD38FB05FBC41912973D30722)]]

theorem not_reopensAs_closedToken : ¬∃ fs token, closedToken.ReopensAs closedMac fs token := by
  rintro ⟨fs, token, ⟨stale, ps, hps, hfs⟩, htag, -⟩
  have hpieces : strFrames (closedToken.toString false) =
      .ok ["*+0+111".toList, "request:a:h:x+0+111:000".toList] := by
    decide +kernel
  obtain rfl : _ = ps := Except.ok.inj (hpieces.symm.trans hps)
  have hread : Element.Reads stale false 0 ["*+0+111".toList, "request:a:h:x+0+111:000".toList]
      [.frame rootFrame, .frame requestFrame] :=
    .frame (by simp) rfl (.frame (by simp) rfl .nil)
  rw [hfs.unique hread] at htag
  revert htag
  decide +kernel

theorem fromString_emptyRequestText (mac : Mac) (stale : ℕ → ℕ → CapabilityType) :
    CapabilityToken.empty.fromString mac stale (frameMarker ++ emptyRequestText) false =
      .ok ⟨[], [.request emptyRequest], some emptyRequest⟩ := by
  rfl

theorem extends_closedToken : closedToken.Extends closedMac [.request emptyRequest]
    [emptyRequestText]
    ⟨hexEncode 0x35D2EFDCAFDE21D8B73F3ECD7AD6F7AF9AA8EABCB0DDA995E7DC50B07641749B,
      [.frame rootFrame, .frame requestFrame, .request emptyRequest], some emptyRequest⟩ where
  texts := by simp
  elements := ⟨fun _ _ => .ownerCap,
    CapabilityToken.readsBody_of_fromString (fromString_emptyRequestText closedMac _)⟩
  parsed := ⟨fun _ _ => .ownerCap, by decide +kernel⟩
  collisionFree es₁ es₂ hes hlen := by
    have hes' : [Element.frame rootFrame, .frame requestFrame] ++ [.request emptyRequest] =
        es₁ ++ es₂ := hes
    obtain ⟨rfl, rfl⟩ := List.append_inj' hes' (by simpa using hlen.symm)
    decide +kernel

/-- The extension is parsed, and refused. -/
theorem request_closes_chain_closed :
    CapabilityToken.isValidRequest closedMac
      ⟨hexEncode 0x35D2EFDCAFDE21D8B73F3ECD7AD6F7AF9AA8EABCB0DDA995E7DC50B07641749B,
        [.frame rootFrame, .frame requestFrame, .request emptyRequest], some emptyRequest⟩ none =
      .ok false := by
  have hlast : closedToken.body.getLast? = some (.request closedRequest) := rfl
  exact (request_closes_chain_iff hlast).2 not_reopensAs_closedToken _ _ _ _ extends_closedToken

/-! A request that is read as a frame with the same text. -/

/-- The tag of `reopenedBody`. -/
def reopenedTag : Str :=
  hexEncode 0x6B9E5B27007661F39CEF2D08C409CDCAC94A0E727CBC7482A27F4AEB862C20F8

/-- A request with a value that reads as a capability and the start of a constraint. -/
def reopenedBody : Str :=
  "%FRAME%*+0+111%FRAME%request:a:h:x+0+111$FUNCTION:000".toList

/-- The request in it. -/
def reopenedRequest : Request :=
  ⟨⟨['a'], .deviceCap, 0b000⟩, ['h'], "x+0+111$FUNCTION".toList⟩

/-- What the text is read as. -/
def reopenedToken : CapabilityToken :=
  ⟨reopenedTag, [.frame rootFrame, .request reopenedRequest], some reopenedRequest⟩

/-- What the text of the request is read as when another one follows. -/
def reopenedFrame : Frame :=
  ⟨[⟨"request:a:h:x".toList, .deviceCap, 0b111⟩], [⟨"000".toList, []⟩]⟩

/-- HMAC(SHA-256) as far as the text goes with a request for nothing behind it. -/
def reopenedMac : Mac :=
  .ofChains
    [[("*+0+111".toList, 0x5B6D8AE74082FDE4FF97A39491579C2D170EFB56262885DDB03A19337D031988),
      ("request:a:h:x+0+111$FUNCTION:000".toList,
        0x6B9E5B27007661F39CEF2D08C409CDCAC94A0E727CBC7482A27F4AEB862C20F8),
      (emptyRequestText, 0x2B6483992CD8D8408A24AE96D672CF930320E21C4608D5E83DC5B3529065F0A6)]]

theorem reopensAs_reopenedToken :
    reopenedToken.ReopensAs reopenedMac [rootFrame, reopenedFrame] none where
  reads := ⟨fun _ _ => .ownerCap,
    ["*+0+111".toList, "request:a:h:x+0+111$FUNCTION:000".toList], by decide +kernel,
    .frame (by simp) rfl (.frame (by simp) rfl .nil)⟩
  tag := by decide +kernel
  usable := ⟨by decide +kernel, by simp, by decide +kernel⟩

/-- A token with a request is extended by a second request, which is accepted. -/
theorem not_request_closes_chain : ¬∀ (mac : Mac) (stale : ℕ → ℕ → CapabilityType) (s : Str)
    (t : CapabilityToken) (r : Request),
    CapabilityToken.empty.fromString mac stale s false = .ok t →
      t.body.getLast? = some (.request r) → ∀ es gs t' token, t.Extends mac es gs t' →
        t'.isValidRequest mac token = .ok false := by
  intro h
  have hparsed : CapabilityToken.empty.fromString reopenedMac (fun _ _ => .ownerCap)
      (reopenedTag ++ reopenedBody) false = .ok reopenedToken := by
    decide +kernel
  have hempty : Splits frameMarker emptyRequestText [emptyRequestText] :=
    .last (by decide) (by decide +kernel)
  have hext : reopenedToken.Extends reopenedMac [.request emptyRequest] [emptyRequestText]
      (tokenFor reopenedMac [rootFrame, reopenedFrame] emptyRequest) :=
    extends_of_reopensAs rfl reopensAs_reopenedToken (by simp) (by simp) hempty
      fun _ _ => ⟨by decide +kernel, by decide +kernel⟩
  have hrefused := h reopenedMac _ _ _ reopenedRequest hparsed rfl _ _ _ none hext
  revert hrefused
  decide +kernel

/-- None is accepted, exactly if the token does not reopen as frames for some request. -/
theorem not_accepted_behind_request_iff (hlast : t.body.getLast? = some (.request r)) :
    (∀ es gs t' token, t.Extends mac es gs t' → t'.isValidRequest mac token ≠ .ok true) ↔
      ¬∃ fs token, t.ReopensAs mac fs token ∧ Serves fs := by
  constructor
  · rintro hall ⟨fs, token, h, f, hf, c, hc, htype⟩
    -- the generic request of a capability of the last frame behind the token
    have hfree : ¬frameMarker <:+: c.resource := by
      obtain ⟨stale, ps, hps, hfs⟩ := h.reads
      obtain ⟨text, -, hs⟩ := splits_of_strFrames hps
      exact resource_free_of_readsFrames hfs hs.free_of_mem (.frame f)
        (List.mem_map_of_mem (List.mem_of_getLast? hf)) c hc
    have hclean : (genericRequest c ['a'] 0).Clean := clean_genericRequest (by simp)
    have hsplit : Splits frameMarker (genericRequest c ['a'] 0).toString
        [(genericRequest c ['a'] 0).toString] :=
      .last (Request.toString_ne_nil _) (frameMarker_free_genericRequest hfree (by simp))
    have hext : t.Extends mac [.request (genericRequest c ['a'] 0)]
        [(genericRequest c ['a'] 0).toString] _ :=
      extends_of_reopensAs hlast h (by simp) (by simp) hsplit fun _ _ =>
        ⟨(Request.requestMarker_prefix_toString _).isInfix, Request.fromString_toString hclean _⟩
    rw [Element.lastRequest_append_request] at hext
    refine hall _ _ _ _ hext (isValidRequest_tokenFor h.usable hf hc
      (covered_genericRequest (by simp) (by simp) htype)
      (identityAccepted_presentedTo mac h.usable.identity ?_) (identityOf_presentedTo mac _ token))
    exact (mac.isTag_bodyTag (by simp)).ne_nil
  · intro hno es gs t' token hext hacc
    obtain ⟨hcont, es₀, e, r', hbody, c, hc, hcov⟩ :=
      CapabilityToken.isValidRequest_eq_true_iff.1 hacc
    obtain ⟨fs, es', hbody', hne, h⟩ := exists_reopensAs hlast hext hcont
    obtain ⟨-, hderived, -⟩ := CapabilityToken.isValidDerivation_iff.1
      (CapabilityToken.continueValidation_iff.1 hcont).2.2
    have hclean : Element.Clean (.request r') := by
      obtain ⟨stale, hs⟩ := hext.parsed
      exact (CapabilityToken.readsBody_of_fromString hs).clean _ (by simp [hbody])
    have htype : c.type = .deviceCap :=
      (isCapSubsetOfCap_iff.1 (covered_iff.1 hcov).2).1.symm.trans hclean.type
    obtain ⟨es₁, x, rfl⟩ := (List.eq_nil_or_concat' es').resolve_left hne
    have hsplit : es₀ ++ [e] ++ [.request r'] = fs.map .frame ++ es₁ ++ [x] := by
      rw [List.append_assoc, List.append_assoc, ← hbody', hbody]
      rfl
    obtain ⟨hfront, -⟩ := List.append_inj' hsplit rfl
    have hderived' : Element.Derived (es₀ ++ [e]) := by
      rw [hbody, List.append_cons] at hderived
      exact (List.isChain_append.1 hderived).1
    obtain ⟨fs, f, rfl⟩ := (List.eq_nil_or_concat' fs).resolve_left (h.ne_nil hlast)
    obtain ⟨p, hp, hp'⟩ := Element.exists_type_of_derived hderived' hc (.frame f) (by simp [hfront])
    exact hno ⟨_, token, h, f, by simp, p, hp, hp'.trans htype⟩

end Closing

end Caplets
