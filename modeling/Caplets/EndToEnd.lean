import Caplets.Delegation
import Caplets.Issuance
import Caplets.Transport

/-!
# Honest requests

`deliver` is the whole way of a request : the capability token is minted from its text, the
identity token is issued for an identity and the tag, both are sent as text, parsed and
checked. An `HonestRun` keeps to the format, to what was delegated and to its identity, and
is accepted (`deliver_honest`), whatever uninitialised memory holds on either side.
-/

namespace Caplets

open Delimited KeyedChain

/-- Minting and issuing on one side, parsing and checking on the other. -/
def deliver (mac : Mac) (stale stale' : ℕ → ℕ → CapabilityType) (text identity : Str) :
    Except Fault Bool := do
  let minted ← CapabilityToken.empty.fromString mac stale text true
  let issued := (IdentityToken.empty.createInitialToken mac).1.addIdentityToken mac identity
  let received ← CapabilityToken.empty.fromString mac stale' (minted.toString true) false
  let receivedId ← IdentityToken.empty.fromString (issued.addRequestTag mac minted.tag)
  received.isValidRequest mac (some receivedId)

/-- The format of a frame. -/
structure Frame.Honest (f : Frame) : Prop where
  capabilities : f.capabilities ≠ []
  types : ∀ c ∈ f.capabilities, c.TypeSet
  resources : ∀ c ∈ f.capabilities,
    '+' ∉ c.resource ∧ '$' ∉ c.resource ∧ '%' ∉ c.resource ∧ ¬functionMarker <:+: c.resource
  fields : ∀ k ∈ f.constraints, ∀ x ∈ k.fields, x ≠ [] ∧ ':' ∉ x ∧ '$' ∉ x ∧ '%' ∉ x

instance (f : Frame) : Decidable f.Honest :=
  decidable_of_iff (f.capabilities ≠ [] ∧ (∀ c ∈ f.capabilities, c.TypeSet) ∧
      (∀ c ∈ f.capabilities,
        '+' ∉ c.resource ∧ '$' ∉ c.resource ∧ '%' ∉ c.resource ∧ ¬functionMarker <:+: c.resource) ∧
      ∀ k ∈ f.constraints, ∀ x ∈ k.fields, x ≠ [] ∧ ':' ∉ x ∧ '$' ∉ x ∧ '%' ∉ x)
    ⟨fun h => ⟨h.1, h.2.1, h.2.2.1, h.2.2.2⟩,
      fun h => ⟨h.capabilities, h.types, h.resources, h.fields⟩⟩

/-- Frames delegated one from the other, a request that the last one covers, and the
identity that all constraints name. -/
structure HonestRun where
  frames : List Frame
  request : Request
  identity : Str
  frames_honest : ∀ f ∈ frames, f.Honest
  derived : Element.Derived (frames.map .frame)
  request_clean : request.Clean
  request_percent : ∀ x ∈ [request.capability.resource, request.handlerName, request.value],
    '%' ∉ x
  request_covered : ∃ f ∈ frames.getLast?, ∃ c ∈ f.capabilities, covered request.capability c = true
  identity_ne_nil : identity ≠ []
  identity_percent : '%' ∉ identity
  constraints : ∀ f ∈ frames, ∀ k ∈ f.constraints, k.IsIdentity → k.parameters = [identity]

namespace Frame

variable {f : Frame}

theorem Honest.clean (h : f.Honest) : f.Clean where
  capabilities c hc := by
    obtain ⟨hplus, hdollar, -, hfun⟩ := h.resources c hc
    exact ⟨hplus, hdollar, hfun⟩
  constraints k hk :=
    ⟨fun x hx => (h.fields k hk x hx).2.1, fun x hx => (h.fields k hk x hx).2.2.1⟩

theorem Honest.readable (h : f.Honest) : f.Readable where
  types := h.types
  fields k hk x hx := (h.fields k hk x (List.mem_of_getLast? hx)).1
  capabilities _ := h.capabilities

theorem Honest.not_endsInMarker (h : f.Honest) : ¬f.EndsInMarker := by
  rintro ⟨k, hk, x, hx, hcut⟩
  exact (h.fields k (List.mem_of_getLast? hk) x (List.mem_of_getLast? hx)).2.2.2
    (hcut.subset percent_mem_cutMarker)

theorem Honest.frameMarker_free (h : f.Honest) : ¬frameMarker <:+: f.toString :=
  frameMarker_free_toString
    (fun c hc hin => (h.resources c hc).2.2.1 (hin.subset percent_mem_frameMarker))
    fun k hk x hx hin => (h.fields k hk x hx).2.2.2 (hin.subset percent_mem_frameMarker)

end Frame

/-- The format of a request. -/
structure Request.Honest (r : Request) : Prop where
  clean : r.Clean
  percent : ∀ x ∈ [r.capability.resource, r.handlerName, r.value], '%' ∉ x

theorem Request.Honest.frameMarker_free {r : Request} (h : r.Honest) :
    ¬frameMarker <:+: r.toString :=
  frameMarker_free_toString fun x hx hin => h.percent x hx (hin.subset percent_mem_frameMarker)

namespace Element

/-- The format of either. -/
def Honest : Element → Prop
  | frame f => f.Honest
  | request r => r.Honest

variable {e : Element}

theorem Honest.clean (h : e.Honest) : e.Clean :=
  match e, h with
  | .frame _, h => Frame.Honest.clean h
  | .request _, h => Request.Honest.clean h

theorem Honest.frameMarker_free (h : e.Honest) : ¬frameMarker <:+: e.toString :=
  match e, h with
  | .frame _, h => Frame.Honest.frameMarker_free h
  | .request _, h => Request.Honest.frameMarker_free h

end Element

/-! ## Reading honest elements -/

/-- The text of the last frame is not taken for a request. -/
def Unmarked (fs : List Frame) : Prop :=
  ∀ f ∈ fs.getLast?, ¬requestMarker <:+: f.toString

instance (fs : List Frame) : Decidable (Unmarked fs) :=
  inferInstanceAs (Decidable (∀ f ∈ fs.getLast?, ¬requestMarker <:+: f.toString))

section Read

variable {mac : Mac} {stale : ℕ → ℕ → CapabilityType} {tag : Str} {fs : List Frame} {r : Request}
  {request : Option Request}

theorem honest_body (hfs : ∀ f ∈ fs, f.Honest) (hreq : ∀ r ∈ request, r.Honest) :
    ∀ e ∈ fs.map Element.frame ++ request.toList.map .request, e.Honest := by
  intro e he
  rcases List.mem_append.1 he with he | he
  · obtain ⟨f, hf, rfl⟩ := List.mem_map.1 he
    exact hfs f hf
  · obtain ⟨r, hr, rfl⟩ := List.mem_map.1 he
    exact hreq r (by simpa using hr)

/-- A frame with capabilities is not empty, so the last of honest frames is read, too. -/
theorem transportable_of_honest {f : Frame} (h : ∀ g ∈ fs ++ [f], g.Honest) :
    Transportable (fs.map .frame ++ [.frame f]) := by
  refine ⟨fun g hg => ?_, fun g hg => ?_, fun h0 => ?_⟩
  · exact (h g (by simpa using hg)).readable
  · exact (h g (by simp at hg; simp [hg])).not_endsInMarker
  · rw [List.getLast?_concat] at h0
    obtain rfl := Element.frame.inj (Option.some.inj h0)
    exact (h .empty (by simp)).capabilities rfl

/-- Honest frames, and possibly a request behind them, are read from their printed text. -/
theorem readsBody_honest (htag : First frameMarker tag) (hfs : ∀ f ∈ fs, f.Honest)
    (hreq : ∀ r ∈ request, r.Honest)
    (hlast : request = none → ∃ f ∈ fs.getLast?, ¬requestMarker <:+: f.toString) :
    ReadsBody stale (tag ++ frameMarker ++ frameMarker.intercalate
      ((fs.map Element.frame ++ request.toList.map Element.request).map Element.toString))
        (fs.map .frame ++ request.toList.map .request) := by
  have hbody := honest_body hfs hreq
  cases request with
  | some r =>
    exact readsBody_printed htag (fun e he => (hbody e he).clean)
      (fun e he => (hbody e he).frameMarker_free) (by simp)
      (transportable_of_frames fun f hf => ⟨(hfs f hf).readable, (hfs f hf).not_endsInMarker⟩)
  | none =>
    obtain ⟨f, hf, hmark⟩ := hlast rfl
    obtain ⟨gs, rfl⟩ := List.getLast?_eq_some_iff.1 hf
    have hes : (gs ++ [f]).map Element.frame ++ (none : Option Request).toList.map .request =
        gs.map .frame ++ [.frame f] := by simp
    rw [hes] at hbody ⊢
    refine readsBody_printed htag (fun e he => (hbody e he).clean)
      (fun e he => (hbody e he).frameMarker_free) (fun g hg => ?_) (transportable_of_honest hfs)
    rwa [← Element.frame.inj hg]

/-- Frames alone are closed by no request. -/
theorem lastRequest_frames (fs : List Frame) : Element.lastRequest (fs.map .frame) = none := by
  rcases List.eq_nil_or_concat' fs with rfl | ⟨gs, f, rfl⟩
  · rfl
  · rw [List.map_append]
    exact Element.lastRequest_append_frame _ f

/-- Honest frames, and possibly a request behind them, are printed and read back. -/
theorem fromString_honest {t : CapabilityToken} {request : Option Request}
    (hbody : t.body = fs.map .frame ++ request.toList.map .request) (hne : t.body ≠ [])
    (htag : IsTag t.tag) (hfs : ∀ f ∈ fs, f.Honest) (hreq : ∀ r ∈ request, r.Honest)
    (hmark : request = none → Unmarked fs) :
    CapabilityToken.empty.fromString mac stale (t.toString true) false =
      .ok ⟨t.tag, t.body, request⟩ := by
  have hlast : request = none → ∃ f ∈ fs.getLast?, ¬requestMarker <:+: f.toString := by
    rintro rfl
    have hget := List.getLast?_eq_getLast_of_ne_nil (l := fs) (by simpa [hbody] using hne)
    exact ⟨_, hget, hmark rfl _ hget⟩
  have hrequest : Element.lastRequest t.body = request := by
    rw [hbody]
    cases request with
    | none => simpa using lastRequest_frames fs
    | some r => exact Element.lastRequest_append_request _ r
  rw [CapabilityToken.fromString_false_eq_ok, CapabilityToken.toString_true_eq hne]
  refine ⟨t.body, ?_, ?_⟩
  · rw [hbody]
    exact readsBody_honest htag.first_frameMarker hfs hreq hlast
  · rw [tagText_append htag.first_frameMarker, htag.trim_eq, hrequest]

/-- A request that is added but not stored is stored where the token is read. -/
theorem fromString_tokenFor (hfs : ∀ f ∈ fs, f.Honest) (hr : r.Honest) :
    CapabilityToken.empty.fromString mac stale
        (CapabilityToken.toString { tokenFor mac fs r with request := none } true) false =
      .ok (tokenFor mac fs r) := by
  have hreq : ∀ r' ∈ some r, r'.Honest := by
    intro r' hr'
    exact Option.some.inj hr' ▸ hr
  have htag : IsTag (tokenFor mac fs r).tag := mac.isTag_bodyTag (by simp)
  exact fromString_honest rfl (by simp [tokenFor]) htag hfs hreq (by simp)

end Read

/-- The identity token in the request of an issued token. -/
theorem fromString_addRequestTag (mac : Mac) {identity tag : Str} (hid : '%' ∉ identity)
    (htag : IsTag tag) :
    IdentityToken.empty.fromString (((IdentityToken.empty.createInitialToken mac).1.addIdentityToken
      mac identity).addRequestTag mac tag) = .ok (identityFor mac identity tag) := by
  rw [IdentityToken.addRequestTag_eq, IdentityToken.addIdentityToken, IdentityToken.setTag,
    (mac.isTag _ _).trim_eq, IdentityToken.createInitialToken, IdentityToken.setTag,
    (mac.isTag _ _).trim_eq, IdentityToken.fromString_text (mac.isTag _ _) hid
      htag.first_frameMarker.free htag.ne_nil]
  rfl

namespace HonestRun

variable (run : HonestRun)

/-- The elements that are sent. -/
def body : List Element := run.frames.map .frame ++ [.request run.request]

/-- The text the token is minted from. -/
def text : Str := CapabilityToken.toString ⟨[], run.body, none⟩ false

theorem request_honest : run.request.Honest :=
  ⟨run.request_clean, run.request_percent⟩

/-- The identity of the run can use its frames. -/
theorem usable (token : IdentityToken) (h : token.identityToken = run.identity) :
    Usable run.frames (some token) := by
  refine ⟨run.derived, by simpa [h] using run.identity_ne_nil, fun k hk => ?_⟩
  obtain ⟨e, he, hk⟩ := Element.exists_of_mem_firstConstraints hk
  obtain ⟨f, hf, rfl⟩ := List.mem_map.1 he
  exact Constraint.isValidConstraint_iff.2 fun hid =>
    ⟨run.identity, run.identity, by rw [identityOf, Option.map_some, h],
      run.constraints f hf k hk hid, rfl⟩

/-- The elements are read back behind any tag. -/
theorem readsBody {stale : ℕ → ℕ → CapabilityType} {tag : Str} (htag : First frameMarker tag) :
    ReadsBody stale (tag ++ frameMarker ++ frameMarker.intercalate (run.body.map Element.toString))
      run.body := by
  have hreq : ∀ r ∈ some run.request, r.Honest := by
    rintro r ⟨⟩
    exact run.request_honest
  have hbody : run.body =
      run.frames.map .frame ++ (some run.request).toList.map .request := rfl
  rw [hbody]
  exact readsBody_honest htag run.frames_honest hreq (by simp)

/-- The token is minted from its text. -/
theorem fromString_text (mac : Mac) (stale : ℕ → ℕ → CapabilityType) :
    CapabilityToken.empty.fromString mac stale run.text true =
      .ok (tokenFor mac run.frames run.request) := by
  have htext : run.text = [] ++ frameMarker ++
      frameMarker.intercalate (run.body.map Element.toString) :=
    CapabilityToken.toString_true_eq (t := ⟨[], run.body, none⟩) (by simp [body])
  rw [CapabilityToken.fromString_true_eq_ok, htext]
  refine ⟨run.body, run.readsBody first_frameMarker_nil, ?_⟩
  rw [body, Element.lastRequest_append_request]
  rfl

/-- Every honest request is accepted end to end. -/
theorem deliver_honest (mac : Mac) (stale stale' : ℕ → ℕ → CapabilityType) :
    deliver mac stale stale' run.text run.identity = .ok true := by
  have htag : IsTag (mac.bodyTag run.body) := mac.isTag_bodyTag (by simp [body])
  have hreceive : CapabilityToken.empty.fromString mac stale'
      ((tokenFor mac run.frames run.request).toString true) false =
        .ok (tokenFor mac run.frames run.request) :=
    fromString_tokenFor run.frames_honest run.request_honest
  have hreceiveId := fromString_addRequestTag mac run.identity_percent htag
  obtain ⟨f, hf, c, hc, hcov⟩ := run.request_covered
  have hvalid : (tokenFor mac run.frames run.request).isValidRequest mac
      (some (identityFor mac run.identity (mac.bodyTag run.body))) = .ok true := by
    refine isValidRequest_tokenFor (run.usable _ rfl) hf hc hcov ?_ rfl
    rintro i ⟨⟩
    exact isValidIdentityToken_identityFor mac run.identity_ne_nil htag.ne_nil rfl
  simp only [deliver, bind_eq_ok]
  exact ⟨_, run.fromString_text mac stale, _, hreceive, _, hreceiveId, hvalid⟩

/-- Two frames and a request for the user that the first frame names. -/
def delegated : HonestRun where
  frames := delegatedFrames
  request := delegatedRequest
  identity := "alice".toList
  frames_honest := by decide +kernel
  derived := by decide +kernel
  request_clean := ⟨by decide +kernel, by decide +kernel, by decide +kernel, rfl⟩
  request_percent := by decide +kernel
  request_covered := by decide +kernel
  identity_ne_nil := by decide +kernel
  identity_percent := by decide +kernel
  constraints := by decide +kernel

theorem deliver_honest_delegated : deliver delegatedMac (fun _ _ => .ownerCap) (fun _ _ => .userCap)
    delegated.text delegated.identity = .ok true :=
  deliver_honest delegated delegatedMac _ _

end HonestRun

end Caplets
