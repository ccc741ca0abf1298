import Caplets.Requests

/-!
# One capability token through many calls

A `CapabilityToken` object can be parsed into, extended and changed by its setters in any
order. `run` is any sequence of such calls.

Two rules of its state carry the results. The calls that append elements extend the chain from
the key for the next element (`linkKey_run`), so they neither break nor repair a tag
(`isValidSignature_run_iff`), and on a fresh object they lead to the tag that the whole
body is minted with (`tag_run_empty`). The field `request` is set whenever a request is
parsed, and by `set_request` to whatever is passed, so the calls alone say whether it is a null
pointer (`isSome_request_run`). `is_valid_request_cspot` reads through it after a request was
accepted, and through nothing else that is not there (`cspot_faults_of_run`). The field is the
request in the body as long as `set_request` is not used and requests only come from parsers, so
the operation is then compared with the request that was signed (`cspot_answer_of_run`).
-/

namespace Caplets

open Delimited KeyedChain

namespace CapabilityToken

/-- `set_body_frames(body)`. -/
def setBodyFrames (self : CapabilityToken) (body : List Element) : CapabilityToken :=
  { self with body }

/-- A call that changes a token. Where a parser is called, `stale` is what uninitialised memory
holds. A frame that is added may be a request, and the request that is set may be `NULL`. -/
inductive Call
  | fromString (stale : ℕ → ℕ → CapabilityType) (text : Str) (calcTag : Bool)
  | fromStringNoTag (stale : ℕ → ℕ → CapabilityType) (text : Str) (calcTag : Bool)
  | addFrame (frame : Element)
  | setTag (tag : Str)
  | setRequest (request : Option Request) (updateTag : Bool)
  | setBodyFrames (body : List Element)

namespace Call

/-- The call appends elements and updates the tag for them. -/
def Appends : Call → Prop
  | fromString _ _ calcTag => calcTag = true
  | fromStringNoTag _ _ calcTag => calcTag = true
  | addFrame _ => True
  | setTag _ | setRequest _ _ | setBodyFrames _ => False

/-- The call leaves requests in the body to the parser, and sets no null pointer. -/
def KeepsBody : Call → Prop
  | addFrame (.request _) | setBodyFrames _ | setRequest none _ => False
  | fromString _ _ _ | fromStringNoTag _ _ _ | addFrame (.frame _) | setTag _
    | setRequest (some _) _ => True

/-- The call leaves the requests in the body and the stored one to the parser. -/
def KeepsRequest : Call → Prop
  | addFrame (.request _) | setRequest _ _ | setBodyFrames _ => False
  | fromString _ _ _ | fromStringNoTag _ _ _ | addFrame (.frame _) | setTag _ => True

/-- `has_request` of `from_string_no_tag`. -/
def hasRequest (text : Str) : Bool :=
  match strFrames text with
  | .ok strFrames => strFrames.getLast?.any fun last => decide (0 ≤ findIndex last requestMarker)
  | .error _ => false

/-- Whether the field `request` points to a request after the call. -/
def pointsAfter (points : Bool) : Call → Bool
  | fromString _ text _ | fromStringNoTag _ text _ => points || hasRequest text
  | setRequest request _ => request.isSome
  | addFrame _ | setTag _ | setBodyFrames _ => points

end Call

/-- Whether it does after all calls on a fresh object. -/
def pointsToRequest (calls : List Call) : Bool :=
  calls.foldl Call.pointsAfter false

section Run

variable (mac : Mac)

/-- The object after a call. -/
def call (self : CapabilityToken) : Call → Except Fault CapabilityToken
  | .fromString stale text calcTag => self.fromString mac stale text calcTag
  | .fromStringNoTag stale text calcTag => self.fromStringNoTag mac stale text calcTag
  | .addFrame frame => self.addFrame mac frame
  | .setTag tag => .ok (self.setTag tag)
  | .setRequest request updateTag => self.setRequest mac request updateTag
  | .setBodyFrames body => .ok (self.setBodyFrames body)

/-- The object after a sequence of calls, if none of them faults. -/
def run (self : CapabilityToken) (calls : List Call) : Except Fault CapabilityToken :=
  calls.foldlM (call mac) self

end Run

variable {mac : Mac} {self t : CapabilityToken} {calls : List Call}

/-- What every call of a run keeps holds after the run. -/
theorem run_induction {P : CapabilityToken → Prop} (hself : P self)
    (hcall : ∀ t c t', c ∈ calls → P t → t.call mac c = .ok t' → P t')
    (h : run mac self calls = .ok t) : P t := by
  induction calls generalizing self with
  | nil =>
    rw [run, List.foldlM_nil, pure_eq_ok] at h
    exact h ▸ hself
  | cons c calls ih =>
    rw [run, List.foldlM_cons, bind_eq_ok] at h
    obtain ⟨t', ht', hrun⟩ := h
    exact ih (hcall self c t' List.mem_cons_self hself ht')
      (fun t c t' hc => hcall t c t' (List.mem_cons_of_mem _ hc)) hrun

/-- The delegated token, made by three different calls. -/
def delegatedCalls : List Call :=
  [.fromString (fun _ _ => .ownerCap) "%FRAME%/a+0+111$FUNCTION:identity_constraint:alice".toList
      true,
    .addFrame (.frame ⟨[⟨"/a/b".toList, .deviceCap, 0b001⟩], []⟩),
    .fromStringNoTag (fun _ _ => .ownerCap) "%FRAME%request:/a/b:h:v:001".toList true]

theorem run_delegatedCalls : run delegatedMac empty delegatedCalls = .ok delegatedToken := by
  decide +kernel

theorem forall_mem_delegatedCalls {P : Call → Prop}
    (hfrom : ∀ stale text, P (.fromString stale text true)) (hadd : ∀ f, P (.addFrame (.frame f)))
    (hnoTag : ∀ stale text, P (.fromStringNoTag stale text true)) : ∀ c ∈ delegatedCalls, P c := by
  simp only [delegatedCalls, List.forall_mem_cons, List.not_mem_nil, false_implies, implies_true,
    and_true]
  exact ⟨hfrom _ _, hadd _, hnoTag _ _⟩

/-! ## Appending -/

/-- The key after elements are appended is the chain over them. -/
theorem linkKey_foldl_push (es : List Element) : ∀ t : CapabilityToken,
    (es.foldl (push mac true) t).linkKey =
      chain mac.computeMac t.linkKey (es.map Element.toString) := by
  induction es with
  | nil => exact fun t => rfl
  | cons e es ih =>
    intro t
    rw [List.foldl_cons, ih, List.map_cons, chain_cons]
    simp [push, linkKey]

/-- What one appending call does. -/
theorem exists_of_call_eq_ok {c : Call} (hc : c.Appends) (h : self.call mac c = .ok t) :
    ∃ es, t.body = self.body ++ es ∧
      t.linkKey = chain mac.computeMac self.linkKey (es.map Element.toString) := by
  have hparse : ∀ stale text, self.fromStringNoTag mac stale text true = .ok t →
      ∃ es, t.body = self.body ++ es ∧
        t.linkKey = chain mac.computeMac self.linkKey (es.map Element.toString) := by
    intro stale text h
    obtain ⟨es, -, rfl⟩ := fromStringNoTag_eq_ok.1 h
    exact ⟨es, body_foldl_push es, linkKey_foldl_push es self⟩
  cases c with
  | fromString stale text calcTag =>
    obtain rfl : calcTag = true := hc
    exact hparse stale text h
  | fromStringNoTag stale text calcTag =>
    obtain rfl : calcTag = true := hc
    exact hparse stale text h
  | addFrame frame =>
    rw [call, addFrame_eq, Except.ok.injEq] at h
    subst h
    exact ⟨[frame], rfl, by simp [linkKey]⟩
  | setTag | setRequest | setBodyFrames => exact hc.elim

/-- A run of appending calls extends the chain by what it appends. -/
theorem linkKey_run (hcalls : ∀ c ∈ calls, c.Appends) (h : run mac self calls = .ok t) :
    ∃ es, t.body = self.body ++ es ∧
      t.linkKey = chain mac.computeMac self.linkKey (es.map Element.toString) := by
  refine run_induction (P := fun t => ∃ es, t.body = self.body ++ es ∧
    t.linkKey = chain mac.computeMac self.linkKey (es.map Element.toString)) ⟨[], by simp, rfl⟩ ?_ h
  rintro t c t' hc ⟨es, hbody, hkey⟩ ht'
  obtain ⟨es', hbody', hkey'⟩ := exists_of_call_eq_ok (hcalls c hc) ht'
  refine ⟨es ++ es', by rw [hbody', hbody, List.append_assoc], ?_⟩
  rw [hkey', hkey, List.map_append, chain_append]

/-- From a fresh object, any appending calls lead to the tag that the whole body is minted
with. -/
theorem tag_run_empty (hcalls : ∀ c ∈ calls, c.Appends) (h : run mac empty calls = .ok t)
    (hbody : t.body ≠ []) : t.tag = mac.bodyTag t.body ∧ t.isValidSignature mac = true := by
  obtain ⟨es, hes, hkey⟩ := linkKey_run hcalls h
  rw [linkKey, if_neg hbody] at hkey
  have htag : t.tag = mac.bodyTag t.body := by
    rw [hkey, hes]
    rfl
  refine ⟨htag, isValidSignature_iff.2 ?_⟩
  rw [htag, mac.cStr_bodyTag]

theorem tag_run_empty_delegated : delegatedToken.tag = delegatedMac.bodyTag delegatedToken.body ∧
    delegatedToken.isValidSignature delegatedMac = true :=
  tag_run_empty (forall_mem_delegatedCalls (fun _ _ => rfl) (fun _ => trivial) fun _ _ => rfl)
    run_delegatedCalls (by simp [delegatedToken])

/-- Appending calls neither break nor repair the tag of a token, however many there are. -/
theorem isValidSignature_run_iff (hcalls : ∀ c ∈ calls, c.Appends) (hbody : self.body ≠ [])
    (hnul : '\x00' ∉ self.tag) (h : run mac self calls = .ok t)
    (hfree : ∀ es, t.body = self.body ++ es → CollisionFree mac.computeMac
      (queries mac.computeMac (mac.bodyTag self.body) (es.map Element.toString) ++
        queries mac.computeMac self.tag (es.map Element.toString))) :
    t.isValidSignature mac = true ↔ self.isValidSignature mac = true := by
  obtain ⟨es, hes, hkey⟩ := linkKey_run hcalls h
  have hbody' : t.body ≠ [] := by simp [hes, hbody]
  rw [linkKey, if_neg hbody', linkKey, if_neg hbody] at hkey
  rw [isValidSignature_iff, isValidSignature_iff, cStr_eq_self hnul, hkey, hes, mac.bodyTag_append]
  rcases eq_or_ne es [] with rfl | hne
  · rw [List.map_nil, chain_nil, chain_nil, cStr_eq_self hnul]
  · rw [(mac.isTag_chain self.tag (by simpa using hne)).cStr_eq]
    constructor
    · exact fun heq => (chain_cancel rfl (hfree es hes) heq).1
    · exact fun heq => by rw [heq]

/-- A first frame under another tag, with the second frame added. -/
theorem isValidSignature_run_delegated : ∃ t',
    run delegatedMac ⟨['0'], delegatedToken.body.take 1, none⟩
        [.addFrame (.frame ⟨[⟨"/a/b".toList, .deviceCap, 0b001⟩], []⟩)] = .ok t' ∧
      t'.isValidSignature delegatedMac = false := by
  have hrun : run delegatedMac ⟨['0'], delegatedToken.body.take 1, none⟩
      [.addFrame (.frame ⟨[⟨"/a/b".toList, .deviceCap, 0b001⟩], []⟩)] = .ok _ := rfl
  refine ⟨_, hrun, ?_⟩
  rw [Bool.eq_false_iff, Ne, isValidSignature_run_iff (by simp [Call.Appends]) (by decide +kernel)
    (by decide) hrun fun es hes => ?_]
  · decide +kernel
  · obtain rfl : [.frame ⟨[⟨"/a/b".toList, .deviceCap, 0b001⟩], []⟩] = es :=
      List.append_cancel_left hes
    decide +kernel

/-! ## Faults -/

/-- The cast of the last element fails on a frame. -/
theorem isValidRequest_of_body_frame {token : Option IdentityToken} {ds : List Element}
    {d : Element} {f : Frame} (hbody : t.body = ds ++ [d, .frame f])
    (hcont : t.continueValidation mac token = true) :
    t.isValidRequest mac token = .error .badCast := by
  have hlen : t.body.length = ds.length + 2 := by simp [hbody]
  have hprev : t.bodyAt (t.body.length - 2) = .ok d := by
    rw [bodyAt_eq_ok, hlen, hbody]
    simp
  have hlast : t.bodyAt (t.body.length - 1) = .ok (.frame f) := by
    have hi : ((ds.length + 2 : ℕ) - 1 : ℤ).toNat = ds.length + 1 := by omega
    rw [bodyAt_eq_ok, hlen, hi, hbody]
    refine ⟨by omega, ?_⟩
    simp
  rw [isValidRequest, if_pos hcont]
  simp only [hprev, hlast]
  rfl

/-- The request check faults exactly on valid tokens of one element, and on valid tokens that
end in a frame. -/
theorem isValidRequest_eq_error_iff {token : Option IdentityToken} {fault : Fault} :
    t.isValidRequest mac token = .error fault ↔ t.continueValidation mac token = true ∧
      (fault = .badIndex ∧ t.body.length = 1 ∨
        fault = .badCast ∧ 2 ≤ t.body.length ∧ ∃ f, t.body.getLast? = some (.frame f)) := by
  by_cases hcont : t.continueValidation mac token = true
  · obtain ⟨-, -, hder⟩ := continueValidation_iff.1 hcont
    obtain ⟨es, e, hes⟩ := (List.eq_nil_or_concat' t.body).resolve_left
      (isValidDerivation_iff.1 hder).1
    rcases List.eq_nil_or_concat' es with rfl | ⟨ds, d, rfl⟩
    · have hfault : t.isValidRequest mac token = .error .badIndex := by
        rw [isValidRequest, if_pos hcont]
        simp [hes, bodyAt, bind, Except.bind]
      simp [hfault, hcont, hes, eq_comm]
    · have hbody : t.body = ds ++ [d, e] := by simp [hes]
      cases e with
      | request r =>
        rw [isValidRequest_of_body hbody hcont]
        simp [hbody]
      | frame f =>
        have hfault : t.isValidRequest mac token = .error .badCast :=
          isValidRequest_of_body_frame hbody hcont
        simp [hfault, hcont, hbody, eq_comm]
  · rw [isValidRequest_of_not hcont]
    simp [hcont]

/-! ## The field `request` -/

/-- What a parser does to an object, whether it sets the tag or not. -/
theorem exists_of_fromStringNoTag {stale : ℕ → ℕ → CapabilityType} {text : Str} {calcTag : Bool}
    (h : self.fromStringNoTag mac stale text calcTag = .ok t) :
    ∃ es, ReadsBody stale text es ∧ t.body = self.body ++ es ∧
      t.request = (Element.lastRequest es).or self.request := by
  obtain ⟨es, hes, rfl⟩ := fromStringNoTag_eq_ok.1 h
  exact ⟨es, hes, body_foldl_push es, request_foldl_push calcTag hes self⟩

theorem exists_of_fromString {stale : ℕ → ℕ → CapabilityType} {text : Str} {calcTag : Bool}
    (h : self.fromString mac stale text calcTag = .ok t) :
    ∃ es, ReadsBody stale text es ∧ t.body = self.body ++ es ∧
      t.request = (Element.lastRequest es).or self.request := by
  cases calcTag with
  | true => exact exists_of_fromStringNoTag h
  | false =>
    have h' : (self.setTag (tagText text)).fromStringNoTag mac stale text false = .ok t := h
    obtain ⟨es, hes, hbody, hrequest⟩ := exists_of_fromStringNoTag h'
    exact ⟨es, hes, hbody, hrequest⟩

theorem updateTag_eq_ok (h : self.updateTag mac = .ok t) :
    t.body = self.body ∧ t.request = self.request := by
  rw [updateTag] at h
  cases hlast : self.body.getLast? with
  | none => simp [hlast] at h
  | some last =>
    simp only [hlast] at h
    split_ifs at h with hlen
    · rw [Except.ok.injEq] at h
      exact h ▸ ⟨rfl, rfl⟩
    · rw [Except.ok.injEq] at h
      exact h ▸ ⟨rfl, rfl⟩

theorem setRequest_eq_ok {request : Option Request} {updateTag : Bool}
    (h : self.setRequest mac request updateTag = .ok t) :
    t.body = self.body ∧ t.request = request := by
  rw [setRequest] at h
  split_ifs at h with htag
  · exact updateTag_eq_ok h
  · rw [Except.ok.injEq] at h
    exact h ▸ ⟨rfl, rfl⟩

/-- A request in the elements of a text is the one that is stored. -/
theorem lastRequest_of_mem {stale : ℕ → ℕ → CapabilityType} {text : Str} {es : List Element}
    {r : Request} (h : ReadsBody stale text es) (hr : .request r ∈ es) :
    Element.lastRequest es = some r := by
  obtain ⟨ps, p, fs, e, -, rfl, -⟩ := readsBody_iff.1 h
  obtain rfl : .request r = e := by simpa using hr
  exact Element.lastRequest_append_request _ r

/-- A parser stores a request if the last piece is one. -/
theorem isSome_lastRequest {stale : ℕ → ℕ → CapabilityType} {text : Str} {es : List Element}
    (h : ReadsBody stale text es) : (Element.lastRequest es).isSome = Call.hasRequest text := by
  obtain ⟨ps, p, fs, e, hps, rfl, -, he⟩ := readsBody_iff.1 h
  simp only [Call.hasRequest, hps, List.getLast?_concat, Option.any_some, findIndex_nonneg]
  cases e with
  | frame f =>
    rw [Element.lastRequest_append_frame, Option.isSome_none]
    exact (decide_eq_false he.1).symm
  | request r =>
    rw [Element.lastRequest_append_request, Option.isSome_some]
    exact (decide_eq_true he.1).symm

/-- What one call leaves in the field. -/
theorem isSome_request_of_call {c : Call} (h : self.call mac c = .ok t) :
    t.request.isSome = c.pointsAfter self.request.isSome := by
  have hparse : ∀ stale text, (∃ es, ReadsBody stale text es ∧ t.body = self.body ++ es ∧
      t.request = (Element.lastRequest es).or self.request) →
        t.request.isSome = (self.request.isSome || Call.hasRequest text) := by
    rintro stale text ⟨es, hes, -, hrequest⟩
    rw [hrequest, Option.isSome_or, isSome_lastRequest hes, Bool.or_comm]
  cases c with
  | fromString stale text calcTag => exact hparse stale text (exists_of_fromString h)
  | fromStringNoTag stale text calcTag => exact hparse stale text (exists_of_fromStringNoTag h)
  | addFrame frame =>
    rw [call, addFrame_eq, Except.ok.injEq] at h
    exact h ▸ rfl
  | setTag tag | setBodyFrames body =>
    rw [call, Except.ok.injEq] at h
    exact h ▸ rfl
  | setRequest request updateTag =>
    rw [(setRequest_eq_ok h).2]
    rfl

/-- The calls say whether the field points to a request. -/
theorem isSome_request_run (h : run mac self calls = .ok t) :
    t.request.isSome = calls.foldl Call.pointsAfter self.request.isSome := by
  induction calls generalizing self with
  | nil =>
    rw [run, List.foldlM_nil, pure_eq_ok] at h
    exact h ▸ rfl
  | cons c calls ih =>
    rw [run, List.foldlM_cons, bind_eq_ok] at h
    obtain ⟨t', ht', hrun⟩ := h
    rw [ih hrun, isSome_request_of_call ht', List.foldl_cons]

/-- A token with a request in its body has the field set, if only parsers put requests there and
`NULL` is not set. -/
theorem isSome_request_of_keepsBody {c : Call} (hc : c.KeepsBody)
    (hself : ∀ r, .request r ∈ self.body → self.request.isSome) (h : self.call mac c = .ok t) :
    ∀ r, .request r ∈ t.body → t.request.isSome := by
  have hparse : (∃ stale text es, ReadsBody stale text es ∧ t.body = self.body ++ es ∧
      t.request = (Element.lastRequest es).or self.request) →
        ∀ r, .request r ∈ t.body → t.request.isSome := by
    rintro ⟨stale, text, es, hes, hbody, hrequest⟩ r hr
    rw [hbody, List.mem_append] at hr
    rw [hrequest, Option.isSome_or, Bool.or_eq_true]
    rcases hr with hr | hr
    · exact Or.inr (hself r hr)
    · exact Or.inl (by rw [lastRequest_of_mem hes hr]; rfl)
  cases c with
  | fromString stale text calcTag => exact hparse ⟨_, _, exists_of_fromString h⟩
  | fromStringNoTag stale text calcTag => exact hparse ⟨_, _, exists_of_fromStringNoTag h⟩
  | addFrame frame =>
    rw [call, addFrame_eq, Except.ok.injEq] at h
    subst h
    cases frame with
    | frame f => exact fun r hr => hself r (by simpa using hr)
    | request r => exact hc.elim
  | setTag tag =>
    rw [call, Except.ok.injEq] at h
    exact h ▸ hself
  | setRequest request updateTag =>
    intro r _
    rw [(setRequest_eq_ok h).2]
    cases request with
    | none => exact hc.elim
    | some r => rfl
  | setBodyFrames body => exact hc.elim

/-- The request at the end of the body is the one in the field. -/
theorem request_eq_of_call {c : Call} (hc : c.KeepsRequest)
    (hself : ∀ r, self.body.getLast? = some (.request r) → self.request = some r)
    (h : self.call mac c = .ok t) :
    ∀ r, t.body.getLast? = some (.request r) → t.request = some r := by
  have hparse : (∃ stale text es, ReadsBody stale text es ∧ t.body = self.body ++ es ∧
      t.request = (Element.lastRequest es).or self.request) →
        ∀ r, t.body.getLast? = some (.request r) → t.request = some r := by
    rintro ⟨stale, text, es, hes, hbody, hrequest⟩ r hr
    rw [hbody, List.getLast?_append_of_ne_nil _ hes.ne_nil] at hr
    rw [hrequest, lastRequest_of_mem hes (List.mem_of_getLast? hr), Option.some_or]
  cases c with
  | fromString stale text calcTag => exact hparse ⟨_, _, exists_of_fromString h⟩
  | fromStringNoTag stale text calcTag => exact hparse ⟨_, _, exists_of_fromStringNoTag h⟩
  | addFrame frame =>
    rw [call, addFrame_eq, Except.ok.injEq] at h
    subst h
    cases frame with
    | frame f =>
      intro r hr
      simp at hr
    | request r => exact hc.elim
  | setTag tag =>
    rw [call, Except.ok.injEq] at h
    exact h ▸ hself
  | setRequest | setBodyFrames => exact hc.elim

section Cspot

variable {token : Option IdentityToken} {op : BitVec 3}

theorem exists_request_of_isValidRequest (h : t.isValidRequest mac token = .ok true) :
    ∃ r, t.body.getLast? = some (.request r) := by
  obtain ⟨-, es, e, r, hbody, -⟩ := isValidRequest_eq_true_iff.1 h
  exact ⟨r, by simp [hbody]⟩

/-- The check for an operation faults where the request check does, and reads through the pointer
if that answers `true`. -/
theorem isValidRequestCspot_eq_error_iff {fault : Fault} :
    t.isValidRequestCspot mac token op = .error fault ↔
      t.isValidRequest mac token = .error fault ∨
        fault = .nullPointer ∧ t.isValidRequest mac token = .ok true ∧ t.request = none := by
  rw [isValidRequestCspot]
  cases hanswer : t.isValidRequest mac token with
  | error fault' => simp [bind, Except.bind]
  | ok answer =>
    cases answer with
    | false => simp [bind, Except.bind, pure, Except.pure]
    | true => cases hrequest : t.request <;> simp [bind, Except.bind, pure, Except.pure, eq_comm]

/-- After any calls on a fresh object, the check for an operation faults where the request check
does, and on a null pointer exactly if the request is accepted and the calls left no request in
the field. The latter never happens if only parsers put requests into the body and `NULL` is not
set. -/
theorem cspot_faults_of_run (h : run mac empty calls = .ok t) :
    (∀ fault, t.isValidRequestCspot mac token op = .error fault ↔
      t.continueValidation mac token = true ∧
        (fault = .badIndex ∧ t.body.length = 1 ∨
          fault = .badCast ∧ 2 ≤ t.body.length ∧ ∃ f, t.body.getLast? = some (.frame f)) ∨
      fault = .nullPointer ∧ t.isValidRequest mac token = .ok true ∧
        pointsToRequest calls = false) ∧
    ((∀ c ∈ calls, c.KeepsBody) →
      t.isValidRequestCspot mac token op ≠ .error .nullPointer) := by
  have hpoints : t.request = none ↔ pointsToRequest calls = false := by
    rw [← Option.not_isSome_iff_eq_none, isSome_request_run h, Bool.not_eq_true]
    rfl
  refine ⟨fun fault => ?_, fun hcalls hnull => ?_⟩
  · rw [isValidRequestCspot_eq_error_iff, isValidRequest_eq_error_iff, hpoints]
  · have hsome : ∀ r, .request r ∈ t.body → t.request.isSome :=
      run_induction (P := fun t => ∀ r, .request r ∈ t.body → t.request.isSome) (by simp [empty])
        (fun t c t' hc ht ht' => isSome_request_of_keepsBody (hcalls c hc) ht ht') h
    rcases isValidRequestCspot_eq_error_iff.1 hnull with hfault | ⟨-, haccepted, hnone⟩
    · simp [isValidRequest_eq_error_iff] at hfault
    · obtain ⟨r, hr⟩ := exists_request_of_isValidRequest haccepted
      simpa [hnone] using hsome r (List.mem_of_getLast? hr)

/-- There is no fault on the delegated token, but there is one after `set_request(NULL)`. -/
theorem cspot_faults_of_run_delegated :
    delegatedToken.isValidRequestCspot delegatedMac (some delegatedIdentity) 0b001 ≠
      .error .nullPointer ∧
    isValidRequestCspot delegatedMac { delegatedToken with request := none }
      (some delegatedIdentity) 0b001 = .error .nullPointer := by
  have hnull : run delegatedMac empty (delegatedCalls ++ [.setRequest none false]) =
      .ok { delegatedToken with request := none } := by
    decide +kernel
  exact ⟨(cspot_faults_of_run run_delegatedCalls).2 (forall_mem_delegatedCalls (fun _ _ => trivial)
      (fun _ => trivial) fun _ _ => trivial),
    ((cspot_faults_of_run hnull).1 .nullPointer).2
      (Or.inr ⟨rfl, by decide +kernel, by decide +kernel⟩)⟩

/-- A request that `add_frame` puts into the body is signed and accepted, but not stored. -/
example : ∃ t, run delegatedMac empty ((delegatedFrames.map fun f => .addFrame (.frame f)) ++
      [.addFrame (.request delegatedRequest)]) = .ok t ∧
    t.isValidRequestCspot delegatedMac (some delegatedIdentity) 0b001 = .error .nullPointer :=
  ⟨{ delegatedToken with request := none }, by decide +kernel, by decide +kernel⟩

/-- After any calls of the parsers, of `add_frame` for frames that are no requests and of
`set_tag`, an operation is allowed exactly if the request is accepted and the request that was
signed is compared with success. -/
theorem cspot_answer_of_run (hcalls : ∀ c ∈ calls, c.KeepsRequest)
    (h : run mac empty calls = .ok t) :
    t.isValidRequestCspot mac token op = .ok true ↔ t.isValidRequest mac token = .ok true ∧
      ∃ r, t.body.getLast? = some (.request r) ∧ isCapBitsValid r.capability.capBits op = true := by
  have hkept : ∀ r, t.body.getLast? = some (.request r) → t.request = some r :=
    run_induction (P := fun t => ∀ r, t.body.getLast? = some (.request r) → t.request = some r)
      (by simp [empty]) (fun t c t' hc ht ht' => request_eq_of_call (hcalls c hc) ht ht') h
  by_cases hlast : ∃ r, t.body.getLast? = some (.request r)
  · obtain ⟨r, hr⟩ := hlast
    rw [isValidRequestCspot_eq_true_iff (hkept r hr)]
    simp [hr]
  · refine ⟨fun hcspot => absurd ?_ hlast, fun hcspot => absurd ?_ hlast⟩
    · rw [isValidRequestCspot, bind_eq_ok] at hcspot
      obtain ⟨answer, hanswer, hrest⟩ := hcspot
      cases answer with
      | false => simp at hrest
      | true => exact exists_request_of_isValidRequest hanswer
    · exact exists_request_of_isValidRequest hcspot.1

/-- A read operation with the request that was signed. -/
theorem cspot_answer_of_run_delegated :
    delegatedToken.isValidRequestCspot delegatedMac (some delegatedIdentity) 0b001 = .ok true :=
  (cspot_answer_of_run (forall_mem_delegatedCalls (fun _ _ => trivial) (fun _ => trivial)
    fun _ _ => trivial) run_delegatedCalls).2
      ⟨isValidRequest_delegatedToken, delegatedRequest, rfl, rfl⟩

end Cspot

end CapabilityToken

end Caplets
