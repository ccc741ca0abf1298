import Caplets.Checks
import Caplets.Framing

/-!
# Issuing identity tokens

One `IdentityToken` object is created and then used for any sequence of `add_identity_token`
and `add_request_tag` calls. The tag it stores is the chain over all identities added so far
(`tag_run`), but of the identities it keeps the last one. What `add_request_tag` returns is
parsed as the last identity and the request tag (`fromString_addRequestTag_run`), and the
check recomputes a chain over these two. So a returned string verifies if there was one
identity, and not if there were more (`issuance_iff`).
-/

namespace Caplets

open Delimited KeyedChain

namespace IdentityToken

/-- A call after `create_initial_token`. -/
inductive Call
  | addIdentityToken (idToken : Str)
  | addRequestTag (requestTag : Str)

/-- The argument of the call. -/
def Call.text : Call → Str
  | addIdentityToken idToken => idToken
  | addRequestTag requestTag => requestTag

/-- The argument is not empty and free of `%`. -/
def Call.Plain (c : Call) : Prop := c.text ≠ [] ∧ '%' ∉ c.text

/-- The identities added, in order. -/
def identities (calls : List Call) : List Str :=
  calls.filterMap fun
    | .addIdentityToken idToken => some idToken
    | .addRequestTag _ => none

section Run

variable (mac : Mac)

/-- The object after a call. What `add_request_tag` returns is not stored. -/
def call (self : IdentityToken) : Call → IdentityToken
  | .addIdentityToken idToken => self.addIdentityToken mac idToken
  | .addRequestTag _ => self

/-- The object after `create_initial_token` and further calls, from any state before. -/
def run (prior : IdentityToken) (calls : List Call) : IdentityToken :=
  calls.foldl (call mac) (prior.createInitialToken mac).1

/-- What `add_request_tag` returns for `requestTag` after the calls `pre` is parsed as the
identity added last and `requestTag`, and verifies. -/
def Issues (prior : IdentityToken) (pre : List Call) (requestTag : Str) : Prop :=
  ∃ i, empty.fromString ((run mac prior pre).addRequestTag mac requestTag) = .ok i ∧
    (identities pre).getLast? = some i.identityToken ∧ i.requestTag = requestTag ∧
      i.isValidSignature mac = true

/-- The calls of `compute_mac` made for a string that is returned, and for the check of it. -/
def issuedQueries (pre : List Call) (requestTag : Str) : List (Str × Str) :=
  queries mac.computeMac SECRET (IDENTITY_TOKEN_DUMMY_BODY :: identities pre ++ [requestTag]) ++
    queries mac.computeMac SECRET [IDENTITY_TOKEN_DUMMY_BODY,
      (identities pre).getLast?.getD [], requestTag]

end Run

variable {mac : Mac} {prior : IdentityToken} {calls pre : List Call} {requestTag : Str}

theorem foldl_call (calls : List Call) (self : IdentityToken) :
    (calls.foldl (call mac) self).tag = chain mac.computeMac self.tag (identities calls) ∧
      (calls.foldl (call mac) self).identityToken =
        (identities calls).getLast?.getD self.identityToken := by
  induction calls generalizing self with
  | nil => simp [identities]
  | cons c calls ih =>
    rw [List.foldl_cons]
    obtain ⟨htag, hid⟩ := ih (self.call mac c)
    rw [htag, hid]
    cases c with
    | addIdentityToken idToken =>
      simp [identities, call, addIdentityToken, setTag, (mac.isTag _ _).trim_eq,
        List.getLast?_cons]
    | addRequestTag requestTag => simp [identities, call]

/-- The stored tag is the chain over all identities added. -/
theorem tag_run (prior : IdentityToken) (calls : List Call) : (run mac prior calls).tag =
    chain mac.computeMac SECRET (IDENTITY_TOKEN_DUMMY_BODY :: identities calls) := by
  rw [run, (foldl_call calls _).1, createInitialToken, setTag, (mac.isTag _ _).trim_eq, chain_cons]

/-- The stored identity is the last of them. -/
theorem identityToken_run (h : identities calls ≠ []) :
    (identities calls).getLast? = some (run mac prior calls).identityToken := by
  obtain ⟨ids, id, hids⟩ := (List.eq_nil_or_concat' (identities calls)).resolve_left h
  rw [run, (foldl_call calls _).2, hids]
  simp

/-- Pieces behind a tag are read as what their places say. -/
theorem fromString_pieces {tag : Str} (htag : IsTag tag) {ps : List Str}
    (hpercent : ∀ p ∈ ps.dropLast, '%' ∉ p)
    (hlast : ∀ p ∈ ps.getLast?, p ≠ [] ∧ ¬frameMarker <:+: p) (self : IdentityToken) :
    self.fromString (tag ++ frameMarker ++ frameMarker.intercalate ps) =
      .ok ⟨tag, ps[1]?.getD self.identityToken, ps[2]?.getD self.requestTag⟩ := by
  have hsplit : Splits frameMarker (frameMarker.intercalate ps) ps :=
    splits_intercalate (fun p hp => first_frameMarker_of_not_mem (hpercent p hp)) hlast
  refine fromString_eq_ok.2 ⟨ps, (strFrames_append_iff htag.first_frameMarker).2 hsplit, ?_⟩
  rw [tagText_append htag.first_frameMarker, htag.trim_eq]

/-- The text of an identity token with a request tag is read back. What the object held before
does not show. -/
theorem fromString_text {tag idToken requestTag : Str} (htag : IsTag tag) (hid : '%' ∉ idToken)
    (hmark : ¬frameMarker <:+: requestTag) (hne : requestTag ≠ []) (self : IdentityToken) :
    self.fromString (tag ++ frameMarker ++ frameMarker.intercalate
      [IDENTITY_TOKEN_DUMMY_BODY, idToken, requestTag]) = .ok ⟨tag, idToken, requestTag⟩ := by
  have hpieces : ∀ p ∈ [IDENTITY_TOKEN_DUMMY_BODY, idToken, requestTag].dropLast, '%' ∉ p := by
    simpa using ⟨by decide, hid⟩
  rw [fromString_pieces htag hpieces (by simpa using ⟨hne, hmark⟩)]
  rfl

/-- The pieces that a token is printed as. -/
theorem toString_true_eq (i : IdentityToken) : i.toString true = i.tag ++ frameMarker ++
    frameMarker.intercalate (IDENTITY_TOKEN_DUMMY_BODY ::
      if i.identityToken = [] then [] else [i.identityToken]) := by
  rw [toString, if_pos rfl]
  split_ifs with hid
  · rw [List.append_nil, List.intercalate_singleton]
  · simp only [List.intercalate_cons_cons, List.intercalate_singleton, List.append_assoc]

/-- The same with a request tag. -/
theorem addRequestTag_eq (self : IdentityToken) (requestTag : Str) :
    self.addRequestTag mac requestTag = mac.computeMac requestTag self.tag ++ frameMarker ++
      frameMarker.intercalate [IDENTITY_TOKEN_DUMMY_BODY, self.identityToken, requestTag] := by
  simp only [addRequestTag, List.intercalate_cons_cons, List.intercalate_singleton,
    List.append_assoc]

theorem mem_identities {idToken : Str} :
    idToken ∈ identities calls ↔ .addIdentityToken idToken ∈ calls := by
  rw [identities, List.mem_filterMap]
  constructor
  · rintro ⟨c, hc, h⟩
    cases c with
    | addIdentityToken id =>
      obtain rfl : id = idToken := by simpa using h
      exact hc
    | addRequestTag r => simp at h
  · exact fun h => ⟨_, h, rfl⟩

/-- A string that is returned is parsed as the last identity and the request tag, under the
chain over all identities and the request tag. -/
theorem fromString_addRequestTag_run (hpre : ∀ c ∈ pre, c.Plain) (hids : identities pre ≠ [])
    (hrequest : '%' ∉ requestTag) (hne : requestTag ≠ []) :
    empty.fromString ((run mac prior pre).addRequestTag mac requestTag) =
      .ok ⟨chain mac.computeMac SECRET
          (IDENTITY_TOKEN_DUMMY_BODY :: identities pre ++ [requestTag]),
        (run mac prior pre).identityToken, requestTag⟩ := by
  have hid : (run mac prior pre).identityToken ∈ identities pre :=
    List.mem_of_getLast? (identityToken_run hids)
  have hpercent : '%' ∉ (run mac prior pre).identityToken := (hpre _ (mem_identities.1 hid)).2
  have hmark : ¬frameMarker <:+: requestTag := (first_frameMarker_of_not_mem hrequest).free
  rw [addRequestTag_eq, fromString_text (mac.isTag _ _) hpercent hmark hne, tag_run, chain_append]
  rfl

/-- A returned string verifies if one identity was added before. -/
theorem issues_of_length_le (hpre : ∀ c ∈ pre, c.Plain) (hids : identities pre ≠ [])
    (hrequest : '%' ∉ requestTag) (hne : requestTag ≠ []) (hone : (identities pre).length ≤ 1) :
    Issues mac prior pre requestTag := by
  have hlast : (identities pre).getLast? = some (run mac prior pre).identityToken :=
    identityToken_run hids
  refine ⟨_, fromString_addRequestTag_run hpre hids hrequest hne, hlast, rfl, ?_⟩
  have hids' : identities pre = [(run mac prior pre).identityToken] := by
    obtain ⟨ids, hids⟩ := List.getLast?_eq_some_iff.1 hlast
    rw [hids, List.length_append, List.length_singleton] at hone
    have hnil : ids = [] := List.length_eq_zero_iff.1 (by omega)
    rw [hids, hnil, List.nil_append]
  have htag : IsTag (chain mac.computeMac SECRET
      (IDENTITY_TOKEN_DUMMY_BODY :: identities pre ++ [requestTag])) :=
    mac.isTag_chain _ (by simp)
  rw [isValidSignature_iff, htag.cStr_eq, messages, hids']
  rfl

/-- It does not if there were more. -/
theorem length_le_of_issues (hpre : ∀ c ∈ pre, c.Plain) (hids : identities pre ≠ [])
    (hrequest : '%' ∉ requestTag) (hne : requestTag ≠ [])
    (hfree : CollisionFree mac.computeMac (issuedQueries mac pre requestTag))
    (h : Issues mac prior pre requestTag) : (identities pre).length ≤ 1 := by
  obtain ⟨i, hi, hlast, -, hv⟩ := h
  rw [fromString_addRequestTag_run hpre hids hrequest hne] at hi
  obtain rfl := Except.ok.inj hi
  have htag : IsTag (chain mac.computeMac SECRET
      (IDENTITY_TOKEN_DUMMY_BODY :: identities pre ++ [requestTag])) :=
    mac.isTag_chain _ (by simp)
  rw [isValidSignature_iff, htag.cStr_eq, messages] at hv
  rw [issuedQueries, hlast, Option.getD_some] at hfree
  have hmessages := chain_inj (fun m k => (mac.isTag m k).ne_secret) hfree hv.symm
  have hlen := congrArg List.length hmessages
  simp only [List.length_cons, List.length_append, List.length_nil] at hlen
  omega

/-- In a run in which every `add_request_tag` call comes after at most one identity, all
strings returned after an identity was added carry it, carry the request tag and verify. In
any other run one of them does not. -/
theorem issuance_iff (hcalls : ∀ c ∈ calls, c.Plain) :
    ((∀ pre r post, calls = pre ++ .addRequestTag r :: post → (identities pre).length ≤ 1) →
      ∀ pre r post, calls = pre ++ .addRequestTag r :: post → identities pre ≠ [] →
        Issues mac prior pre r) ∧
    ((∀ pre r post, calls = pre ++ .addRequestTag r :: post →
        CollisionFree mac.computeMac (issuedQueries mac pre r)) →
      (∀ pre r post, calls = pre ++ .addRequestTag r :: post → identities pre ≠ [] →
        Issues mac prior pre r) →
      ∀ pre r post, calls = pre ++ .addRequestTag r :: post → (identities pre).length ≤ 1) := by
  have hplain : ∀ pre r post, calls = pre ++ .addRequestTag r :: post →
      (∀ c ∈ pre, c.Plain) ∧ (Call.addRequestTag r).Plain := by
    rintro pre r post rfl
    exact ⟨fun c hc => hcalls c (by simp [hc]), hcalls _ (by simp)⟩
  refine ⟨fun hone pre r post heq hids => ?_, fun hfree h pre r post heq => ?_⟩
  · obtain ⟨hpre, hne, hrequest⟩ := hplain pre r post heq
    exact issues_of_length_le hpre hids hrequest hne (hone pre r post heq)
  · obtain ⟨hpre, hne, hrequest⟩ := hplain pre r post heq
    rcases eq_or_ne (identities pre) [] with hids | hids
    · simp [hids]
    · exact length_le_of_issues hpre hids hrequest hne (hfree pre r post heq)
        (h pre r post heq hids)

/-- One identity, and the tag of a capability token as the request tag. -/
theorem issuance_delegated :
    Issues delegatedMac empty [.addIdentityToken "alice".toList] delegatedTag := by
  have hcalls : ∀ c ∈ [Call.addIdentityToken "alice".toList, .addRequestTag delegatedTag],
      c.Plain := by
    intro c hc
    have hc : c = .addIdentityToken "alice".toList ∨ c = .addRequestTag delegatedTag := by
      simpa using hc
    rcases hc with rfl | rfl
    · exact ⟨by decide, by decide⟩
    · have htag : IsTag delegatedTag := isTag_hexEncode _
      exact ⟨htag.ne_nil, htag.not_mem (by decide)⟩
  refine (issuance_iff hcalls).1 (fun pre r post h => ?_) _ _ [] rfl (by decide)
  have hlen := congrArg List.length h
  have hids : (identities pre).length ≤ pre.length := List.length_filterMap_le _ _
  simp only [List.length_cons, List.length_append, List.length_nil] at hlen
  omega

/-- HMAC(SHA-256) as far as two identities and a request tag go. -/
def reissueMac : Mac :=
  .ofChains
    [[("DummyBody".toList, 0xF2CF7EAEA66D6D0B965A8B12D29DFEDA60E43C9E9FB0D09486C67C40EE24F319),
      ("alice".toList, 0xE0E4B0FBD47C733B233F9F2CE8166C1C620D7CD06E9C4169DC66F4805DAF6A72),
      ("bob".toList, 0x8A408E56BD6ECA0B4A5BCB7D16C04EF24A3E569823FC6573A398ADE4F9FFA37E),
      (['R'], 0xEA4743F568075DB6662A016A9EE0BBCC261AC4303BA6203973F5E56116974B78)],
     [("DummyBody".toList, 0xF2CF7EAEA66D6D0B965A8B12D29DFEDA60E43C9E9FB0D09486C67C40EE24F319),
      ("bob".toList, 0x6C3632A99347F43F56C7747DDBBF3AC1BFDE4115F25EDEE3E2287563DBBC8322),
      (['R'], 0x9443F44E678F2B34DB35AB7DCDE0D128C65E5C8C470DAD1AC68117D36E490F03)]]

/-- With a second identity the returned string names it, under a tag that is keyed with the
first one as well. -/
theorem not_issuance : ¬∀ (mac : Mac) (prior : IdentityToken) (calls : List Call),
    (∀ c ∈ calls, c.Plain) → ∀ pre r post, calls = pre ++ .addRequestTag r :: post →
      identities pre ≠ [] → Issues mac prior pre r := by
  intro h
  have hcalls : ∀ c ∈ [Call.addIdentityToken "alice".toList, .addIdentityToken "bob".toList,
      .addRequestTag ['R']], c.Plain := by
    simp only [List.forall_mem_cons, Call.Plain, Call.text]
    decide
  obtain ⟨i, hi, -, -, hv⟩ := h reissueMac empty _ hcalls
    [.addIdentityToken "alice".toList, .addIdentityToken "bob".toList] ['R'] [] rfl (by decide)
  have hparsed : empty.fromString ((run reissueMac empty [.addIdentityToken "alice".toList,
      .addIdentityToken "bob".toList]).addRequestTag reissueMac ['R']) = .ok
        ⟨hexEncode 0xEA4743F568075DB6662A016A9EE0BBCC261AC4303BA6203973F5E56116974B78,
          "bob".toList, ['R']⟩ := by
    decide +kernel
  obtain rfl := Except.ok.inj (hparsed.symm.trans hi)
  exact absurd hv (by decide +kernel)

end IdentityToken

end Caplets
