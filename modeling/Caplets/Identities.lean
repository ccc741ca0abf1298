import Caplets.Issuance

/-!
# The life of an identity token

An identity token is issued, handed over as text, and used for any number of requests. The
string of a request can also be parsed into the object that returned it, as `main` does, and
`create_initial_token` can be called again.

The object stores a tag and one identity. What it stands for is its `History` : the messages
its tag is the chain over, and the identity that is printed. The object follows its history
through every call (`exists_life`). A request is accepted exactly if the only message is the
identity (`isValidIdentityToken_life_iff`). So handing over and requesting are free, and after
a second identity, or after the string of a request was parsed, the object is of no use until
it is created again and given its identity again.
-/

namespace Caplets

open Delimited KeyedChain

namespace IdentityToken

/-- `set_request_tag(req)`. -/
def setRequestTag (self : IdentityToken) (req : Str) : IdentityToken :=
  { self with requestTag := req }

/-- What is done with an identity token after `create_initial_token`. -/
inductive Use
  | createInitialToken
  | addIdentityToken (idToken : Str)
  | addRequestTag (requestTag : Str)
  | setRequestTag (req : Str)
  /-- The string that `add_request_tag` returns is parsed into the same object. -/
  | parseRequest (requestTag : Str)
  /-- The token is printed with its tag and parsed into another object. -/
  | handOver

/-- The text that is chained is not empty and free of `%`. -/
def Use.Plain : Use → Prop
  | addIdentityToken text | parseRequest text => text ≠ [] ∧ '%' ∉ text
  | createInitialToken | addRequestTag _ | setRequestTag _ | handOver => True

instance : DecidablePred Use.Plain
  | .addIdentityToken text | .parseRequest text =>
    inferInstanceAs (Decidable (text ≠ [] ∧ '%' ∉ text))
  | .createInitialToken | .addRequestTag _ | .setRequestTag _ | .handOver =>
    inferInstanceAs (Decidable True)

section Life

variable (mac : Mac)

/-- The object after one use. Only parsing can fault. -/
def use (self : IdentityToken) : Use → Except Fault IdentityToken
  | .createInitialToken => .ok (self.createInitialToken mac).1
  | .addIdentityToken idToken => .ok (self.addIdentityToken mac idToken)
  | .addRequestTag _ => .ok self
  | .setRequestTag req => .ok (self.setRequestTag req)
  | .parseRequest requestTag => self.fromString (self.addRequestTag mac requestTag)
  | .handOver => empty.fromString (self.toString true)

/-- The object that a fresh one has become. -/
def life (uses : List Use) : Except Fault IdentityToken :=
  uses.foldlM (use mac) (empty.createInitialToken mac).1

end Life

/-! ## What an object stands for -/

/-- The messages chained since `create_initial_token`, and the identity added last. -/
structure History where
  links : List Str
  identity : Str

/-- What one use changes. -/
def History.after (h : History) : Use → History
  | .createInitialToken => { h with links := [] }
  | .addIdentityToken idToken => ⟨h.links ++ [idToken], idToken⟩
  | .parseRequest requestTag => { h with links := h.links ++ [requestTag] }
  | .addRequestTag _ | .setRequestTag _ | .handOver => h

/-- The history after all uses. -/
def history (uses : List Use) : History :=
  uses.foldl History.after ⟨[], []⟩

/-- The object is in the state that the history leads to. -/
structure Follows (mac : Mac) (i : IdentityToken) (h : History) : Prop where
  tag : i.tag = chain mac.computeMac SECRET (IDENTITY_TOKEN_DUMMY_BODY :: h.links)
  identityToken : i.identityToken = h.identity
  percent : '%' ∉ h.identity
  links : ∀ m ∈ h.links, m ≠ []

variable {mac : Mac} {i : IdentityToken} {h : History} {uses : List Use}

theorem Follows.isTag (hi : Follows mac i h) : IsTag i.tag :=
  hi.tag ▸ mac.isTag_chain _ (by simp)

theorem follows_createInitialToken (mac : Mac) {identity : Str}
    (hid : i.identityToken = identity) (hpercent : '%' ∉ identity) :
    Follows mac (i.createInitialToken mac).1 ⟨[], identity⟩ where
  tag := by simp [createInitialToken, setTag, (mac.isTag _ _).trim_eq]
  identityToken := hid
  percent := hpercent
  links := by simp

/-! ## Texts of identity tokens -/

/-- The string of a request is parsed as the identity and the request tag. What the object
held before does not show. -/
theorem fromString_addRequestTag_of_follows (hi : Follows mac i h) {requestTag : Str}
    (hne : requestTag ≠ []) (hpercent : '%' ∉ requestTag) (self : IdentityToken) :
    self.fromString (i.addRequestTag mac requestTag) = .ok
      ⟨chain mac.computeMac SECRET (IDENTITY_TOKEN_DUMMY_BODY :: h.links ++ [requestTag]),
        h.identity, requestTag⟩ := by
  have hmark : ¬frameMarker <:+: requestTag := (first_frameMarker_of_not_mem hpercent).free
  rw [addRequestTag_eq, hi.identityToken, hi.tag, fromString_text (mac.isTag _ _) hi.percent hmark
    hne, chain_append]
  rfl

/-- A token is printed without its request tag, and read back. -/
theorem fromString_toString_of_follows (hi : Follows mac i h) :
    empty.fromString (i.toString true) = .ok ⟨i.tag, h.identity, []⟩ := by
  rw [toString_true_eq, hi.identityToken]
  split_ifs with hid
  · rw [fromString_pieces hi.isTag (by simp) (by simp; decide), hid]
    rfl
  · have hmark : ¬frameMarker <:+: h.identity := (first_frameMarker_of_not_mem hi.percent).free
    rw [fromString_pieces hi.isTag (by simp; decide) (by simpa using ⟨hid, hmark⟩)]
    rfl

/-! ## Following the history -/

/-- Every call is followed. -/
theorem Follows.use (hi : Follows mac i h) {u : Use} (hu : u.Plain) :
    ∃ i', i.use mac u = .ok i' ∧ Follows mac i' (h.after u) := by
  cases u with
  | createInitialToken =>
    exact ⟨_, rfl, follows_createInitialToken mac hi.identityToken hi.percent⟩
  | addIdentityToken idToken =>
    refine ⟨_, rfl, ?_, rfl, hu.2, fun m hm => ?_⟩
    · simp [addIdentityToken, setTag, (mac.isTag _ _).trim_eq, History.after, hi.tag]
    · rcases List.mem_append.1 hm with hm | hm
      · exact hi.links m hm
      · exact List.mem_singleton.1 hm ▸ hu.1
  | addRequestTag => exact ⟨i, rfl, hi⟩
  | setRequestTag => exact ⟨_, rfl, hi.tag, hi.identityToken, hi.percent, hi.links⟩
  | parseRequest requestTag =>
    refine ⟨_, fromString_addRequestTag_of_follows hi hu.1 hu.2 i, rfl, rfl, hi.percent,
      fun m hm => ?_⟩
    rcases List.mem_append.1 hm with hm | hm
    · exact hi.links m hm
    · exact List.mem_singleton.1 hm ▸ hu.1
  | handOver =>
    exact ⟨_, fromString_toString_of_follows hi, hi.tag, rfl, hi.percent, hi.links⟩

/-- No call of a life faults, and the object stands for its history. -/
theorem exists_life (huses : ∀ u ∈ uses, u.Plain) :
    ∃ i, life mac uses = .ok i ∧ Follows mac i (history uses) := by
  have hrun : ∀ (i : IdentityToken) (h : History), Follows mac i h →
      ∃ i', uses.foldlM (IdentityToken.use mac) i = .ok i' ∧
        Follows mac i' (uses.foldl History.after h) := by
    induction uses with
    | nil => exact fun i h hi => ⟨i, rfl, hi⟩
    | cons u uses ih =>
      intro i h hi
      obtain ⟨i', hi', hfollows⟩ := hi.use (huses u List.mem_cons_self)
      obtain ⟨j, hj, hfollows'⟩ :=
        ih (fun u hu => huses u (List.mem_cons_of_mem _ hu)) i' _ hfollows
      refine ⟨j, ?_, hfollows'⟩
      rw [List.foldlM_cons, bind_eq_ok]
      exact ⟨i', hi', hj⟩
  exact hrun _ _ (follows_createInitialToken mac rfl (by simp))

/-- The calls of `compute_mac` made for a request, and for the check of it. -/
def requestQueries (mac : Mac) (h : History) (requestTag : Str) : List (Str × Str) :=
  queries mac.computeMac SECRET (IDENTITY_TOKEN_DUMMY_BODY :: h.links ++ [requestTag]) ++
    queries mac.computeMac SECRET [IDENTITY_TOKEN_DUMMY_BODY, h.identity, requestTag]

/-- What is read from the string of a request passes the check if its identity was chained
and nothing else. -/
theorem isValidIdentityToken_iff_of_follows (hi : Follows mac i h) {t : CapabilityToken}
    (htag : t.tag ≠ []) (hfree : CollisionFree mac.computeMac (requestQueries mac h t.tag)) :
    t.isValidIdentityToken mac ⟨chain mac.computeMac SECRET
        (IDENTITY_TOKEN_DUMMY_BODY :: h.links ++ [t.tag]), h.identity, t.tag⟩ = true ↔
      h.links = [h.identity] := by
  have hout : IsTag (chain mac.computeMac SECRET
      (IDENTITY_TOKEN_DUMMY_BODY :: h.links ++ [t.tag])) :=
    mac.isTag_chain _ (by simp)
  rw [CapabilityToken.isValidIdentityToken_iff, isValidSignature_iff, hout.cStr_eq, messages]
  constructor
  · rintro ⟨-, -, hchain⟩
    have hmessages := chain_inj (fun m k => (mac.isTag m k).ne_secret) hfree hchain.symm
    have hlinks : h.links ++ [t.tag] = [h.identity] ++ [t.tag] := by simpa using hmessages
    exact List.append_cancel_right hlinks
  · intro hlinks
    have hne : h.identity ≠ [] := hi.links _ (by simp [hlinks])
    exact ⟨⟨hne, htag, hout.ne_nil⟩, rfl, by rw [hlinks]; rfl⟩

/-- Whatever was done with an object, its requests for a capability token name the identity
added last, and they are accepted exactly if nothing but this identity was chained since the
object was created. -/
theorem isValidIdentityToken_life_iff (huses : ∀ u ∈ uses, u.Plain) {t : CapabilityToken}
    (htag : t.tag ≠ []) (hpercent : '%' ∉ t.tag)
    (hfree : CollisionFree mac.computeMac (requestQueries mac (history uses) t.tag)) :
    ∃ i i', life mac uses = .ok i ∧ empty.fromString (i.addRequestTag mac t.tag) = .ok i' ∧
      i'.identityToken = (history uses).identity ∧ i'.requestTag = t.tag ∧
        (t.isValidIdentityToken mac i' = true ↔
          (history uses).links = [(history uses).identity]) := by
  obtain ⟨i, hi, hfollows⟩ : ∃ i, life mac uses = .ok i ∧ Follows mac i (history uses) :=
    exists_life huses
  exact ⟨i, _, hi, fromString_addRequestTag_of_follows hfollows htag hpercent empty, rfl, rfl,
    isValidIdentityToken_iff_of_follows hfollows htag hfree⟩

/-- Handed over twice, with a request in between. -/
def delegatedUses : List Use :=
  [.addIdentityToken "alice".toList, .handOver, .addRequestTag delegatedTag, .handOver]

theorem isValidIdentityToken_life_delegated : ∃ i i', life delegatedMac delegatedUses = .ok i ∧
    empty.fromString (i.addRequestTag delegatedMac delegatedTag) = .ok i' ∧
      delegatedToken.isValidIdentityToken delegatedMac i' = true := by
  have htag : IsTag delegatedToken.tag := isTag_hexEncode _
  have huses : ∀ u ∈ delegatedUses, u.Plain := by decide
  have hfree : CollisionFree delegatedMac.computeMac
      (requestQueries delegatedMac (history delegatedUses) delegatedToken.tag) := by
    decide +kernel
  obtain ⟨i, i', hi, hi', -, -, hiff⟩ :=
    isValidIdentityToken_life_iff huses htag.ne_nil (htag.not_mem (by decide)) hfree
  exact ⟨i, i', hi, hi', hiff.2 rfl⟩

end IdentityToken

end Caplets
