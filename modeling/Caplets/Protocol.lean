import Caplets.Attenuation
import Caplets.Binding
import Caplets.Holders
import Caplets.Issuance
import Caplets.Knowledge
import Caplets.Transport

/-!
# The protocol

Whoever has the secret mints capability tokens and enrols users. Holders of a capability token
add frames or a request to it and send its text, users send their identity tokens with the tag
of any capability token that they are given, and a server checks what it is given. All texts are
public. The steps come in any order and any number.

The list `qs` holds the calls of `compute_mac` that are made by anybody, and `CollisionFree` is
asked for these only. Nobody guesses the secret or an output of these calls : it is `Available`
only if it stands in a text that was sent, anywhere in it, or was computed under a key that is
available. Every other text is available to everybody. Steps are bound by this in three places.
A tag is computed under an available key, both tags that the server is given are available
(`Step.check`), and so is everything in the tag that a user makes a request with (`Step.request`),
since the request has it in clear at its end.

Frames, requests and identities are sent in clear, too. Whoever writes the secret or a tag into
one of them gives it away, so the results are about states that are `Discreet`.
-/

namespace Caplets

open Delimited KeyedChain Relation

namespace Protocol

/-! ## Messages and steps -/

/-- What honest parties send. -/
inductive Message
  /-- A capability token. -/
  | capability (t : CapabilityToken)
  /-- An identity token on its own. -/
  | identity (i : IdentityToken)
  /-- An identity token with the tag of a capability token. -/
  | request (i : IdentityToken) (requestTag : Str)

namespace Message

/-- The text that is sent. -/
def text (mac : Mac) : Message → Str
  | capability t => t.toString true
  | identity i => i.toString true
  | request i requestTag => i.addRequestTag mac requestTag

/-- What the tag in front of the text is the chain of. -/
def chained : Message → List Str
  | capability t => t.body.map Element.toString
  | identity i => [IDENTITY_TOKEN_DUMMY_BODY, i.identityToken]
  | request i requestTag => [IDENTITY_TOKEN_DUMMY_BODY, i.identityToken, requestTag]

/-- What the sender put in : elements or an identity. -/
def written : Message → List Str
  | capability t => t.body.map Element.toString
  | identity i => [i.identityToken]
  | request i _ => [i.identityToken]

/-- A piece is the root of an identity token, was put in by the sender, or is the tag that a
request is made with. -/
theorem mem_chained {m : Message} {p : Str} (h : p ∈ m.chained) :
    p = IDENTITY_TOKEN_DUMMY_BODY ∨ p ∈ m.written ∨ ∃ i, m = .request i p := by
  cases m with
  | capability t => exact Or.inr (Or.inl h)
  | identity i =>
    rcases List.mem_cons.1 h with h | h
    · exact Or.inl h
    · exact Or.inr (Or.inl h)
  | request i requestTag =>
    simp only [chained, List.mem_cons, List.not_mem_nil, or_false] at h
    rcases h with h | h | rfl
    · exact Or.inl h
    · exact Or.inr (Or.inl (List.mem_singleton.2 h))
    · exact Or.inr (Or.inr ⟨i, rfl⟩)

end Message

/-- What all parties did so far. -/
structure State where
  /-- The capability tokens of honest holders. -/
  held : List CapabilityToken
  /-- The identity tokens of users. -/
  enrolled : List IdentityToken
  /-- What was sent. -/
  messages : List Message
  /-- The tags that somebody computed from public ones. -/
  computed : List Str
  /-- What the server answered with `true`. -/
  accepted : List (CapabilityToken × Option IdentityToken)

namespace State

/-- Nothing happened yet. -/
def init : State := ⟨[], [], [], [], []⟩

/-- The lists whose tags were sent. -/
def released (σ : State) : List (List Str) :=
  σ.messages.map Message.chained

/-- The state of the service that the tags stand for. -/
def ideal (σ : State) : Ideal Str where
  released := σ.released
  granted := σ.accepted.flatMap fun a =>
    a.1.body.map Element.toString :: a.2.toList.map IdentityToken.messages

section

variable (mac : Mac) (qs : List (Str × Str)) (σ : State)

/-- A key that everybody has : it stands somewhere in a text that was sent, it was computed, or
it is neither the secret nor an output of the calls `qs`. -/
def Available (key : Str) : Prop :=
  (∃ m ∈ σ.messages, key <:+: m.text mac) ∨ key ∈ σ.computed ∨
    Foreign mac.computeMac SECRET qs key

/-- Nothing in the text is news to anybody. -/
def Public (text : Str) : Prop :=
  ∀ key, key <:+: text → σ.Available mac qs key

/-- Nobody wrote the secret or an output of the calls `qs` into a frame, a request or an identity
that was sent. -/
def Discreet : Prop :=
  ∀ m ∈ σ.messages, ∀ text ∈ m.written,
    ¬SECRET <:+: text ∧ ∀ q ∈ qs, ¬mac.computeMac q.1 q.2 <:+: text

instance : Decidable (σ.Discreet mac qs) :=
  inferInstanceAs (Decidable (∀ m ∈ σ.messages, ∀ text ∈ m.written,
    ¬SECRET <:+: text ∧ ∀ q ∈ qs, ¬mac.computeMac q.1 q.2 <:+: text))

end

end State

/-- What a party does, with the calls of `compute_mac` for it among `qs`. -/
inductive Step (mac : Mac) (qs : List (Str × Str)) : State → State → Prop
  /-- A token is minted from any text. -/
  | mint {σ : State} {stale : ℕ → ℕ → CapabilityType} {text : Str} {t : CapabilityToken} :
      CapabilityToken.empty.fromString mac stale text true = .ok t →
        mac.bodyQueries t.body ⊆ qs → Step mac qs σ { σ with held := t :: σ.held }
  /-- A frame or a request is read and added to a token that no request closes, or to a fresh
  one. -/
  | addFrame {σ : State} {stale : ℕ → ℕ → CapabilityType} {i : ℕ} {p : Str} {e : Element}
      {t t' : CapabilityToken} : t = .empty ∨ t ∈ σ.held → Element.lastRequest t.body = none →
        Element.ReadsLast stale i p e → t.addFrame mac e = .ok t' → (e.toString, t.linkKey) ∈ qs →
          Step mac qs σ { σ with held := t' :: σ.held }
  /-- A holder sends a token. -/
  | send {σ : State} {t : CapabilityToken} : t ∈ σ.held →
      Step mac qs σ { σ with messages := .capability t :: σ.messages }
  /-- A user gets an identity token. -/
  | enrol {σ : State} {id : Str} :
      queries mac.computeMac SECRET [IDENTITY_TOKEN_DUMMY_BODY, id] ⊆ qs → Step mac qs σ
        { σ with enrolled :=
            (IdentityToken.empty.createInitialToken mac).1.addIdentityToken mac id :: σ.enrolled }
  /-- She sends it on its own. -/
  | sendIdentity {σ : State} {i : IdentityToken} : i ∈ σ.enrolled →
      Step mac qs σ { σ with messages := .identity i :: σ.messages }
  /-- A user makes a request with a capability token that she is given, whose tag is public. -/
  | request {σ : State} {stale : ℕ → ℕ → CapabilityType} {s : Str} {i : IdentityToken}
      {t : CapabilityToken} : i ∈ σ.enrolled →
        CapabilityToken.empty.fromString mac stale s false = .ok t → σ.Public mac qs t.tag →
          (t.tag, i.tag) ∈ qs →
            Step mac qs σ { σ with messages := .request i t.tag :: σ.messages }
  /-- Anybody computes a tag under a key that is available. -/
  | compute {σ : State} {msg key : Str} : σ.Available mac qs key → (msg, key) ∈ qs →
      Step mac qs σ { σ with computed := mac.computeMac msg key :: σ.computed }
  /-- The server accepts what anybody presents. Both tags are available : nobody presents a tag
  without having it. -/
  | check {σ : State} {stale : ℕ → ℕ → CapabilityType} {s : Str} {t : CapabilityToken}
      {token : Option IdentityToken} :
      CapabilityToken.empty.fromString mac stale s false = .ok t →
        (∀ i ∈ token, ∃ s, IdentityToken.empty.fromString s = .ok i) →
          σ.Available mac qs (cStr t.tag) → (∀ i ∈ token, σ.Available mac qs (cStr i.tag)) →
            mac.bodyQueries t.body ⊆ qs → (∀ i ∈ token, mac.identityQueries i ⊆ qs) →
              t.isValidRequest mac token = .ok true →
                Step mac qs σ { σ with accepted := (t, token) :: σ.accepted }

/-- The states of all runs. -/
def Reachable (mac : Mac) (qs : List (Str × Str)) (σ : State) : Prop :=
  ReflTransGen (Step mac qs) .init σ

/-! ### A run

A token for one user is minted and sent, and she makes the request with it. -/

/-- The calls that are made. -/
def delegatedQueries : List (Str × Str) :=
  delegatedMac.bodyQueries delegatedToken.body ++ delegatedMac.identityQueries delegatedIdentity

/-- The identity token before the request. -/
def delegatedUser : IdentityToken :=
  (IdentityToken.empty.createInitialToken delegatedMac).1.addIdentityToken delegatedMac
    "alice".toList

/-- The state after the request is accepted. -/
def delegatedState : State where
  held := [delegatedToken]
  enrolled := [delegatedUser]
  messages := [.request delegatedUser delegatedTag, .capability delegatedToken]
  computed := []
  accepted := [(delegatedToken, some delegatedIdentity)]

theorem collisionFree_delegatedQueries :
    CollisionFree delegatedMac.computeMac delegatedQueries := by
  decide +kernel

theorem discreet_delegatedState : delegatedState.Discreet delegatedMac delegatedQueries := by
  decide +kernel

/-- What stands in a text that was sent is public. -/
theorem State.public_of_message {mac : Mac} {qs : List (Str × Str)} {σ : State} {m : Message}
    {text : Str} (hm : m ∈ σ.messages) (h : text <:+: m.text mac) : σ.Public mac qs text :=
  fun _ hkey => Or.inl ⟨m, hm, hkey.trans h⟩

/-- The text of a capability token starts with its tag. -/
theorem Message.tag_infix_text (mac : Mac) (t : CapabilityToken) :
    t.tag <:+: (Message.capability t).text mac :=
  (List.prefix_append _ _).isInfix

/-- Minting, sending, enrolling, requesting and checking lead there. -/
theorem reachable_delegatedState : Reachable delegatedMac delegatedQueries delegatedState := by
  have hbody : delegatedMac.bodyQueries delegatedToken.body ⊆ delegatedQueries :=
    List.subset_append_left _ _
  have hid : delegatedMac.identityQueries delegatedIdentity ⊆ delegatedQueries :=
    List.subset_append_right _ _
  have htagText : cStr delegatedTag <:+: delegatedToken.toString true := by decide +kernel
  have hidText : cStr delegatedIdentity.tag <:+:
      delegatedUser.addRequestTag delegatedMac delegatedToken.tag := by decide +kernel
  have hparsed : IdentityToken.empty.fromString
      (delegatedUser.addRequestTag delegatedMac delegatedToken.tag) = .ok delegatedIdentity := by
    decide +kernel
  have hmint : Step delegatedMac delegatedQueries .init ⟨[delegatedToken], [], [], [], []⟩ :=
    .mint fromString_delegatedBody_true hbody
  have hsend : Step delegatedMac delegatedQueries ⟨[delegatedToken], [], [], [], []⟩
      ⟨[delegatedToken], [], [.capability delegatedToken], [], []⟩ :=
    .send List.mem_cons_self
  have henrol : Step delegatedMac delegatedQueries
      ⟨[delegatedToken], [], [.capability delegatedToken], [], []⟩
      ⟨[delegatedToken], [delegatedUser], [.capability delegatedToken], [], []⟩ :=
    .enrol (by decide +kernel)
  have hrequest : Step delegatedMac delegatedQueries
      ⟨[delegatedToken], [delegatedUser], [.capability delegatedToken], [], []⟩
      { delegatedState with accepted := [] } :=
    .request List.mem_cons_self fromString_delegatedBody
      (State.public_of_message List.mem_cons_self (Message.tag_infix_text _ _)) (by decide +kernel)
  have hrun := (((ReflTransGen.single hmint).tail hsend).tail henrol).tail hrequest
  refine hrun.tail (.check fromString_delegatedBody ?_ ?_ ?_ hbody ?_
    isValidRequest_delegatedToken)
  · rintro i ⟨⟩
    exact ⟨_, hparsed⟩
  · exact Or.inl ⟨.capability delegatedToken, by simp [delegatedState], htagText⟩
  · rintro i ⟨⟩
    exact Or.inl ⟨.request delegatedUser delegatedTag, List.mem_cons_self, hidText⟩
  · rintro i ⟨⟩
    exact hid

section Invariants

variable {mac : Mac} {qs : List (Str × Str)} {σ σ' : State}

/-- A token that was made with the secret, or from one that was. -/
structure Made (mac : Mac) (qs : List (Str × Str)) (t : CapabilityToken) : Prop where
  shaped : Element.Shaped t.body
  linkKey : t.linkKey = mac.bodyTag t.body
  queries : mac.bodyQueries t.body ⊆ qs

theorem made_empty (mac : Mac) (qs : List (Str × Str)) : Made mac qs .empty where
  shaped := ⟨by simp [CapabilityToken.empty], by simp [CapabilityToken.empty],
    by simp [CapabilityToken.empty]⟩
  linkKey := rfl
  queries := List.nil_subset _

theorem Made.tag {t : CapabilityToken} (h : Made mac qs t) (hbody : t.body ≠ []) :
    t.tag = mac.bodyTag t.body := by
  rw [← h.linkKey, CapabilityToken.linkKey, if_neg hbody]

/-- A minted token is well made. -/
theorem made_of_fromString {stale : ℕ → ℕ → CapabilityType} {text : Str} {t : CapabilityToken}
    (h : CapabilityToken.empty.fromString mac stale text true = .ok t)
    (hqs : mac.bodyQueries t.body ⊆ qs) : Made mac qs t ∧ t.body ≠ [] := by
  obtain ⟨es, hes, rfl⟩ := CapabilityToken.fromString_true_eq_ok.1 h
  exact ⟨⟨Element.shaped_of_readsBody hes, if_neg hes.ne_nil, hqs⟩, hes.ne_nil⟩

/-- A token that no request closes stays well made when a frame or a request is added. -/
theorem Made.addFrame {stale : ℕ → ℕ → CapabilityType} {i : ℕ} {p : Str} {e : Element}
    {t t' : CapabilityToken} (h : Made mac qs t) (hopen : Element.lastRequest t.body = none)
    (he : Element.ReadsLast stale i p e) (ht' : t.addFrame mac e = .ok t')
    (hq : (e.toString, t.linkKey) ∈ qs) : Made mac qs t' ∧ t'.body ≠ [] := by
  rw [CapabilityToken.addFrame_eq, Except.ok.injEq] at ht'
  subst ht'
  obtain ⟨fs, hfs⟩ := h.shaped.exists_frames hopen
  refine ⟨⟨?_, ?_, ?_⟩, by simp⟩
  · have hclean : ∀ f ∈ fs, f.Clean := fun f hf => h.shaped.clean (.frame f) (by simp [hfs, hf])
    rw [hfs]
    exact Element.shaped_concat hclean he
  · rw [CapabilityToken.linkKey, if_neg (by simp), mac.bodyTag_append, h.linkKey]
    rfl
  · rw [Mac.bodyQueries, List.map_append, queries_append, List.append_subset]
    refine ⟨h.queries, ?_⟩
    rw [h.linkKey, Mac.bodyTag] at hq
    simpa using hq

/-- An identity token that was issued with the secret. -/
structure Enrolled (mac : Mac) (qs : List (Str × Str)) (i : IdentityToken) : Prop where
  tag : i.tag = chain mac.computeMac SECRET [IDENTITY_TOKEN_DUMMY_BODY, i.identityToken]
  queries : KeyedChain.queries mac.computeMac SECRET
    [IDENTITY_TOKEN_DUMMY_BODY, i.identityToken] ⊆ qs

/-- An identity that is added to a created token is enrolled. -/
theorem enrolled_addIdentityToken {id : Str}
    (hqs : queries mac.computeMac SECRET [IDENTITY_TOKEN_DUMMY_BODY, id] ⊆ qs) :
    Enrolled mac qs ((IdentityToken.empty.createInitialToken mac).1.addIdentityToken mac id) where
  tag := by
    simp [IdentityToken.addIdentityToken, IdentityToken.createInitialToken,
      IdentityToken.setTag, (mac.isTag _ _).trim_eq]
  queries := hqs

/-- The message is one of a held or enrolled token, and the calls for it are among `qs`. -/
def Message.Sendable (qs : List (Str × Str)) (σ : State) : Message → Prop
  | capability t => t ∈ σ.held
  | identity i => i ∈ σ.enrolled
  | request i requestTag => i ∈ σ.enrolled ∧ ¬frameMarker <:+: requestTag ∧
      (requestTag, i.tag) ∈ qs

theorem frameMarker_free_tagText (s : Str) : ¬frameMarker <:+: tagText s := by
  cases hf : find? frameMarker s with
  | none =>
    rw [tagText, hf]
    exact find?_eq_none.1 hf
  | some n =>
    obtain ⟨tag, text, rfl, -, htag⟩ := exists_of_find? frameMarker_ne_nil hf
    rw [tagText_append htag]
    exact htag.free

/-- The tag of a token is cut off in front of the first marker. -/
theorem frameMarker_free_tag {stale : ℕ → ℕ → CapabilityType} {s : Str} {t : CapabilityToken}
    (h : CapabilityToken.empty.fromString mac stale s false = .ok t) :
    ¬frameMarker <:+: t.tag := by
  obtain ⟨es, -, rfl⟩ := CapabilityToken.fromString_false_eq_ok.1 h
  intro hin
  have htrim : trim (tagText s) <:+: tagText s :=
    (List.dropWhile_suffix _).isInfix.trans (List.rdropWhile_prefix _ _).isInfix
  exact frameMarker_free_tagText s (hin.trans htrim)

/-- What holds in every state of a run. -/
structure Inv (mac : Mac) (qs : List (Str × Str)) (σ : State) : Prop where
  held : ∀ t ∈ σ.held, Made mac qs t ∧ t.body ≠ []
  enrolled : ∀ i ∈ σ.enrolled, Enrolled mac qs i
  messages : ∀ m ∈ σ.messages, m.Sendable qs σ
  accepted : ∀ a ∈ σ.accepted, Element.Shaped a.1.body ∧ mac.bodyQueries a.1.body ⊆ qs ∧
    a.1.isValidRequest mac a.2 = .ok true

/-- A text that is sent : the tag, and pieces that the tag is the chain of. -/
theorem Inv.text_message (h : Inv mac qs σ) {m : Message} (hm : m.Sendable qs σ) :
    ∃ ps ⊆ m.chained, m.text mac = chain mac.computeMac SECRET m.chained ++ frameMarker ++
      frameMarker.intercalate ps := by
  cases m with
  | capability t =>
    obtain ⟨hmade, hbody⟩ := h.held t hm
    refine ⟨_, List.Subset.refl _, ?_⟩
    rw [Message.text, CapabilityToken.toString_true_eq hbody, hmade.tag hbody]
    rfl
  | identity i =>
    refine ⟨IDENTITY_TOKEN_DUMMY_BODY :: if i.identityToken = [] then [] else [i.identityToken],
      ?_, ?_⟩
    · split_ifs <;> simp [Message.chained]
    · rw [Message.text, IdentityToken.toString_true_eq, (h.enrolled i hm).tag]
      rfl
  | request i requestTag =>
    refine ⟨_, List.Subset.refl _, ?_⟩
    rw [Message.text, IdentityToken.addRequestTag_eq, (h.enrolled i hm.1).tag]
    rfl

/-- The tag in front of a text is one. -/
theorem Inv.isTag_message (h : Inv mac qs σ) {m : Message} (hm : m.Sendable qs σ) :
    IsTag (chain mac.computeMac SECRET m.chained) := by
  refine mac.isTag_chain _ ?_
  cases m with
  | capability t => simpa [Message.chained] using (h.held t hm).2
  | identity i => simp [Message.chained]
  | request i requestTag => simp [Message.chained]

/-- The calls for a message are among `qs`. -/
theorem Inv.queries_message (h : Inv mac qs σ) {m : Message} (hm : m.Sendable qs σ) :
    queries mac.computeMac SECRET m.chained ⊆ qs := by
  cases m with
  | capability t => exact (h.held t hm).1.queries
  | identity i => exact (h.enrolled i hm).queries
  | request i requestTag =>
    obtain ⟨hi, -, hq⟩ := hm
    have hchained : Message.chained (.request i requestTag) =
        [IDENTITY_TOKEN_DUMMY_BODY, i.identityToken] ++ [requestTag] := rfl
    rw [hchained, queries_append, List.append_subset]
    refine ⟨(h.enrolled i hi).queries, ?_⟩
    rw [(h.enrolled i hi).tag] at hq
    simpa using hq

theorem Inv.queries_released (h : Inv mac qs σ) :
    ∀ ms ∈ σ.released, queries mac.computeMac SECRET ms ⊆ qs := by
  intro ms hms
  obtain ⟨m, hm, rfl⟩ := List.mem_map.1 hms
  exact h.queries_message (h.messages m hm)

theorem Message.Sendable.mono {m : Message} (h : m.Sendable qs σ) (hheld : σ.held ⊆ σ'.held)
    (henrolled : σ.enrolled ⊆ σ'.enrolled) : m.Sendable qs σ' := by
  cases m with
  | capability t => exact hheld h
  | identity i => exact henrolled h
  | request i requestTag => exact ⟨henrolled h.1, h.2⟩

/-- One more token of a holder. -/
theorem Inv.token (h : Inv mac qs σ) {t : CapabilityToken} (ht : Made mac qs t ∧ t.body ≠ []) :
    Inv mac qs { σ with held := t :: σ.held } where
  held := List.forall_mem_cons.2 ⟨ht, h.held⟩
  enrolled := h.enrolled
  messages m hm := (h.messages m hm).mono (List.subset_cons_self _ _) (List.Subset.refl _)
  accepted := h.accepted

/-- One more user. -/
theorem Inv.user (h : Inv mac qs σ) {i : IdentityToken} (hi : Enrolled mac qs i) :
    Inv mac qs { σ with enrolled := i :: σ.enrolled } where
  held := h.held
  enrolled := List.forall_mem_cons.2 ⟨hi, h.enrolled⟩
  messages m hm := (h.messages m hm).mono (List.Subset.refl _) (List.subset_cons_self _ _)
  accepted := h.accepted

/-- One more message. -/
theorem Inv.message (h : Inv mac qs σ) {m : Message} (hm : m.Sendable qs σ) :
    Inv mac qs { σ with messages := m :: σ.messages } where
  held := h.held
  enrolled := h.enrolled
  messages := by
    have hmono : ∀ m' : Message, m'.Sendable qs σ →
        m'.Sendable qs { σ with messages := m :: σ.messages } :=
      fun m' hm' => hm'.mono (List.Subset.refl _) (List.Subset.refl _)
    exact List.forall_mem_cons.2 ⟨hmono m hm, fun m' hm' => hmono m' (h.messages m' hm')⟩
  accepted := h.accepted

theorem inv_init (mac : Mac) (qs : List (Str × Str)) : Inv mac qs .init where
  held := by simp [State.init]
  enrolled := by simp [State.init]
  messages := by simp [State.init]
  accepted := by simp [State.init]

/-- Every step keeps what holds of the tokens and messages. -/
theorem Inv.step (h : Inv mac qs σ) (hstep : Step mac qs σ σ') : Inv mac qs σ' := by
  cases hstep with
  | @mint stale text t ht hqs => exact h.token (made_of_fromString ht hqs)
  | @addFrame stale i p e t t' ht hopen he ht' hq =>
    have hmade : Made mac qs t := by
      rcases ht with rfl | ht
      · exact made_empty mac qs
      · exact (h.held t ht).1
    exact h.token (hmade.addFrame hopen he ht' hq)
  | @enrol id hqs => exact h.user (enrolled_addIdentityToken hqs)
  | @send t ht => exact h.message ht
  | @sendIdentity i hi => exact h.message hi
  | @request stale s i t hi ht _ hq => exact h.message ⟨hi, frameMarker_free_tag ht, hq⟩
  | compute _ _ => exact ⟨h.held, h.enrolled, h.messages, h.accepted⟩
  | @check stale s t token ht _ _ _ hqs _ hvalid =>
    have hshaped := Element.shaped_of_readsBody (CapabilityToken.readsBody_of_fromString ht)
    exact ⟨h.held, h.enrolled, h.messages,
      List.forall_mem_cons.2 ⟨⟨hshaped, hqs, hvalid⟩, h.accepted⟩⟩

theorem Reachable.inv (h : Reachable mac qs σ) : Inv mac qs σ := by
  induction h with
  | refl => exact inv_init mac qs
  | tail _ hstep ih => exact ih.step hstep

/-! ## What everybody has -/

/-- Nothing that was sent or computed is taken back. -/
theorem Step.mono (hstep : Step mac qs σ σ') :
    σ.messages ⊆ σ'.messages ∧ σ.computed ⊆ σ'.computed := by
  cases hstep with
  | mint | addFrame | enrol | check => exact ⟨List.Subset.refl _, List.Subset.refl _⟩
  | send | sendIdentity | request => exact ⟨List.subset_cons_self _ _, List.Subset.refl _⟩
  | compute => exact ⟨List.Subset.refl _, List.subset_cons_self _ _⟩

theorem Step.released_subset (hstep : Step mac qs σ σ') : σ.released ⊆ σ'.released :=
  List.map_subset _ hstep.mono.1

/-- With fewer messages less is given away. -/
theorem State.Discreet.mono (h : σ'.Discreet mac qs) (hsub : σ.messages ⊆ σ'.messages) :
    σ.Discreet mac qs :=
  fun m hm => h m (hsub hm)

/-- What honest parties write holds no keys. -/
theorem State.Discreet.foreign (h : σ.Discreet mac qs) {m : Message} (hm : m ∈ σ.messages)
    {text key : Str} (htext : text ∈ m.written) (hkey : key <:+: text) :
    Foreign mac.computeMac SECRET qs key := by
  obtain ⟨hsecret, hout⟩ := h m hm text htext
  refine ⟨?_, fun q hq heq => hout q hq (heq ▸ hkey)⟩
  rintro rfl
  exact hsecret hkey

/-- The secret and the outputs of the calls are as long as tags and free of `%`. -/
theorem shape_of_not_foreign {key : Str} (h : ¬Foreign mac.computeMac SECRET qs key) :
    64 ≤ key.length ∧ '%' ∉ key := by
  by_cases hsecret : key = SECRET
  · subst hsecret
    decide
  · obtain ⟨q, -, rfl⟩ : ∃ q ∈ qs, mac.computeMac q.1 q.2 = key := by
      by_contra hnone
      exact h ⟨hsecret, fun q hq heq => hnone ⟨q, hq, heq⟩⟩
    have htag := mac.isTag q.1 q.2
    exact ⟨htag.1.ge, htag.not_mem (by decide)⟩

theorem foreign_of_infix_dummyBody {key : Str} (h : key <:+: IDENTITY_TOKEN_DUMMY_BODY) :
    Foreign mac.computeMac SECRET qs key := by
  by_contra hforeign
  have hlen := (shape_of_not_foreign hforeign).1.trans h.length_le
  exact absurd hlen (by decide)

/-- A text that is as long as a tag and free of `%` stands on one side of every marker. -/
theorem infix_of_infix_frameMarker {key l r : Str} (hlen : 64 ≤ key.length) (hpercent : '%' ∉ key)
    (h : key <:+: l ++ frameMarker ++ r) : key <:+: l ∨ key <:+: r := by
  have hlong : ¬key <:+: "FRAME".toList := by
    intro hin
    have hle := hlen.trans hin.length_le
    exact absurd hle (by decide)
  exact infix_of_infix_enclosed (a := '%') hpercent hlong h

/-- The secret or a tag stands in a text that was sent only as the tag in front or in one of the
pieces behind it. -/
theorem Inv.eq_or_infix_of_infix_text (h : Inv mac qs σ) {m : Message} (hm : m.Sendable qs σ)
    {key : Str} (hlen : 64 ≤ key.length) (hpercent : '%' ∉ key) (hin : key <:+: m.text mac) :
    key = chain mac.computeMac SECRET m.chained ∨ ∃ p ∈ m.chained, key <:+: p := by
  obtain ⟨ps, hps, htext⟩ := h.text_message hm
  rw [htext] at hin
  rcases infix_of_infix_frameMarker hlen hpercent hin with hin | hin
  · have htag := h.isTag_message hm
    exact Or.inl (hin.eq_of_length (le_antisymm hin.length_le (htag.1 ▸ hlen)))
  · have hne : key ≠ [] := by
      rintro rfl
      simp at hlen
    obtain ⟨p, hp, hin⟩ := exists_infix_of_infix_join hne
      (fun _ _ => infix_of_infix_frameMarker hlen hpercent) hin
    exact Or.inr ⟨p, hps hp, hin⟩

/-- What stands in a request tag or was computed follows from the tags that were sent. -/
structure Secrecy (mac : Mac) (qs : List (Str × Str)) (σ : State) : Prop where
  requested : ∀ i requestTag, .request i requestTag ∈ σ.messages → ∀ key, key <:+: requestTag →
    Known mac.computeMac SECRET qs σ.released key
  computed : ∀ key ∈ σ.computed, Known mac.computeMac SECRET qs σ.released key

/-- Everybody has what follows from the tags that were sent, and nothing else. -/
theorem Secrecy.known_of_available (hs : Secrecy mac qs σ) (h : Inv mac qs σ)
    (hdiscreet : σ.Discreet mac qs) {key : Str} (hkey : σ.Available mac qs key) :
    Known mac.computeMac SECRET qs σ.released key := by
  rcases hkey with ⟨m, hm, hin⟩ | hkey | hkey
  · by_cases hforeign : Foreign mac.computeMac SECRET qs key
    · exact .foreign hforeign
    obtain ⟨hlen, hpercent⟩ := shape_of_not_foreign hforeign
    rcases h.eq_or_infix_of_infix_text (h.messages m hm) hlen hpercent hin with
      rfl | ⟨p, hp, hpiece⟩
    · exact .released (List.mem_map_of_mem hm)
    · rcases m.mem_chained hp with rfl | hp | ⟨i, rfl⟩
      · exact .foreign (foreign_of_infix_dummyBody hpiece)
      · exact .foreign (hdiscreet.foreign hm hp hpiece)
      · exact hs.requested i p hm key hpiece
  · exact hs.computed key hkey
  · exact .foreign hkey

theorem secrecy_init (mac : Mac) (qs : List (Str × Str)) : Secrecy mac qs .init where
  requested := by simp [State.init]
  computed := by simp [State.init]

/-- A request tag is public before the request, and a tag is computed under a key that is
available. -/
theorem Secrecy.step (hs : Secrecy mac qs σ) (h : Inv mac qs σ) (hdiscreet : σ.Discreet mac qs)
    (hstep : Step mac qs σ σ') : Secrecy mac qs σ' where
  requested i requestTag hi key hkey := by
    have hold : .request i requestTag ∈ σ.messages →
        Known mac.computeMac SECRET qs σ'.released key :=
      fun hi => (hs.requested i requestTag hi key hkey).mono hstep.released_subset
    cases hstep with
    | mint | addFrame | enrol | compute | check => exact hold hi
    | send | sendIdentity => exact hold (by simpa using hi)
    | request _ _ hpublic _ =>
      rcases List.mem_cons.1 hi with heq | hi
      · obtain ⟨rfl, rfl⟩ := Message.request.inj heq
        exact (hs.known_of_available h hdiscreet (hpublic key hkey)).mono
          (List.subset_cons_self _ _)
      · exact hold hi
  computed key hkey := by
    have hold : key ∈ σ.computed → Known mac.computeMac SECRET qs σ'.released key :=
      fun hkey => (hs.computed key hkey).mono hstep.released_subset
    cases hstep with
    | mint | addFrame | enrol | send | sendIdentity | request | check => exact hold hkey
    | compute havailable hq =>
      rcases List.mem_cons.1 hkey with rfl | hkey
      · exact .call (hs.known_of_available h hdiscreet havailable) hq
      · exact hold hkey

/-- Who was discreet to the end was so all the time. -/
theorem Reachable.secrecy (h : Reachable mac qs σ) (hdiscreet : σ.Discreet mac qs) :
    Secrecy mac qs σ := by
  induction h with
  | refl => exact secrecy_init mac qs
  | tail hrun hstep ih =>
    have hbefore := hdiscreet.mono hstep.mono.1
    exact (ih hbefore).step (Reachable.inv hrun) hbefore hstep

/-- In every run everybody has what follows from the tags that were sent, and nothing else. -/
theorem Reachable.known_of_available (h : Reachable mac qs σ) (hdiscreet : σ.Discreet mac qs)
    {key : Str} (hkey : σ.Available mac qs key) :
    Known mac.computeMac SECRET qs σ.released key :=
  (h.secrecy hdiscreet).known_of_available h.inv hdiscreet hkey

end Invariants

end Protocol

end Caplets
