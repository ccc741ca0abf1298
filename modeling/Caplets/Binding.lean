import Caplets.Checks

/-!
# What a tag binds

Under one tag that verifies there is one body (`body_eq_of_tag_eq`), and under one tag of
an accepted identity token one identity and one capability token (`accepted_eq_of_tag_eq`).
No tag verifies in both kinds of tokens, although they share the secret
(`tag_ne_of_isValidSignature`).
Extending a token neither breaks nor repairs it, and the tag does not depend on where a
token was handed over (`tagging_agrees`).

No MAC with tags of 64 digits is injective. The results ask for `CollisionFree` on the
calls of `compute_mac` that the compared checks make, and for nothing on other arguments.
-/

namespace Caplets

open Delimited KeyedChain

variable {mac : Mac}

theorem Mac.computeMac_ne_secret (mac : Mac) (msg key : Str) : mac.computeMac msg key ≠ SECRET :=
  (mac.isTag msg key).ne_secret

/-- The printed elements are determined by the tag. -/
theorem Mac.map_toString_eq_of_bodyTag_eq {es es' : List Element}
    (hfree : CollisionFree mac.computeMac (mac.bodyQueries es ++ mac.bodyQueries es'))
    (h : mac.bodyTag es = mac.bodyTag es') :
    es.map Element.toString = es'.map Element.toString :=
  chain_inj mac.computeMac_ne_secret hfree h

namespace CapabilityToken

theorem body_eq_of_isValidSignature {stale stale' : ℕ → ℕ → CapabilityType} {s s' : Str}
    {t t' : CapabilityToken} (h : ReadsBody stale s t.body) (h' : ReadsBody stale' s' t'.body)
    (hfree : CollisionFree mac.computeMac (mac.bodyQueries t.body ++ mac.bodyQueries t'.body))
    (hv : t.isValidSignature mac = true) (hv' : t'.isValidSignature mac = true)
    (htag : cStr t.tag = cStr t'.tag) : t.body = t'.body := by
  rw [isValidSignature_iff] at hv hv'
  exact bodies_eq_of_map_toString_eq h h'
    (Mac.map_toString_eq_of_bodyTag_eq hfree (by rw [hv, hv', htag]))

/-- The tag binds the whole content : two received tokens that verify under one tag have
the same elements, of the same kinds and with the same fields, in the same order. -/
theorem body_eq_of_tag_eq {stale stale' : ℕ → ℕ → CapabilityType} {s s' : Str}
    {t t' : CapabilityToken} (h : empty.fromString mac stale s false = .ok t)
    (h' : empty.fromString mac stale' s' false = .ok t')
    (hfree : CollisionFree mac.computeMac (mac.bodyQueries t.body ++ mac.bodyQueries t'.body))
    (hv : t.isValidSignature mac = true) (hv' : t'.isValidSignature mac = true)
    (htag : t.tag = t'.tag) : t.body = t'.body :=
  body_eq_of_isValidSignature (readsBody_of_fromString h) (readsBody_of_fromString h') hfree hv hv'
    (by rw [htag])

/-- The text of `delegatedBody` with the pieces in another order, leading zeros left out and
fields that nobody reads. -/
def respelledBody : Str :=
  ("%FRAME%FUNCTION:identity_constraint:alice:$/a+0+111+x%FRAME%/a/b+0+1" ++
    "%FRAME%a request:/a/b:h:v:1:x").toList

theorem fromString_respelledBody :
    empty.fromString delegatedMac (fun _ _ => .userCap) (delegatedTag ++ respelledBody) false =
      .ok delegatedToken := by
  decide +kernel

theorem delegatedBody_ne_respelledBody : delegatedBody ≠ respelledBody := by
  decide +kernel

theorem collisionFree_delegatedToken : CollisionFree delegatedMac.computeMac
    (delegatedMac.bodyQueries delegatedToken.body ++
      delegatedMac.bodyQueries delegatedToken.body) := by
  decide +kernel

theorem body_eq_of_tag_eq_respelled : delegatedBody ≠ respelledBody ∧ ∃ t t',
    empty.fromString delegatedMac (fun _ _ => .ownerCap) (delegatedTag ++ delegatedBody) false =
        .ok t ∧
      empty.fromString delegatedMac (fun _ _ => .userCap) (delegatedTag ++ respelledBody) false =
        .ok t' ∧
        t.body = t'.body :=
  ⟨delegatedBody_ne_respelledBody, _, _, fromString_delegatedBody, fromString_respelledBody,
    body_eq_of_tag_eq fromString_delegatedBody fromString_respelledBody
      collisionFree_delegatedToken isValidSignature_delegatedToken
      isValidSignature_delegatedToken rfl⟩

end CapabilityToken

/-- The calls of `compute_mac` made to check an identity token. -/
def Mac.identityQueries (mac : Mac) (i : IdentityToken) : List (Str × Str) :=
  queries mac.computeMac SECRET i.messages

namespace CapabilityToken

/-- An accepted identity token is bound to its identity and to the capability token it was
accepted with : two accepted pairs with one identity tag agree in everything that was
checked. -/
theorem accepted_eq_of_tag_eq {stale stale' : ℕ → ℕ → CapabilityType} {s s' : Str}
    {t t' : CapabilityToken} {i i' : IdentityToken}
    (h : empty.fromString mac stale s false = .ok t)
    (h' : empty.fromString mac stale' s' false = .ok t')
    (hfree : CollisionFree mac.computeMac (mac.bodyQueries t.body ++ mac.bodyQueries t'.body))
    (hfreeId : CollisionFree mac.computeMac (mac.identityQueries i ++ mac.identityQueries i'))
    (ha : t.isValidRequest mac (some i) = .ok true)
    (ha' : t'.isValidRequest mac (some i') = .ok true) (htag : i.tag = i'.tag) :
    i.identityToken = i'.identityToken ∧ i.requestTag = i'.requestTag ∧ t.body = t'.body := by
  obtain ⟨hid, hsig, -⟩ := continueValidation_iff.1 (isValidRequest_eq_true_iff.1 ha).1
  obtain ⟨hid', hsig', -⟩ := continueValidation_iff.1 (isValidRequest_eq_true_iff.1 ha').1
  obtain ⟨-, hreq, hi⟩ := isValidIdentityToken_iff.1 (hid i rfl)
  obtain ⟨-, hreq', hi'⟩ := isValidIdentityToken_iff.1 (hid' i' rfl)
  rw [IdentityToken.isValidSignature_iff] at hi hi'
  have hmessages : i.messages = i'.messages :=
    chain_inj mac.computeMac_ne_secret hfreeId (by rw [hi, hi', htag])
  obtain ⟨hname, hrequestTag⟩ :
      i.identityToken = i'.identityToken ∧ i.requestTag = i'.requestTag := by
    simpa [IdentityToken.messages] using hmessages
  refine ⟨hname, hrequestTag, ?_⟩
  exact body_eq_of_isValidSignature (readsBody_of_fromString h) (readsBody_of_fromString h') hfree
    hsig hsig' (by rw [← hreq, ← hreq', hrequestTag])

theorem accepted_eq_of_tag_eq_respelled :
    delegatedBody ≠ respelledBody ∧ ∃ (t t' : CapabilityToken) (i i' : IdentityToken),
      empty.fromString delegatedMac (fun _ _ => .ownerCap) (delegatedTag ++ delegatedBody) false =
          .ok t ∧
        empty.fromString delegatedMac (fun _ _ => .userCap) (delegatedTag ++ respelledBody) false =
          .ok t' ∧
          i.identityToken = i'.identityToken ∧ i.requestTag = i'.requestTag ∧ t.body = t'.body :=
  ⟨delegatedBody_ne_respelledBody, delegatedToken, delegatedToken, delegatedIdentity,
    delegatedIdentity, fromString_delegatedBody, fromString_respelledBody,
    accepted_eq_of_tag_eq fromString_delegatedBody fromString_respelledBody
      collisionFree_delegatedToken (by decide +kernel) isValidRequest_delegatedToken
      isValidRequest_delegatedToken rfl⟩

end CapabilityToken

/-! ## Two kinds of tokens under one secret -/

/-- No element is printed as the root of an identity token : a capability prints a `+`,
constraints alone start with `$`, and a request starts with its marker. -/
theorem Element.toString_ne_dummyBody (e : Element) : e.toString ≠ IDENTITY_TOKEN_DUMMY_BODY := by
  intro h
  cases e with
  | frame f =>
    rw [toString_frame] at h
    rcases eq_or_ne f.capabilities [] with hc | hc
    · rw [Frame.toString_of_capabilities_nil hc] at h
      cases hk : f.constraints with
      | nil =>
        rw [hk] at h
        exact absurd h (by decide)
      | cons k ks =>
        have hhead : IDENTITY_TOKEN_DUMMY_BODY.head? = some '$' := by simp [← h, hk]
        exact absurd hhead (by decide)
    · obtain ⟨c, hcmem⟩ := List.exists_mem_of_ne_nil _ hc
      have hpiece : c.toString ∈ f.pieces :=
        List.mem_append_left _ (List.mem_map_of_mem hcmem)
      have hin : c.toString <:+: IDENTITY_TOKEN_DUMMY_BODY := by
        rw [← h, Frame.toString_eq_intercalate hc]
        exact infix_intercalate_of_mem hpiece
      have hplus : '+' ∈ c.toString := by simp [CapabilityStructure.toString]
      exact absurd (hin.subset hplus) (by decide)
  | request r =>
    have hpre : requestMarker <+: IDENTITY_TOKEN_DUMMY_BODY :=
      h ▸ r.requestMarker_prefix_toString
    exact absurd hpre (by decide)

/-- A capability token and an identity token that both verify have different tags, whatever
the capability token was made from. -/
theorem tag_ne_of_isValidSignature {t : CapabilityToken} {i : IdentityToken}
    (hfree : CollisionFree mac.computeMac (mac.bodyQueries t.body ++ mac.identityQueries i))
    (hv : t.isValidSignature mac = true) (hi : i.isValidSignature mac = true) : t.tag ≠ i.tag := by
  intro htag
  rw [CapabilityToken.isValidSignature_iff, Mac.bodyTag] at hv
  rw [IdentityToken.isValidSignature_iff] at hi
  have hmessages : t.body.map Element.toString = i.messages :=
    chain_inj mac.computeMac_ne_secret hfree (by rw [hv, hi, htag])
  obtain ⟨e, es, hes⟩ := List.exists_cons_of_ne_nil (l := t.body) fun h0 => by
    simp [h0, IdentityToken.messages] at hmessages
  rw [hes, List.map_cons, IdentityToken.messages, List.cons.injEq] at hmessages
  exact e.toString_ne_dummyBody hmessages.1

theorem tag_ne_of_isValidSignature_delegated : delegatedToken.tag ≠ delegatedIdentity.tag := by
  have hfree : CollisionFree delegatedMac.computeMac
      (delegatedMac.bodyQueries delegatedToken.body ++
        delegatedMac.identityQueries delegatedIdentity) := by decide +kernel
  exact tag_ne_of_isValidSignature hfree CapabilityToken.isValidSignature_delegatedToken
    CapabilityToken.isValidSignature_delegatedIdentity

/-! ## Tagging step by step -/

namespace CapabilityToken

/-- A minted token verifies. -/
theorem isValidSignature_of_fromString_true {stale : ℕ → ℕ → CapabilityType} {s : Str}
    {t : CapabilityToken} (h : empty.fromString mac stale s true = .ok t) :
    t.isValidSignature mac = true := by
  obtain ⟨es, hes, rfl⟩ := fromString_true_eq_ok.1 h
  exact isValidSignature_iff.2 (mac.cStr_bodyTag es).symm

/-- A frame added to a token changes nothing about whether it verifies. -/
theorem isValidSignature_addFrame_iff {t t' : CapabilityToken} {e : Element} (hbody : t.body ≠ [])
    (hnul : '\x00' ∉ t.tag)
    (hfree : CollisionFree mac.computeMac
      [(e.toString, mac.bodyTag t.body), (e.toString, t.tag)])
    (h : t.addFrame mac e = .ok t') :
    t'.isValidSignature mac = true ↔ t.isValidSignature mac = true := by
  rw [addFrame_eq, Except.ok.injEq, linkKey, if_neg hbody] at h
  subst h
  rw [isValidSignature_iff, isValidSignature_iff, Mac.bodyTag_append, List.map_singleton,
    chain_cons, chain_nil, (mac.isTag _ _).cStr_eq, cStr_eq_self hnul]
  constructor
  · intro heq
    have hpair := hfree (e.toString, mac.bodyTag t.body) List.mem_cons_self (e.toString, t.tag)
      (List.mem_cons_of_mem _ List.mem_cons_self) heq
    exact (Prod.mk.inj hpair).2
  · intro heq
    rw [heq]

/-- Minting a first part of the pieces and adding the other elements gives the token that
minting the whole text gives. -/
theorem fromString_prefix_foldlM_addFrame {stale : ℕ → ℕ → CapabilityType} {s : Str}
    {ps qs : List Str} {t : CapabilityToken} (hpieces : strFrames s = .ok (ps ++ qs))
    (hps : ps ≠ []) (hqs : qs ≠ []) (hne : ∀ p ∈ ps ++ qs, p ≠ [])
    (hrequest : ∀ p ∈ (ps ++ qs).dropLast, ¬requestMarker <:+: p)
    (h : empty.fromString mac stale s true = .ok t) :
    ∃ t₁ t₂, empty.fromString mac stale (frameMarker ++ frameMarker.intercalate ps) true = .ok t₁ ∧
      (t.body.drop ps.length).foldlM (fun t e => t.addFrame mac e) t₁ = .ok t₂ ∧
        t₂.body = t.body ∧ t₂.tag = t.tag := by
  obtain ⟨es, ⟨ps', last, hps', hlast, hr⟩, rfl⟩ := fromString_true_eq_ok.1 h
  obtain rfl : ps ++ qs = ps' := Except.ok.inj (hpieces.symm.trans hps')
  obtain ⟨fs, es', rfl, hfs, hes'⟩ := (Element.reads_append hqs).1 hr
  have hfsne : fs ≠ [] := hfs.ne_nil hps
  obtain ⟨ps₀, p, rfl⟩ := (List.eq_nil_or_concat' ps).resolve_left hps
  have hfront : ∀ q ∈ ps₀ ++ [p], q ∈ (ps₀ ++ [p] ++ qs).dropLast := by
    intro q hq
    rw [List.dropLast_append_of_ne_nil hqs]
    exact List.mem_append_left _ hq
  obtain ⟨text, -, hs⟩ := splits_of_strFrames hpieces
  have hsplit : Splits frameMarker (frameMarker.intercalate (ps₀ ++ [p])) (ps₀ ++ [p]) := by
    refine splits_intercalate (fun q hq => hs.first_of_mem_dropLast q ?_) fun q hq => ?_
    · exact hfront q (List.mem_of_mem_dropLast hq)
    · have hq := List.mem_append_left qs (List.mem_of_getLast? hq)
      exact ⟨hne q hq, hs.free_of_mem q hq⟩
  have hread : ReadsBody stale (frameMarker ++ frameMarker.intercalate (ps₀ ++ [p])) fs := by
    refine ⟨_, p, strFrames_frameMarker_iff.2 hsplit, List.getLast?_concat, ?_⟩
    rwa [decide_eq_false (hrequest p (hfront p (by simp)))]
  have hdrop : (fs ++ es').drop (ps₀ ++ [p]).length = es' := by
    rw [← hfs.length_eq, List.drop_left]
  refine ⟨_, ⟨mac.bodyTag (fs ++ es'), fs ++ es', Element.lastRequest fs⟩,
    fromString_true_eq_ok.2 ⟨fs, hread, rfl⟩, ?_, rfl, rfl⟩
  rw [hdrop, mac.bodyTag_append]
  exact foldlM_addFrame hfsne es'

/-- Incremental tagging agrees with verification. Minting gives a token that verifies,
adding a frame to any token neither breaks nor repairs it, and it makes no difference
where in the chain of pieces a token was handed over. -/
theorem tagging_agrees (mac : Mac) (stale : ℕ → ℕ → CapabilityType) :
    (∀ s t, empty.fromString mac stale s true = .ok t → t.isValidSignature mac = true) ∧
    (∀ (t t' : CapabilityToken) (e : Element), t.body ≠ [] → '\x00' ∉ t.tag →
      CollisionFree mac.computeMac [(e.toString, mac.bodyTag t.body), (e.toString, t.tag)] →
        t.addFrame mac e = .ok t' →
          (t'.isValidSignature mac = true ↔ t.isValidSignature mac = true)) ∧
    (∀ s ps qs t, strFrames s = .ok (ps ++ qs) → ps ≠ [] → qs ≠ [] → (∀ p ∈ ps ++ qs, p ≠ []) →
      (∀ p ∈ (ps ++ qs).dropLast, ¬requestMarker <:+: p) →
        empty.fromString mac stale s true = .ok t → ∃ t₁ t₂,
          empty.fromString mac stale (frameMarker ++ frameMarker.intercalate ps) true = .ok t₁ ∧
            (t.body.drop ps.length).foldlM (fun t e => t.addFrame mac e) t₁ = .ok t₂ ∧
              t₂.body = t.body ∧ t₂.tag = t.tag) :=
  ⟨fun _ _ => isValidSignature_of_fromString_true,
    fun _ _ _ => isValidSignature_addFrame_iff,
    fun _ _ _ _ => fromString_prefix_foldlM_addFrame⟩

/-- All three on one token : minted, with its second frame added under another tag, and
handed over after the first frame. -/
theorem tagging_agrees_delegated :
    delegatedToken.isValidSignature delegatedMac = true ∧
    (∀ e ∈ delegatedToken.body[1]?, ∀ t',
      addFrame delegatedMac ⟨['0'], delegatedToken.body.take 1, none⟩ e = .ok t' →
        t'.isValidSignature delegatedMac = false) ∧
    ∃ t₁ t₂, empty.fromString delegatedMac (fun _ _ => .ownerCap)
        "%FRAME%/a+0+111$FUNCTION:identity_constraint:alice".toList true = .ok t₁ ∧
      (delegatedToken.body.drop 1).foldlM (fun t e => t.addFrame delegatedMac e) t₁ = .ok t₂ ∧
        t₂.body = delegatedToken.body ∧ t₂.tag = delegatedToken.tag := by
  obtain ⟨hsig, hadd, hpre⟩ := tagging_agrees delegatedMac fun _ _ => .ownerCap
  refine ⟨hsig _ _ fromString_delegatedBody_true, fun e he t' h => ?_, ?_⟩
  · obtain rfl : .frame ⟨[⟨"/a/b".toList, .deviceCap, 0b001⟩], []⟩ = e := Option.some.inj he
    rw [Bool.eq_false_iff, Ne, hadd _ t' _ (by decide +kernel) (by decide +kernel)
      (by decide +kernel) h]
    decide +kernel
  · exact hpre delegatedBody ["/a+0+111$FUNCTION:identity_constraint:alice".toList]
      ["/a/b+0+001".toList, "request:/a/b:h:v:001".toList] _ (by decide +kernel) (by simp) (by simp)
      (by decide +kernel) (by decide +kernel) fromString_delegatedBody_true

end CapabilityToken

end Caplets
