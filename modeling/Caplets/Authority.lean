import Caplets.Attenuation
import Caplets.Delegation

/-!
# What a holder can reach

Whoever has the tag of some frames can put any frames and a request behind them. `authority_iff`
says which requests are accepted then : those whose rights are rights of a device capability in
the last frame, for every path whatsoever. The frame that opens all paths is `openFrame`. Its
path is empty, which the comparison takes for a part of every path and for a prefix of every
path.

Paths do bind as long as they never get shorter. Then coverage is containment of patterns,
which is transitive, and an accepted request lies within every frame
(`contained_of_deeper`).
-/

namespace Caplets

open Delimited KeyedChain Patterns

/-! ## Any path -/

/-- A frame with the rights `bits` for the empty path. -/
def openFrame (bits : BitVec 3) : Frame :=
  ⟨[⟨[], .deviceCap, bits⟩], []⟩

theorem percent_not_mem_openFrame : ∀ bits : BitVec 3, '%' ∉ (openFrame bits).toString := by
  decide +kernel

theorem fromString_openFrame (stale : ℕ → CapabilityType) (bits : BitVec 3) :
    Frame.empty.fromString stale (openFrame bits).toString = .ok (openFrame bits) := by
  refine Frame.fromString_toString ⟨fun c hc => ?_, by simp [openFrame]⟩
    ⟨fun c hc => ?_, by simp [openFrame], by simp [openFrame]⟩
  · obtain rfl : c = ⟨[], .deviceCap, bits⟩ := by simpa [openFrame] using hc
    exact ⟨by simp, by simp, fun h => absurd (List.infix_nil.1 h) (by decide)⟩
  · obtain rfl : c = ⟨[], .deviceCap, bits⟩ := by simpa [openFrame] using hc
    exact Or.inl rfl

theorem components_nil : components [] = [] := rfl

/-- The empty path covers every path. -/
theorem covered_openFrame {c : CapabilityStructure} {bits : BitVec 3} (hc : c.type = .deviceCap)
    (hbits : isCapBitsValid c.capBits bits = true) :
    ∃ p ∈ (openFrame bits).capabilities, covered c p = true := by
  refine ⟨_, List.mem_singleton_self _, covered_iff.2 ⟨?_, isCapSubsetOfCap_iff.2 ⟨hc, hbits⟩⟩⟩
  rw [components_nil]
  exact agree_nil_right _ _

/-- It is covered by every path. -/
theorem derivedFrom_openFrame {f : Frame} {c : CapabilityStructure} (hc : c ∈ f.capabilities)
    (htype : c.type = .deviceCap) :
    (Element.frame f).DerivedFrom (.frame (openFrame c.capBits)) := by
  intro d hd
  obtain rfl : d = ⟨[], .deviceCap, c.capBits⟩ := by
    simpa [openFrame, Element.getCapabilities] using hd
  refine ⟨c, hc, covered_iff.2 ⟨?_, isCapSubsetOfCap_iff.2 ⟨htype.symm, ?_⟩⟩⟩
  · rw [components_nil]
    exact agree_nil_left _ _
  · exact isCapBitsValid_iff.2 BitVec.and_self

/-- The last element, and what is in front of it. -/
theorem concat_eq_append_pair {α : Type*} {l m : List α} {a b c : α}
    (h : l ++ [a] = m ++ [b, c]) : l = m ++ [b] ∧ a = c := by
  have hsplit : l ++ [a] = (m ++ [b]) ++ [c] := by rw [h, List.append_assoc, List.singleton_append]
  obtain ⟨hl, ha⟩ := List.append_inj' hsplit rfl
  exact ⟨hl, List.singleton_inj.1 ha⟩

section Authority

variable {mac : Mac} {stale : ℕ → ℕ → CapabilityType} {ps : List Str} {fs gs : List Frame}
  {r : Request} {token token' : Option IdentityToken}

theorem ReadsFrames.append {p : Str} {f : Frame} (h : ReadsFrames stale ps fs)
    (hp : First frameMarker p) (hf : ∀ i, Frame.empty.fromString (stale i) p = .ok f) :
    ReadsFrames stale (ps ++ [p]) (fs ++ [f]) := by
  refine ⟨fun q hq => ?_, ?_⟩
  · rcases List.mem_append.1 hq with hq | hq
    · exact h.1 q hq
    · rwa [List.mem_singleton.1 hq]
  · rw [List.map_append, List.map_singleton]
    exact (Element.reads_append (by simp)).2
      ⟨_, _, rfl, h.2, .frame (by simp) (hf _) .nil⟩

/-- Frames that are behind others can be taken away. -/
theorem Usable.of_append (h : Usable (fs ++ gs) token) : Usable fs token where
  derived := h.derived.prefix (by simp)
  identity := h.identity
  constraints k hk := h.constraints k (Element.mem_firstConstraints_of_prefix (by simp) hk)

/-- The frame for all paths can be put behind usable frames. -/
theorem Usable.append_openFrame (h : Usable fs token) {f : Frame} (hf : fs.getLast? = some f)
    {c : CapabilityStructure} (hc : c ∈ f.capabilities) (htype : c.type = .deviceCap) :
    Usable (fs ++ [openFrame c.capBits]) token where
  derived := by
    rw [List.map_append, List.map_singleton]
    refine List.isChain_append.2 ⟨h.derived, List.isChain_singleton _, ?_⟩
    intro e he e' he'
    obtain rfl : .frame (openFrame c.capBits) = e' := by simpa using he'
    rw [List.getLast?_map, hf, Option.map_some, Option.mem_some_iff] at he
    exact he ▸ derivedFrom_openFrame hc htype
  identity := h.identity
  constraints k hk := by
    rw [List.map_append, List.map_singleton, Element.firstConstraints_append] at hk
    split_ifs at hk with h0
    · simp [openFrame, Element.firstConstraints, Element.getConstraints] at hk
    · exact h.constraints k hk

/-- The rights of a request are rights of every frame in front of it. -/
theorem exists_bound_of_accepted {s : Str} {t : CapabilityToken}
    (hs : CapabilityToken.empty.fromString mac stale s false = .ok t)
    (hbody : t.body = (fs ++ gs).map .frame ++ [.request r])
    (h : t.isValidRequest mac token = .ok true) {f : Frame} (hf : f ∈ fs) :
    ∃ c ∈ f.capabilities, c.type = .deviceCap ∧
      isCapBitsValid r.capability.capBits c.capBits = true := by
  obtain ⟨r', hlast, hbound⟩ := CapabilityToken.bounds_of_isValidRequest h
  obtain rfl : r = r' := by simpa [hbody] using hlast
  obtain ⟨c, hc, hsub⟩ := hbound f (CapabilityToken.mem_frames.2 (by simp [hbody, hf]))
  have hclean : Element.Clean (.request r) :=
    (CapabilityToken.readsBody_of_fromString hs).clean _ (by simp [hbody])
  rw [isCapSubsetOfCap_iff] at hsub
  exact ⟨c, hc, hsub.1.symm.trans hclean.type, hsub.2⟩

/-- Behind given frames, with further frames as the holder likes, exactly those requests are
accepted for an identity whose rights a device capability of the last frame has, if the
identity can use the frames. Their paths make no difference. -/
theorem authority_iff (hps : ReadsFrames stale ps fs) (hfs : fs ≠ []) (hr : r.Clean)
    (hmark : ¬frameMarker <:+: r.toString) :
    (∃ gs s t token', CapabilityToken.empty.fromString mac stale s false = .ok t ∧
      t.body = (fs ++ gs).map .frame ++ [.request r] ∧ identityOf token' = identityOf token ∧
        t.isValidRequest mac token' = .ok true) ↔
      Usable fs token ∧ ∃ f ∈ fs.getLast?, ∃ c ∈ f.capabilities, c.type = .deviceCap ∧
        isCapBitsValid r.capability.capBits c.capBits = true := by
  constructor
  · rintro ⟨gs, s, t, token', hs, hbody, hsame, h⟩
    obtain ⟨husable, -, -⟩ := usable_of_accepted hs hbody h
    obtain ⟨f, hf⟩ : ∃ f, fs.getLast? = some f := ⟨_, List.getLast?_eq_getLast_of_ne_nil hfs⟩
    exact ⟨husable.of_append.congr hsame.symm, f, hf,
      exists_bound_of_accepted hs hbody h (List.mem_of_getLast? hf)⟩
  · rintro ⟨husable, f, hf, c, hc, htype, hbits⟩
    have hfirst : First frameMarker (openFrame c.capBits).toString :=
      first_frameMarker_of_not_mem (percent_not_mem_openFrame _)
    have hps' := hps.append hfirst fun i => fromString_openFrame (stale i) c.capBits
    obtain ⟨p, hp, hcov⟩ := covered_openFrame hr.type hbits
    obtain ⟨s, t, token', hs, hbody, hsame, h⟩ := exists_accepted mac hps'
      (husable.append_openFrame hf hc htype) List.getLast?_concat hr hmark hp hcov
    exact ⟨_, s, t, token', hs, hbody, hsame, h⟩

/-- Behind the delegated frames, which stop at `/a/b`, a request for `/z` is accepted. -/
theorem authority_delegated : ∃ gs s t token', CapabilityToken.empty.fromString delegatedMac
      (fun _ _ => .ownerCap) s false = .ok t ∧
    t.body = (delegatedFrames ++ gs).map .frame ++
        [.request ⟨⟨"/z".toList, .deviceCap, 0b001⟩, ['h'], ['v']⟩] ∧
      identityOf token' = some "alice".toList ∧
        t.isValidRequest delegatedMac token' = .ok true := by
  obtain ⟨ps, hps⟩ := exists_readsFrames fromString_delegatedBody rfl
  obtain ⟨husable, -, -⟩ :=
    usable_of_accepted fromString_delegatedBody rfl isValidRequest_delegatedToken
  have hlast : ∃ f ∈ delegatedFrames.getLast?, ∃ c ∈ f.capabilities, c.type = .deviceCap ∧
      isCapBitsValid (0b001 : BitVec 3) c.capBits = true := by
    decide +kernel
  have hr : Request.Clean ⟨⟨"/z".toList, .deviceCap, 0b001⟩, ['h'], ['v']⟩ :=
    ⟨by decide, by decide, by decide, rfl⟩
  exact (authority_iff hps (by simp [delegatedFrames]) hr (by decide)).2 ⟨husable, hlast⟩

end Authority

/-! ## Paths that never get shorter -/

/-- The path of `c` lies within the path of `p`, and its rights within the rights. -/
def Contained (c p : CapabilityStructure) : Prop :=
  Covers ['*'] (components p.resource) (components c.resource) ∧ isCapSubsetOfCap c p = true

theorem Contained.trans {c p q : CapabilityStructure} (hcp : Contained c p)
    (hpq : Contained p q) : Contained c q :=
  ⟨covers_trans hpq.1 hcp.1, isCapSubsetOfCap_trans hcp.2 hpq.2⟩

/-- The number of components of the path. -/
def depth (c : CapabilityStructure) : ℕ := (components c.resource).length

theorem contained_iff {c p : CapabilityStructure} :
    Contained c p ↔ depth p ≤ depth c ∧ covered c p = true := by
  rw [Contained, covers_iff, covered_iff, and_assoc]
  rfl

/-- No path of `g` is shorter than one of `f`. -/
def Frame.Deeper (f g : Frame) : Prop :=
  ∀ p ∈ f.capabilities, ∀ c ∈ g.capabilities, depth p ≤ depth c

instance (f g : Frame) : Decidable (f.Deeper g) :=
  inferInstanceAs (Decidable (∀ p ∈ f.capabilities, ∀ c ∈ g.capabilities, depth p ≤ depth c))

/-- If paths never get shorter along the frames and in the request, an accepted request lies
within a capability of every frame. -/
theorem contained_of_deeper {mac : Mac} {t : CapabilityToken} {fs : List Frame} {r : Request}
    {token : Option IdentityToken} (hbody : t.body = fs.map .frame ++ [.request r])
    (hdeeper : fs.IsChain Frame.Deeper)
    (hlast : ∀ f ∈ fs.getLast?, ∀ c ∈ f.capabilities, depth c ≤ depth r.capability)
    (h : t.isValidRequest mac token = .ok true) :
    ∀ f ∈ fs, ∃ c ∈ f.capabilities, Contained r.capability c := by
  obtain ⟨hcont, es, e, r', hbody', c, hc, hcov⟩ := CapabilityToken.isValidRequest_eq_true_iff.1 h
  obtain ⟨-, -, hder⟩ := CapabilityToken.continueValidation_iff.1 hcont
  obtain ⟨hderived, -⟩ := (isValidDerivation_iff_of_body hbody rfl).1 hder
  obtain ⟨hfs, hr⟩ := concat_eq_append_pair (hbody.symm.trans hbody')
  obtain rfl := Element.request.inj hr
  rw [Element.Derived, List.isChain_map] at hderived
  rw [List.isChain_iff_forall_rel_of_append_cons_cons] at hdeeper hderived
  have hchain : fs.IsChain fun f g => f.Deeper g ∧ (Element.frame f).DerivedFrom (.frame g) :=
    List.isChain_iff_forall_rel_of_append_cons_cons.2 fun _ _ _ _ heq =>
      ⟨hdeeper heq, hderived heq⟩
  refine hchain.backwards_induction _ _ (fun f g hfg hg => ?_) fun hne => ?_
  · obtain ⟨d, hd, hrd⟩ := hg
    obtain ⟨p, hp, hdp⟩ := hfg.2 d hd
    exact ⟨p, hp, hrd.trans (contained_iff.2 ⟨hfg.1 p hp d hd, hdp⟩)⟩
  · have hget : fs.getLast? = some (fs.getLast hne) := List.getLast?_eq_getLast_of_ne_nil hne
    have he : .frame (fs.getLast hne) = e := by
      have hmap : (fs.map Element.frame).getLast? = some e := by rw [hfs, List.getLast?_concat]
      rw [List.getLast?_map, hget] at hmap
      exact Option.some.inj hmap
    subst he
    exact ⟨c, hc, contained_iff.2 ⟨hlast _ hget c hc, hcov⟩⟩

/-- The delegated frames only get deeper. -/
theorem contained_of_deeper_delegated :
    ∃ c ∈ delegatedRoot.capabilities, Contained delegatedRequest.capability c := by
  have hbody : delegatedToken.body = delegatedFrames.map .frame ++ [.request delegatedRequest] :=
    rfl
  exact contained_of_deeper hbody (by decide +kernel) (by decide +kernel)
    isValidRequest_delegatedToken _ List.mem_cons_self

end Caplets
