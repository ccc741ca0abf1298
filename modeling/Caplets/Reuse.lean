import Caplets.Framing

/-!
# Parsing into a used object

A parser is called on an object that exists, with whatever an earlier parse or the memory
has left in it. For each of the six parsers this module says when two such objects end in the
same state : requests always, the others if they agree in what is not overwritten
(`parse_same_iff`). Vectors are appended to and never cleared, a field is kept where the text
has no piece for it, and a capability keeps its type if the type field of its text is unknown.
In a frame that type is the memory of a local variable, `stale` and `stale'` in the two runs.
-/

namespace Caplets

open Delimited

/-! ## Capabilities -/

/-- The type field of the text is one that the parser knows. -/
def TypeKnown (capString : Str) : Prop :=
  ∃ t, (splitString [] capString ['+'])[1]? = some t ∧ (cStr t = ['0'] ∨ cStr t = ['1'])

namespace CapabilityStructure

/-- The type before shows if the field sets none. -/
theorem typeOfField_eq_iff {t : Str} {prior prior' : CapabilityType} :
    typeOfField t prior = typeOfField t prior' ↔
      (cStr t = ['0'] ∨ cStr t = ['1']) ∨ prior = prior' := by
  have h0 : strcmpEq t ['0'] = true ↔ cStr t = ['0'] := strcmpEq_iff
  have h1 : strcmpEq t ['1'] = true ↔ cStr t = ['1'] := strcmpEq_iff
  unfold typeOfField
  by_cases ht0 : cStr t = ['0']
  · simp [h0.2 ht0, ht0]
  · by_cases ht1 : cStr t = ['1']
    · simp [Bool.eq_false_iff.2 (mt h0.1 ht0), h1.2 ht1, ht1]
    · simp [Bool.eq_false_iff.2 (mt h0.1 ht0), Bool.eq_false_iff.2 (mt h1.1 ht1), ht0, ht1]

/-- Of the object before only the type can show. -/
theorem fromString_same_iff {self self' c c' : CapabilityStructure} {s : Str}
    (h : self.fromString s = .ok c) (h' : self'.fromString s = .ok c') :
    c = c' ↔ TypeKnown s ∨ self.type = self'.type := by
  obtain ⟨r, t, b, rest, hs, rfl⟩ := fromString_eq_ok.1 h
  obtain ⟨r', t', b', rest', hs', rfl⟩ := fromString_eq_ok.1 h'
  obtain ⟨rfl, rfl, rfl, -⟩ : r = r' ∧ t = t' ∧ b = b' ∧ rest = rest' := by
    simpa using hs.symm.trans hs'
  have hknown : TypeKnown s ↔ cStr t = ['0'] ∨ cStr t = ['1'] := by
    simp [TypeKnown, hs]
  rw [hknown, ← typeOfField_eq_iff]
  simp

end CapabilityStructure

/-! ## Constraints and requests -/

/-- The parameters of the object before come first. -/
theorem Constraint.fromString_eq_ok_of_self {self k : Constraint} {s : Str} :
    self.fromString s = .ok k ↔
      self.parameters ++ splitString [] (afterColon s) [':'] = k.fields := by
  obtain ⟨ps, hps⟩ := exists_splits (d := [':']) (by simp) (afterColon s)
  simp only [fromString, substr_afterColon, bind_eq_ok, Except.ok.injEq, exists_eq_left',
    vecAt_eq_ok, pure_eq_ok, splitString_eq hps (by simp : [':'] ≠ []), List.nil_append]
  obtain ⟨function, parameters⟩ := k
  cases self.parameters ++ ps <;> simp [fields, eq_comm]

/-- So they always show. -/
theorem Constraint.fromString_same_iff {self self' k k' : Constraint} {s : Str}
    (h : self.fromString s = .ok k) (h' : self'.fromString s = .ok k') :
    k = k' ↔ self.parameters = self'.parameters := by
  have hfields : k = k' ↔ k.fields = k'.fields := by
    obtain ⟨f, ps⟩ := k
    obtain ⟨f', ps'⟩ := k'
    simp [fields]
  rw [fromString_eq_ok_of_self] at h h'
  rw [hfields, ← h, ← h', List.append_left_inj]

/-- Nothing of a request stays. -/
theorem Request.fromString_same {self self' r r' : Request} {s : Str}
    (h : self.fromString s = .ok r) (h' : self'.fromString s = .ok r') : r = r' := by
  obtain ⟨m, res, hn, v, b, rest, hs, rfl⟩ := fromString_eq_ok.1 h
  obtain ⟨m', res', hn', v', b', rest', hs', rfl⟩ := fromString_eq_ok.1 h'
  obtain ⟨-, rfl, rfl, rfl, rfl, -⟩ : m = m' ∧ res = res' ∧ hn = hn' ∧ v = v' ∧ b = b' ∧
      rest = rest' := by
    simpa using hs.symm.trans hs'
  rfl

/-! ## Frames -/

/-- Where the memory differs no capability depends on it. -/
def MemoryAgrees (stale stale' : ℕ → CapabilityType) (i : ℕ) (ps : List Str) : Prop :=
  ∀ j p, ps[j]? = some p →
    functionMarker <:+: p ∨ TypeKnown p ∨ stale (i + j) = stale' (i + j)

theorem memoryAgrees_cons {stale stale' : ℕ → CapabilityType} {i : ℕ} {p : Str} {ps : List Str} :
    MemoryAgrees stale stale' i (p :: ps) ↔
      (functionMarker <:+: p ∨ TypeKnown p ∨ stale i = stale' i) ∧
        MemoryAgrees stale stale' (i + 1) ps := by
  rw [MemoryAgrees, ← Nat.and_forall_add_one]
  simp only [MemoryAgrees, List.getElem?_cons_zero, List.getElem?_cons_succ, Option.some.injEq,
    forall_eq', Nat.add_zero, Nat.add_right_comm i, Nat.add_assoc]

namespace Frame

variable {stale stale' : ℕ → CapabilityType}

/-- The same pieces are read as equally many capabilities and as the same constraints. The
capabilities are the same if the memory agrees. -/
theorem Reads.same {i : ℕ} {ps : List Str} {cs cs' : List CapabilityStructure}
    {ks ks' : List Constraint} (h : Reads stale i ps cs ks) (h' : Reads stale' i ps cs' ks') :
    ks = ks' ∧ cs.length = cs'.length ∧ (cs = cs' ↔ MemoryAgrees stale stale' i ps) := by
  induction h generalizing cs' ks' with
  | nil =>
    cases h'
    exact ⟨rfl, rfl, by simp [MemoryAgrees]⟩
  | capability hp hc _ ih =>
    cases h' with
    | capability _ hc' hr' =>
      obtain ⟨hks, hlen, hcs⟩ := ih hr'
      have hsame := CapabilityStructure.fromString_same_iff hc hc'
      refine ⟨hks, by simp [hlen], ?_⟩
      rw [List.cons.injEq, memoryAgrees_cons, hsame, hcs]
      simp [hp, CapabilityStructure.uninit]
    | constraint hp' _ _ => exact absurd hp' hp
  | constraint hp hk _ ih =>
    cases h' with
    | capability hp' _ _ => exact absurd hp hp'
    | constraint _ hk' hr' =>
      obtain ⟨rfl, hlen, hcs⟩ := ih hr'
      obtain rfl := Except.ok.inj (hk.symm.trans hk')
      refine ⟨rfl, hlen, ?_⟩
      rw [memoryAgrees_cons, hcs]
      simp [hp]

/-- All of the frame before shows, and the memory where a type field sets no type. -/
theorem fromString_same_iff {self self' f f' : Frame} {s : Str}
    (h : self.fromString stale s = .ok f) (h' : self'.fromString stale' s = .ok f') :
    f = f' ↔ self = self' ∧ MemoryAgrees stale stale' 0 (splitString [] s ['$']) := by
  obtain ⟨cs, ks, hr, rfl⟩ := addPieces_eq_ok.1 h
  obtain ⟨cs', ks', hr', rfl⟩ := addPieces_eq_ok.1 h'
  obtain ⟨rfl, hlen, hcs⟩ := hr.same hr'
  obtain ⟨caps, cons⟩ := self
  obtain ⟨caps', cons'⟩ := self'
  simp only [mk.injEq, List.append_left_inj, ← hcs]
  constructor
  · rintro ⟨hcaps, rfl⟩
    obtain ⟨rfl, rfl⟩ := List.append_inj' hcaps hlen
    exact ⟨⟨rfl, rfl⟩, rfl⟩
  · rintro ⟨⟨rfl, rfl⟩, rfl⟩
    exact ⟨rfl, rfl⟩

end Frame

/-! ## Tokens -/

/-- No frame depends on memory that differs. The last piece is no frame if it is a request. -/
def FramesAgree (stale stale' : ℕ → ℕ → CapabilityType) (hasRequest : Bool) (i : ℕ)
    (ps : List Str) : Prop :=
  ∀ j p, ps[j]? = some p → hasRequest = true ∧ j + 1 = ps.length ∨
    MemoryAgrees (stale (i + j)) (stale' (i + j)) 0 (splitString [] p ['$'])

theorem framesAgree_cons {stale stale' : ℕ → ℕ → CapabilityType} {hasRequest : Bool} {i : ℕ}
    {p : Str} {ps : List Str} (hps : hasRequest = true → ps ≠ []) :
    FramesAgree stale stale' hasRequest i (p :: ps) ↔
      MemoryAgrees (stale i) (stale' i) 0 (splitString [] p ['$']) ∧
        FramesAgree stale stale' hasRequest (i + 1) ps := by
  have hfirst : ¬(hasRequest = true ∧ 0 + 1 = (p :: ps).length) := by
    rintro ⟨hreq, hlen⟩
    have hpos := List.length_pos_iff.2 (hps hreq)
    rw [List.length_cons] at hlen
    omega
  rw [FramesAgree, FramesAgree, ← Nat.and_forall_add_one]
  refine and_congr ?_ (forall_congr' fun j => ?_)
  · simp only [List.getElem?_cons_zero, Option.some.injEq, forall_eq', hfirst, false_or,
      Nat.add_zero]
  · have hlen : j + 1 + 1 = (p :: ps).length ↔ j + 1 = ps.length := by
      rw [List.length_cons]
      omega
    have hindex : i + (j + 1) = i + 1 + j := by omega
    rw [List.getElem?_cons_succ, hlen, hindex]

/-- The elements read depend on the memory alone. -/
theorem Element.Reads.same {stale stale' : ℕ → ℕ → CapabilityType} {hasRequest : Bool} {i : ℕ}
    {ps : List Str} {es es' : List Element} (h : Reads stale hasRequest i ps es)
    (h' : Reads stale' hasRequest i ps es') :
    es = es' ↔ FramesAgree stale stale' hasRequest i ps := by
  induction h generalizing es' with
  | nil =>
    cases h'
    simp [FramesAgree]
  | frame hne hf _ ih =>
    cases h' with
    | frame _ hf' hr' =>
      have hsame := Frame.fromString_same_iff hf hf'
      rw [List.cons.injEq, Element.frame.injEq, hsame, ih hr', framesAgree_cons hne]
      simp
    | request hreq _ => exact absurd rfl (hne hreq)
  | request hreq hr =>
    cases h' with
    | frame hne _ _ => exact absurd rfl (hne hreq)
    | request _ hr' =>
      refine iff_of_true (by rw [Request.fromString_same hr hr']) fun j p hp => Or.inl ⟨hreq, ?_⟩
      have hj := (List.getElem?_eq_some_iff.1 hp).1
      rw [List.length_singleton] at hj ⊢
      omega

namespace CapabilityToken

variable {mac mac' : Mac} {stale stale' : ℕ → ℕ → CapabilityType} {s : Str}

/-- The last element is a request if the last piece has the marker. -/
theorem lastRequest_eq_none_iff {hasRequest : Bool} {i : ℕ} {ps : List Str} {es : List Element}
    (h : Element.Reads stale hasRequest i ps es) (hps : ps ≠ []) :
    Element.lastRequest es = none ↔ hasRequest = false := by
  induction h with
  | nil => exact absurd rfl hps
  | @frame i p ps f es hne _ hr ih =>
    rcases eq_or_ne ps [] with rfl | hps'
    · cases hr
      rw [← List.nil_append [Element.frame f], Element.lastRequest_append_frame]
      simpa using hne
    · have hlast : Element.lastRequest (.frame f :: es) = Element.lastRequest es := by
        obtain ⟨e, es, rfl⟩ := List.exists_cons_of_ne_nil (hr.ne_nil hps')
        rw [Element.lastRequest, List.getLast?_cons_cons, Element.lastRequest]
      rw [hlast, ih hps']
  | @request i p r hreq _ =>
    rw [← List.nil_append [Element.request r], Element.lastRequest_append_request]
    simp [hreq]

/-- The body before shows, and the request if no other is read. -/
theorem fromString_same_iff {self self' t t' : CapabilityToken}
    (h : self.fromString mac stale s false = .ok t)
    (h' : self'.fromString mac' stale' s false = .ok t') :
    ∃ ps last, strFrames s = .ok ps ∧ ps.getLast? = some last ∧
      (t = t' ↔ self.body = self'.body ∧
        (requestMarker <:+: last ∨ self.request = self'.request) ∧
          FramesAgree stale stale' (decide (requestMarker <:+: last)) 0 ps) := by
  obtain ⟨es, ⟨ps, last, hps, hlast, hr⟩, rfl⟩ := fromString_false_eq_ok_of_self.1 h
  obtain ⟨es', ⟨ps', last', hps', hlast', hr'⟩, rfl⟩ := fromString_false_eq_ok_of_self.1 h'
  obtain rfl := Except.ok.inj (hps.symm.trans hps')
  obtain rfl := Option.some.inj (hlast.symm.trans hlast')
  refine ⟨ps, last, hps, hlast, ?_⟩
  have hlen : es.length = es'.length := hr.length_eq.trans hr'.length_eq.symm
  have hnone := lastRequest_eq_none_iff hr (by
    rintro rfl
    simp at hlast)
  rw [← hr.same hr']
  simp only [mk.injEq, true_and]
  constructor
  · rintro ⟨hbody, hrequest⟩
    obtain ⟨hself, rfl⟩ := List.append_inj' hbody hlen
    refine ⟨hself, ?_, rfl⟩
    by_cases hmark : requestMarker <:+: last
    · exact Or.inl hmark
    · rw [hnone.2 (decide_eq_false hmark), Option.none_or, Option.none_or] at hrequest
      exact Or.inr hrequest
  · rintro ⟨hself, hrequest, rfl⟩
    refine ⟨by rw [hself], ?_⟩
    rcases hrequest with hmark | hrequest
    · obtain ⟨r, hr⟩ := Option.ne_none_iff_exists'.1 (mt hnone.1 (by simpa using hmark))
      rw [hr, Option.some_or, Option.some_or]
    · rw [hrequest]

end CapabilityToken

/-- The fields before show where their pieces are missing. -/
theorem IdentityToken.fromString_same_iff {self self' i i' : IdentityToken} {s : Str}
    (h : self.fromString s = .ok i) (h' : self'.fromString s = .ok i') :
    ∃ ps, strFrames s = .ok ps ∧
      (i = i' ↔ (2 ≤ ps.length ∨ self.identityToken = self'.identityToken) ∧
        (3 ≤ ps.length ∨ self.requestTag = self'.requestTag)) := by
  obtain ⟨ps, hps, rfl⟩ := fromString_eq_ok.1 h
  obtain ⟨ps', hps', rfl⟩ := fromString_eq_ok.1 h'
  obtain rfl := Except.ok.inj (hps.symm.trans hps')
  have hpiece : ∀ (n : ℕ) (x x' : Str),
      ps[n]?.getD x = ps[n]?.getD x' ↔ n + 1 ≤ ps.length ∨ x = x' := by
    intro n x x'
    by_cases hn : n < ps.length
    · simp [List.getElem?_eq_getElem hn, Nat.succ_le_of_lt hn]
    · have hn' : ¬n + 1 ≤ ps.length := by omega
      simp [List.getElem?_eq_none (Nat.le_of_not_lt hn), hn']
  refine ⟨ps, hps, ?_⟩
  rw [mk.injEq, hpiece, hpiece]
  simp

/-! ## All parsers -/

/-- When a text is parsed into two objects with the same result : for every class, exactly if
they agree in what the text does not overwrite. -/
theorem parse_same_iff (s : Str) :
    (∀ self self' c c' : CapabilityStructure, self.fromString s = .ok c →
      self'.fromString s = .ok c' → (c = c' ↔ TypeKnown s ∨ self.type = self'.type)) ∧
    (∀ self self' k k' : Constraint, self.fromString s = .ok k → self'.fromString s = .ok k' →
      (k = k' ↔ self.parameters = self'.parameters)) ∧
    (∀ (stale stale' : ℕ → CapabilityType) (self self' f f' : Frame),
      self.fromString stale s = .ok f → self'.fromString stale' s = .ok f' →
        (f = f' ↔ self = self' ∧ MemoryAgrees stale stale' 0 (splitString [] s ['$']))) ∧
    (∀ self self' r r' : Request, self.fromString s = .ok r → self'.fromString s = .ok r' →
      r = r') ∧
    (∀ (mac mac' : Mac) (stale stale' : ℕ → ℕ → CapabilityType)
      (self self' t t' : CapabilityToken), self.fromString mac stale s false = .ok t →
        self'.fromString mac' stale' s false = .ok t' →
          ∃ ps last, strFrames s = .ok ps ∧ ps.getLast? = some last ∧
            (t = t' ↔ self.body = self'.body ∧
              (requestMarker <:+: last ∨ self.request = self'.request) ∧
                FramesAgree stale stale' (decide (requestMarker <:+: last)) 0 ps)) ∧
    ∀ self self' i i' : IdentityToken, self.fromString s = .ok i → self'.fromString s = .ok i' →
      ∃ ps, strFrames s = .ok ps ∧
        (i = i' ↔ (2 ≤ ps.length ∨ self.identityToken = self'.identityToken) ∧
          (3 ≤ ps.length ∨ self.requestTag = self'.requestTag)) :=
  ⟨fun _ _ _ _ => CapabilityStructure.fromString_same_iff,
    fun _ _ _ _ => Constraint.fromString_same_iff, fun _ _ _ _ _ _ => Frame.fromString_same_iff,
    fun _ _ _ _ => Request.fromString_same,
    fun _ _ _ _ _ _ _ _ => CapabilityToken.fromString_same_iff,
    fun _ _ _ _ => IdentityToken.fromString_same_iff⟩

/-- Texts with known types are parsed alike whatever the memory holds, old parameters and the
request tag of an identity token without one are kept. -/
theorem parse_same_delegated :
    (TypeKnown "/a+0+1".toList ∨ CapabilityType.ownerCap = .userCap) ∧
    (⟨['x'], [['f']]⟩ : Constraint) ≠ ⟨['f'], []⟩ ∧
    MemoryAgrees (fun _ => .ownerCap) (fun _ => .userCap) 0
      (splitString [] "/a+0+1".toList ['$']) ∧
    (⟨⟨"/a/b".toList, .deviceCap, 0b001⟩, ['h'], ['v']⟩ : Request) = delegatedRequest ∧
    (∃ ps last, strFrames (delegatedTag ++ delegatedBody) = .ok ps ∧ ps.getLast? = some last ∧
      FramesAgree (fun _ _ => .ownerCap) (fun _ _ => .userCap)
        (decide (requestMarker <:+: last)) 0 ps) ∧
    (⟨['T'], ['i'], []⟩ : IdentityToken) ≠ ⟨['T'], ['i'], ['r']⟩ := by
  obtain ⟨hcap, -, hframe, -, -, -⟩ := parse_same_iff "/a+0+1".toList
  obtain ⟨-, hcon, -, -, -, -⟩ := parse_same_iff "FUNCTION:f".toList
  obtain ⟨-, -, -, hreq, -, -⟩ := parse_same_iff "request:/a/b:h:v:001".toList
  obtain ⟨-, -, -, -, htoken, -⟩ := parse_same_iff (delegatedTag ++ delegatedBody)
  obtain ⟨-, -, -, -, -, hid⟩ := parse_same_iff "T%FRAME%D%FRAME%i".toList
  refine ⟨(hcap (.uninit .ownerCap) (.uninit .userCap) _ _ (by rfl) (by rfl)).1 rfl, ?_,
    ((hframe _ _ .empty .empty _ _ (by rfl) (by rfl)).1 rfl).2,
    hreq .empty delegatedRequest _ _ (by decide +kernel) (by decide +kernel), ?_, ?_⟩
  · have hsame := hcon ⟨[], [['x']]⟩ .empty ⟨['x'], [['f']]⟩ ⟨['f'], []⟩ (by decide) (by decide)
    exact mt hsame.1 (by decide)
  · obtain ⟨ps, last, hps, hlast, hsame⟩ := htoken delegatedMac delegatedMac _
      (fun _ _ => .userCap) .empty .empty _ delegatedToken fromString_delegatedBody
      (by decide +kernel)
    exact ⟨ps, last, hps, hlast, (hsame.1 rfl).2.2⟩
  · obtain ⟨ps, hps, hsame⟩ := hid .empty ⟨[], [], ['r']⟩ ⟨['T'], ['i'], []⟩ ⟨['T'], ['i'], ['r']⟩
      (by decide) (by decide)
    have hpieces : strFrames "T%FRAME%D%FRAME%i".toList = .ok [['D'], ['i']] := by decide
    obtain rfl := Except.ok.inj (hpieces.symm.trans hps)
    exact mt hsame.1 (by decide)

/-- A token that is received twice with the same object has all its frames twice. -/
theorem not_parse_same : ¬∀ (mac : Mac) (stale : ℕ → ℕ → CapabilityType) (s : Str)
    (self self' t t' : CapabilityToken), self.fromString mac stale s false = .ok t →
      self'.fromString mac stale s false = .ok t' → t = t' := by
  intro h
  have hfirst : CapabilityToken.empty.fromString (.ofTable []) (fun _ _ => .deviceCap)
      "%FRAME%/a+0+001".toList false =
        .ok ⟨[], [.frame ⟨[⟨"/a".toList, .deviceCap, 0b001⟩], []⟩], none⟩ := by
    decide +kernel
  have hsecond : CapabilityToken.fromString (.ofTable []) (fun _ _ => .deviceCap)
      ⟨[], [.frame ⟨[⟨"/a".toList, .deviceCap, 0b001⟩], []⟩], none⟩
      "%FRAME%/a+0+001".toList false =
        .ok ⟨[], [.frame ⟨[⟨"/a".toList, .deviceCap, 0b001⟩], []⟩,
          .frame ⟨[⟨"/a".toList, .deviceCap, 0b001⟩], []⟩], none⟩ := by
    decide +kernel
  exact absurd (h _ _ _ _ _ _ _ hfirst hsecond) (by simp)

end Caplets
