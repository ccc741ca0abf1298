import Caplets.RoundTrip

/-!
# Bits read as a decimal number

`from_string` reads three binary digits with `atoi` and keeps the number modulo 8. Since 10 is
2 and 1000 is 0 modulo 8, the digits of a longer number count as binary digits, too, and only
the last three of them (`decimalValue_mod_eight`). What is read is printed as these three
digits, and read from the print again (`bits_of_digits`).

Bits of any number are ordered by `operator<`, which looks for the highest bit that differs.
That is the order of the binary numbers (`operatorLt_iff`).
-/

namespace Caplets

open Delimited

/-! ## Decimal digits -/

theorem decimalValue_eq (s : Str) : decimalValue s = Nat.ofDigitChars 10 s 0 := rfl

theorem isSpace_of_isDigit {c : Char} (h : c.isDigit = true) : isSpace c = false := by
  rw [Bool.eq_false_iff]
  intro hspace
  simp only [isSpace, isTrimmed, Bool.or_eq_true, beq_iff_eq] at hspace
  rcases hspace with rfl | (((rfl | rfl) | rfl) | rfl) | rfl
  all_goals simp at h

/-- `atoi` of digits alone, if their value is an `int`. -/
theorem atoi_of_isDigit {s : Str} (hdigit : ∀ c ∈ s, c.isDigit = true)
    (hint : decimalValue s ≤ 2147483647) : atoi s = decimalValue s := by
  have hspace : s.dropWhile isSpace = s := by
    rw [List.dropWhile_eq_self_iff]
    intro hlen
    simpa using isSpace_of_isDigit (hdigit _ (List.getElem_mem hlen))
  have hhead : ∀ c, c.isDigit = false → s.head? ≠ some c := by
    intro c hc hs
    rw [hdigit c (List.mem_of_head? hs)] at hc
    exact absurd hc (by simp)
  have hminus := hhead '-' (by decide)
  have hplus := hhead '+' (by decide)
  have hall : s.takeWhile Char.isDigit = s := List.takeWhile_eq_self_iff.2 hdigit
  simp only [atoi, hspace, hminus, hplus, or_self, if_false, hall, beq_eq_false_iff_ne.2 hminus,
    Bool.false_eq_true]
  rw [Int.min_eq_right (by omega), BitVec.toInt_ofInt_eq_self (by decide) (by omega) (by omega)]

/-- Modulo 8 digits have the same value to the base 10 and to the base 2. -/
theorem ofDigitChars_mod_eight : ∀ (s : Str) {n m : ℕ}, n % 8 = m % 8 →
    Nat.ofDigitChars 10 s n % 8 = Nat.ofDigitChars 2 s m % 8
  | [], n, m, h => by simpa using h
  | c :: s, n, m, h => by
    rw [Nat.ofDigitChars_cons, Nat.ofDigitChars_cons]
    exact ofDigitChars_mod_eight s (by omega)

/-- Digits in front of the last three count for multiples of 1000. -/
theorem decimalValue_mod_eight (s : Str) :
    decimalValue s % 8 = Nat.ofDigitChars 2 (s.rtake 3) 0 % 8 := by
  rw [← ofDigitChars_mod_eight (s.rtake 3) rfl, decimalValue_eq]
  rcases Nat.lt_or_ge s.length 3 with hlt | hge
  · have hall : s.rtake 3 = s := by
      rw [List.rtake, Nat.sub_eq_zero_of_le hlt.le, List.drop_zero]
    rw [hall]
  · have hlen : (s.rtake 3).length = 3 := by
      rw [List.rtake, List.length_drop]
      omega
    have hcut : s.take (s.length - 3) ++ s.rtake 3 = s := List.take_append_drop _ _
    conv_lhs => rw [← hcut, Nat.ofDigitChars_append, Nat.ofDigitChars_eq_ofDigitChars_zero, hlen]
    omega

/-! ## Binary digits -/

/-- At most three binary digits are printed as they are, behind zeros. -/
theorem bitsToString_of_digits : ∀ {u : Str}, u.length ≤ 3 → (∀ c ∈ u, c = '0' ∨ c = '1') →
    bitsToString (.ofNat 3 (Nat.ofDigitChars 2 u 0)) = u.leftpad 3 '0'
  | [], _, _ => rfl
  | [a], _, h => by
    rcases h a (by simp) with rfl | rfl
    all_goals rfl
  | [a, b], _, h => by
    rcases h a (by simp) with rfl | rfl <;> rcases h b (by simp) with rfl | rfl
    all_goals rfl
  | [a, b, c], _, h => by
    rcases h a (by simp) with rfl | rfl <;> rcases h b (by simp) with rfl | rfl <;>
      rcases h c (by simp) with rfl | rfl
    all_goals rfl
  | _ :: _ :: _ :: _ :: _, hlen, _ => by
    simp only [List.length_cons] at hlen
    omega

/-- The last three characters as binary digits, with zeros for missing ones. -/
def lastBits (s : Str) : BitVec 3 :=
  .ofNat 3 (Nat.ofDigitChars 2 (s.rtake 3) 0)

theorem bitsOfInt_atoi {s : Str} (hdigit : ∀ c ∈ s, c.isDigit = true)
    (hint : decimalValue s ≤ 2147483647) : bitsOfInt (atoi s) = lastBits s := by
  rw [atoi_of_isDigit hdigit hint, bitsOfInt, BitVec.ofInt_natCast]
  refine BitVec.eq_of_toNat_eq ?_
  rw [lastBits, BitVec.toNat_ofNat, BitVec.toNat_ofNat]
  exact decimalValue_mod_eight s

theorem bitsToString_lastBits {s : Str} (hdigits : ∀ c ∈ s, c = '0' ∨ c = '1') :
    bitsToString (lastBits s) = (s.rtake 3).leftpad 3 '0' := by
  refine bitsToString_of_digits ?_ fun c hc => hdigits c (List.mem_of_mem_drop hc)
  rw [List.rtake, List.length_drop]
  omega

/-! ## The two fields -/

namespace CapabilityStructure

variable (self : CapabilityStructure) {s capString : Str}

/-- A text with a third field is read, and the field is that of the bits. -/
theorem exists_fromString (h : (splitString [] capString ['+'])[2]? = some s) :
    ∃ c, self.fromString capString = .ok c ∧ c.capBits = bitsOfInt (atoi s) ∧
      '+' ∉ c.resource := by
  rcases hv : splitString [] capString ['+'] with _ | ⟨r, _ | ⟨t, _ | ⟨b, rest⟩⟩⟩
  · simp [hv] at h
  · simp [hv] at h
  · simp [hv] at h
  · obtain rfl : b = s := by simpa [hv] using h
    refine ⟨_, fromString_eq_ok.2 ⟨r, t, b, rest, hv, rfl⟩, rfl, ?_⟩
    have hfree := ((splitString_eq_iff (by simp)).1 hv).free_of_mem r (by simp)
    rwa [singleton_infix_iff] at hfree

/-- The bits of a printed capability are read again, whatever its type. -/
theorem exists_fromString_toString {c : CapabilityStructure} (hc : '+' ∉ c.resource) :
    ∃ c', self.fromString c.toString = .ok c' ∧ c'.capBits = c.capBits :=
  ⟨_, fromString_eq_ok.2 ⟨_, _, _, [], splitString_toString hc, rfl⟩,
    bitsOfInt_atoi_bitsToString _⟩

end CapabilityStructure

/-- A request text with a fifth field is read, and the field is that of the bits. -/
theorem Request.exists_fromString (self : Request) {s request : Str}
    (h : (splitString [] request [':'])[4]? = some s) :
    ∃ r, self.fromString request = .ok r ∧ r.capability.capBits = bitsOfInt (atoi s) := by
  rcases hv : splitString [] request [':'] with
    _ | ⟨m, _ | ⟨res, _ | ⟨hn, _ | ⟨v, _ | ⟨b, rest⟩⟩⟩⟩⟩
  · simp [hv] at h
  · simp [hv] at h
  · simp [hv] at h
  · simp [hv] at h
  · simp [hv] at h
  · obtain rfl : b = s := by simpa [hv] using h
    exact ⟨_, fromString_eq_ok.2 ⟨m, res, hn, v, b, rest, hv, rfl⟩, rfl⟩

/-- A field of zeros and ones, of any length as long as it is an `int`, gives the bits that
its last three digits say. They are printed as these digits and read from the print again. -/
theorem bits_of_digits {s : Str} (hdigits : ∀ c ∈ s, c = '0' ∨ c = '1')
    (hint : decimalValue s ≤ 2147483647) :
    bitsOfInt (atoi s) = lastBits s ∧
    (∀ (self : CapabilityStructure) capString, (splitString [] capString ['+'])[2]? = some s →
      ∃ c, self.fromString capString = .ok c ∧ c.capBits = lastBits s ∧
        c.toString = c.resource ++ ['+'] ++ Nat.toDigits 10 c.type.value ++ ['+'] ++
          (s.rtake 3).leftpad 3 '0' ∧
        ∀ self' : CapabilityStructure, ∃ c', self'.fromString c.toString = .ok c' ∧
          c'.capBits = c.capBits) ∧
    ∀ (self : Request) request, (splitString [] request [':'])[4]? = some s →
      ∃ r, self.fromString request = .ok r ∧ r.capability.capBits = lastBits s ∧
        r.toString = requestMarker ++ r.capability.resource ++ [':'] ++ r.handlerName ++ [':'] ++
          r.value ++ [':'] ++ (s.rtake 3).leftpad 3 '0' ∧
        ∀ self' : Request, self'.fromString r.toString = .ok r := by
  have hdigit : ∀ c ∈ s, c.isDigit = true := by
    intro c hc
    rcases hdigits c hc with rfl | rfl
    all_goals rfl
  have hbits := bitsOfInt_atoi hdigit hint
  have hprint := bitsToString_lastBits hdigits
  refine ⟨hbits, fun self capString h => ?_, fun self request h => ?_⟩
  · obtain ⟨c, hc, hcap, hplus⟩ := CapabilityStructure.exists_fromString self h
    rw [hbits] at hcap
    refine ⟨c, hc, hcap, ?_, fun self' => self'.exists_fromString_toString hplus⟩
    rw [CapabilityStructure.toString, hcap, hprint]
  · obtain ⟨r, hr, hcap⟩ := Request.exists_fromString self h
    rw [hbits] at hcap
    refine ⟨r, hr, hcap, ?_, Request.fromString_toString (Request.clean_of_fromString hr)⟩
    rw [Request.toString, hcap, hprint]

/-- Seven digits, of which the last three are kept. -/
theorem bits_of_digits_long : ∃ c,
    (CapabilityStructure.uninit .ownerCap).fromString "/a+0+0010110".toList = .ok c ∧
      c.capBits = 0b110 ∧
        ∀ self' : CapabilityStructure, ∃ c', self'.fromString c.toString = .ok c' ∧
          c'.capBits = c.capBits := by
  have hfield : (splitString [] "/a+0+0010110".toList ['+'])[2]? = some "0010110".toList := by
    decide
  obtain ⟨-, hcap, -⟩ := bits_of_digits (s := "0010110".toList) (by simp) (by decide)
  obtain ⟨c, hc, hbits, -, hagain⟩ := hcap (.uninit .ownerCap) _ hfield
  exact ⟨c, hc, hbits.trans (by decide), hagain⟩

/-! ## The order of bits -/

/-- The loop of `operator<` from the bit `i - 1` down. -/
def operatorLtLoop {N : ℕ} (x y : BitVec N) : ℕ → Bool
  | 0 => false
  | i + 1 => if x.getLsbD i ^^ y.getLsbD i then y.getLsbD i else operatorLtLoop x y i

/-- `x < y` for bitsets. -/
def operatorLt {N : ℕ} (x y : BitVec N) : Bool := operatorLtLoop x y N

/-- The loop compares the bits that it has not looked at. -/
theorem operatorLtLoop_iff {N : ℕ} (x y : BitVec N) (i : ℕ) :
    operatorLtLoop x y i = true ↔ (x.setWidth i).toNat < (y.setWidth i).toNat := by
  induction i with
  | zero => simp [operatorLtLoop, BitVec.of_length_zero]
  | succ i ih =>
    have hx := (x.setWidth i).isLt
    have hy := (y.setWidth i).isLt
    rw [operatorLtLoop, BitVec.setWidth_succ, BitVec.setWidth_succ, BitVec.toNat_cons',
      BitVec.toNat_cons', Nat.shiftLeft_eq, Nat.shiftLeft_eq]
    cases x.getLsbD i <;> cases y.getLsbD i
    · simp [ih]
    · simp
      omega
    · simp
      omega
    · simp [ih]

/-- Bitsets of any width are compared as binary numbers. -/
theorem operatorLt_iff {N : ℕ} (x y : BitVec N) : operatorLt x y = true ↔ x.toNat < y.toNat := by
  rw [operatorLt, operatorLtLoop_iff, BitVec.setWidth_eq, BitVec.setWidth_eq]

end Caplets
