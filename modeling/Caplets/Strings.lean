import Caplets.Delimited
import Mathlib.Data.List.DropRight

/-!
# Strings of the C++ sources

A `std::string` is a list of characters, with NUL allowed anywhere. `strcmp` reads its
arguments up to the first NUL (`cStr`). Positions and sizes the sources keep in an `int`
are natural numbers : strings are taken to be shorter than `2^31` characters.

What C++ answers with an exception or leaves undefined is a `Fault` here, so that a
result `.ok` means that the source runs to its end without either.

`splitString` is the loop of `utilities.cpp`. It ends for every non-empty delimiter
(`splitLoop_eq`), and its pieces are those of `Delimited.Splits` (`splitString_eq_iff`).
-/

namespace Caplets

open Delimited

/-- `std::string` as the list of its characters. -/
abbrev Str := List Char

/-- What ends a call early. -/
inductive Fault
  /-- `substr` throws `std::out_of_range`. -/
  | outOfRange
  /-- A vector is indexed past its end. -/
  | badIndex
  /-- A `Frame` that is no `Request` is used as one. -/
  | badCast
  /-- A null pointer is dereferenced. -/
  | nullPointer
  deriving DecidableEq, Repr

instance decidableEqExcept {ε α : Type} [DecidableEq ε] [DecidableEq α] : DecidableEq (Except ε α)
  | .error e, .error e' => decidable_of_iff (e = e') (by simp)
  | .ok a, .ok a' => decidable_of_iff (a = a') (by simp)
  | .error _, .ok _ => .isFalse (by simp)
  | .ok _, .error _ => .isFalse (by simp)

@[simp] theorem bind_eq_ok {ε α β : Type} {x : Except ε α} {f : α → Except ε β} {b : β} :
    x >>= f = .ok b ↔ ∃ a, x = .ok a ∧ f a = .ok b := by
  cases x with
  | error e => simp [bind, Except.bind]
  | ok a => simp [bind, Except.bind]

@[simp] theorem map_eq_ok {ε α β : Type} {x : Except ε α} {f : α → β} {b : β} :
    f <$> x = .ok b ↔ ∃ a, x = .ok a ∧ f a = b := by
  cases x with
  | error e => simp [Functor.map, Except.map]
  | ok a => simp [Functor.map, Except.map]

theorem exceptBind_eq_ok {ε α β : Type} {x : Except ε α} {f : α → Except ε β} {b : β} :
    x.bind f = .ok b ↔ ∃ a, x = .ok a ∧ f a = .ok b :=
  bind_eq_ok

@[simp] theorem pure_eq_ok {ε α : Type} {a b : α} :
    (pure a : Except ε α) = .ok b ↔ a = b := by
  simp [pure, Except.pure]

/-- `v[i]` of a `std::vector`. -/
def vecAt {α : Type*} (v : List α) (i : ℕ) : Except Fault α :=
  match v[i]? with
  | some a => .ok a
  | none => .error .badIndex

@[simp] theorem vecAt_eq_ok {α : Type*} {v : List α} {i : ℕ} {a : α} :
    vecAt v i = .ok a ↔ v[i]? = some a := by
  unfold vecAt
  cases v[i]? <;> simp

/-- `s.substr(pos, len)`. -/
def substr (s : Str) (pos len : ℕ) : Except Fault Str :=
  if s.length < pos then .error .outOfRange else .ok ((s.drop pos).take len)

/-- `int index = s.find(pat)`, which is `-1` if `pat` does not occur. -/
def findIndex (s pat : Str) : ℤ :=
  match find? pat s with
  | some n => n
  | none => -1

@[simp] theorem findIndex_eq_neg_one {s pat : Str} : findIndex s pat = -1 ↔ ¬pat <:+: s := by
  rw [← find?_eq_none, findIndex]
  cases find? pat s with
  | none => simp
  | some n => simp only [reduceCtorEq]

@[simp] theorem findIndex_nonneg {s pat : Str} : 0 ≤ findIndex s pat ↔ pat <:+: s := by
  rw [← not_iff_not, ← find?_eq_none, findIndex]
  cases find? pat s with
  | none => simp
  | some n => simp

/-- The characters `c_str()` shows to C functions. -/
def cStr (s : Str) : Str :=
  s.takeWhile (· ≠ '\x00')

/-- `strcmp(a.c_str(), b.c_str()) == 0`. -/
def strcmpEq (a b : Str) : Bool :=
  cStr a == cStr b

/-- `strcmp` compares up to the first null character. -/
theorem strcmpEq_iff {a b : Str} : strcmpEq a b = true ↔ cStr a = cStr b := by
  simp [strcmpEq]

theorem cStr_eq_self {s : Str} (h : '\x00' ∉ s) : cStr s = s := by
  rw [cStr, List.takeWhile_eq_self_iff]
  intro c hc
  simpa using ne_of_mem_of_not_mem hc h

theorem nul_not_mem_cStr (s : Str) : '\x00' ∉ cStr s := fun h => by
  simpa using List.mem_takeWhile_imp h

theorem cStr_infix_self (s : Str) : cStr s <:+: s :=
  (List.takeWhile_prefix _).isInfix

/-! ## `splitString` -/

/-- The loop of `util::splitString` : `rest` is what lies between `prev_pos` and the end.
The first argument bounds the iterations. -/
def splitLoop (delimeter : Str) : ℕ → List Str → Str → Option (List Str)
  | 0, _, _ => none
  | fuel + 1, result, rest =>
    let nextPos := (find? delimeter rest).getD rest.length
    if nextPos ≠ rest.length then
      splitLoop delimeter fuel (result ++ [rest.take nextPos])
        (rest.drop (nextPos + delimeter.length))
    else
      some (if rest ≠ [] then result ++ [rest] else result)

/-- `util::splitString(result, content, delimeter)`. -/
def splitString (result : List Str) (content delimeter : Str) : List Str :=
  (splitLoop delimeter (content.length + 1) result content).getD result

/-- The loop ends before its fuel does, and appends the pieces to the result. -/
theorem splitLoop_eq {d rest : Str} {ps : List Str} (h : Splits d rest ps) (hd : d ≠ []) :
    ∀ {fuel : ℕ} (result : List Str), rest.length < fuel →
      splitLoop d fuel result rest = some (result ++ ps) := by
  induction h with
  | nil =>
    rintro (_ | fuel) result hfuel
    · simp at hfuel
    · simp [splitLoop, find?, hd]
  | last hne hfree =>
    rintro (_ | fuel) result hfuel
    · simp at hfuel
    · simp [splitLoop, find?_eq_none.2 hfree, hne]
  | @cut p l ps hfirst _ ih =>
    rintro (_ | fuel) result hfuel
    · simp at hfuel
    · have hpos := List.length_pos_iff.2 hd
      have hnext : p.length ≠ (p ++ d ++ l).length := by
        simp only [List.length_append]
        omega
      have hdrop : (p ++ d ++ l).drop (p.length + d.length) = l := by
        rw [List.drop_append_of_le_length (by simp), List.drop_of_length_le (by simp),
          List.nil_append]
      have hlen : l.length < fuel := by
        simp only [List.length_append] at hfuel
        omega
      simp only [splitLoop, find?_append hfirst, Option.getD_some, if_pos hnext, hdrop]
      rw [ih _ hlen]
      simp

/-- The loop ends and appends the pieces of the content to what the vector held. -/
theorem splitString_eq {d content : Str} {ps : List Str} (h : Splits d content ps) (hd : d ≠ [])
    (result : List Str) : splitString result content d = result ++ ps := by
  simp [splitString, splitLoop_eq h hd result (Nat.lt_succ_self _)]

theorem splits_splitString {d : Str} (hd : d ≠ []) (content : Str) :
    Splits d content (splitString [] content d) := by
  obtain ⟨ps, hps⟩ := exists_splits hd content
  simpa [splitString_eq hps hd] using hps

/-- `splitString` cuts at the leftmost occurrence, then the rest the same way. -/
theorem splitString_eq_iff {d : Str} (hd : d ≠ []) {content : Str} {ps : List Str} :
    splitString [] content d = ps ↔ Splits d content ps :=
  ⟨fun h => h ▸ splits_splitString hd content, fun h => splitString_eq h hd []⟩

/-! ## `trim` -/

/-- The characters `"\t\n\r\f\v"`. -/
def isTrimmed (c : Char) : Bool :=
  c == '\t' || c == '\n' || c == '\r' || c == '\x0c' || c == '\x0b'

/-- `util::rtrim` with its default characters. -/
def rtrim (s : Str) : Str := s.rdropWhile isTrimmed

/-- `util::ltrim` with its default characters. -/
def ltrim (s : Str) : Str := s.dropWhile isTrimmed

/-- `util::trim`. -/
def trim (s : Str) : Str := ltrim (rtrim s)

/-- Only the ends of a text are trimmed. -/
theorem trim_eq_self_of_ends {s : Str} (hhead : ∀ c ∈ s.head?, isTrimmed c = false)
    (hlast : ∀ c ∈ s.getLast?, isTrimmed c = false) : trim s = s := by
  have hr : rtrim s = s := by
    rw [rtrim, List.rdropWhile_eq_self_iff]
    intro hne
    simpa using hlast _ (List.getLast_mem_getLast? hne)
  rw [trim, hr, ltrim, List.dropWhile_eq_self_iff]
  intro hlen
  have hne : s ≠ [] := List.ne_nil_of_length_pos hlen
  simpa [List.head_eq_getElem] using hhead _ (List.head_mem_head? hne)

theorem trim_eq_self {s : Str} (h : ∀ c ∈ s, isTrimmed c = false) : trim s = s :=
  trim_eq_self_of_ends (fun c hc => h c (List.mem_of_head? hc))
    fun c hc => h c (List.mem_of_getLast? hc)

/-! ## Numbers -/

/-- `isspace` of the C locale. -/
def isSpace (c : Char) : Bool :=
  c == ' ' || isTrimmed c

/-- The value of a list of decimal digits. -/
def decimalValue (digits : Str) : ℕ :=
  digits.foldl (fun n c => 10 * n + (c.toNat - '0'.toNat)) 0

/-- `atoi(s.c_str())`, which is `(int) strtol(s, NULL, 10)` : `strtol` skips spaces, reads
a sign and the digits that follow, and stops at `LONG_MIN` and `LONG_MAX`. -/
def atoi (s : Str) : ℤ :=
  let s := s.dropWhile isSpace
  let negative := s.head? == some '-'
  let digits := (if s.head? = some '-' ∨ s.head? = some '+' then s.tail else s).takeWhile
    Char.isDigit
  let value : ℤ :=
    if negative then max (-0x8000000000000000) (-decimalValue digits)
    else min 0x7FFFFFFFFFFFFFFF (decimalValue digits)
  (BitVec.ofInt 32 value).toInt

/-- `std::bitset<3>` made from an `int`. -/
def bitsOfInt (n : ℤ) : BitVec 3 := BitVec.ofInt 3 n

/-- `std::bitset<3>::to_string`, highest bit first. -/
def bitsToString (b : BitVec 3) : Str :=
  [2, 1, 0].map fun i => if b.getLsbD i then '1' else '0'

theorem bitsToString_injective : ∀ b b' : BitVec 3, bitsToString b = bitsToString b' → b = b' := by
  decide

theorem bitsToString_ne_nil (b : BitVec 3) : bitsToString b ≠ [] := by
  simp [bitsToString]

theorem not_mem_bitsToString {c : Char} (h0 : c ≠ '0') (h1 : c ≠ '1') (b : BitVec 3) :
    c ∉ bitsToString b := by
  simp only [bitsToString, List.mem_map, not_exists, not_and]
  rintro i -
  split_ifs
  · exact h1.symm
  · exact h0.symm

/-- Three printed bits are read back as the same three bits, although they are read as a
decimal number. -/
@[simp] theorem bitsOfInt_atoi_bitsToString : ∀ b : BitVec 3,
    bitsOfInt (atoi (bitsToString b)) = b := by
  decide

end Caplets
