import LunaOS.NumberText

/-! Decimals of the numbers of every width (`toString` in `utils/strings.cpp`) and how
they are read back. A negative number is written as a sign and its magnitude behind it. -/
namespace LunaOS.DecimalRendering
open Function ByteMemory NumberText BitVec Option

/-- `MAX_STRING_LENGTH` -/
def maxStringLength : Nat := 128

/-- `_toString` for signed numbers. The digits go to `_toStringOut + 1`; the case of zero,
which writes to `_toStringOut` itself, is not reached from there. -/
def toStringSigned (num : BitVec 64) (out : Buffer) : Option Buffer :=
  if num.slt 0 then
    let out := Function.update out 0 0x2D
    (toString (num * -1) fun i => out (i + 1)).map fun array i => array (i - 1)
  else toString num out

/-- The overloads of `toString` for unsigned numbers. -/
def toStringUnsignedOf (num : BitVec w) (out : Buffer) : Option Buffer := toString (num.setWidth 64) out

/-- The overloads of `toString` for signed numbers. -/
def toStringSignedOf (num : BitVec w) (out : Buffer) : Option Buffer := toStringSigned (num.signExtend 64) out

def toStringUint8 (num : BitVec 8) : Buffer → Option Buffer := toStringUnsignedOf num
def toStringUint16 (num : BitVec 16) : Buffer → Option Buffer := toStringUnsignedOf num
def toStringUint32 (num : BitVec 32) : Buffer → Option Buffer := toStringUnsignedOf num
def toStringUint64 (num : BitVec 64) : Buffer → Option Buffer := toString num
def toStringInt8 (num : BitVec 8) : Buffer → Option Buffer := toStringSignedOf num
def toStringInt16 (num : BitVec 16) : Buffer → Option Buffer := toStringSignedOf num
def toStringInt32 (num : BitVec 32) : Buffer → Option Buffer := toStringSignedOf num
def toStringInt64 (num : BitVec 64) : Buffer → Option Buffer := toStringSigned num

/-- A number of one of the types that have an overload. -/
inductive Number where
  | uint8 (num : BitVec 8)
  | uint16 (num : BitVec 16)
  | uint32 (num : BitVec 32)
  | uint64 (num : BitVec 64)
  | int8 (num : BitVec 8)
  | int16 (num : BitVec 16)
  | int32 (num : BitVec 32)
  | int64 (num : BitVec 64)

def Number.value : Number → Int
  | uint8 num | uint16 num | uint32 num | uint64 num => num.toNat
  | int8 num | int16 num | int32 num | int64 num => num.toInt

/-- The call of the overload; all of them write to `_toStringOut`. -/
def Number.render : Number → Buffer → Option Buffer
  | uint8 num => toStringUint8 num
  | uint16 num => toStringUint16 num
  | uint32 num => toStringUint32 num
  | uint64 num => toStringUint64 num
  | int8 num => toStringInt8 num
  | int16 num => toStringInt16 num
  | int32 num => toStringInt32 num
  | int64 num => toStringInt64 num

/-! ## Reading a decimal -/

def digitValue (letter : Byte) : Option Nat :=
  if 0x30 ≤ letter ∧ letter ≤ 0x39 then some (letter.toNat - 0x30) else none

def readDigit (value : Nat) (letter : Byte) : Option Nat := (digitValue letter).map (10 * value + ·)

/-- One digit or more. -/
def parseNat (letters : List Byte) : Option Nat := if letters = [] then none else letters.foldlM readDigit 0

def parseInt (letters : List Byte) : Option Int :=
  if letters.head? = some 0x2D then (parseNat letters.tail).map fun magnitude : Nat => -(magnitude : Int)
  else (parseNat letters).map fun magnitude : Nat => (magnitude : Int)

/-- A decimal as a reader expects it. -/
structure Canonical (letters : List Byte) (value : Int) : Prop where
  sign : 0x2D ∈ letters ↔ value < 0
  leading : ∀ digits, letters = digits ∨ letters = 0x2D :: digits → digits.head? = some 0x30 → letters = [0x30]
  value : parseInt letters = some value

/-- The buffer holds the decimal of a number, and nothing but its own bytes was written. -/
structure Renders (before after : Buffer) (value : Int) : Prop where
  text : ∃ letters, Spells (fun i => after i) letters ∧ letters.length < maxStringLength ∧ Canonical letters value
  inside : ∀ i, i < 0 ∨ maxStringLength ≤ i → after i = before i

/-! ## What is read back -/

theorem readDigit_digit (value : Nat) (small : digit < 10) :
    readDigit value (decimalDigit digit) = some (10 * value + digit) := by
  have read : ∀ digit < 10, digitValue (decimalDigit digit) = some digit := by decide
  rw [readDigit, read digit small, map_some]

/-- The digits of a number, the last one first, are read in the other order. -/
theorem readDigits_eq (small : ∀ digit ∈ digits, digit < 10) :
    (digits.reverse.map decimalDigit).foldlM readDigit 0 = some (Nat.ofDigits 10 digits) := by
  induction digits with
  | nil => rfl
  | cons digit digits ih =>
    have rest := ih fun other member => small other (List.mem_cons_of_mem _ member)
    have last := readDigit_digit (Nat.ofDigits 10 digits) (small digit List.mem_cons_self)
    rw [List.reverse_cons, List.map_append, List.foldlM_append, rest, Nat.ofDigits_cons, Nat.add_comm]
    simp only [List.map_cons, List.map_nil, bind_eq_bind, bind_some, List.foldlM_cons, last, List.foldlM_nil]
    rfl

theorem decimalText_nonempty (n : Nat) : decimalText n ≠ [] := by
  unfold decimalText
  split
  · exact List.cons_ne_nil _ _
  · rename_i pos
    simpa [Nat.digits_eq_nil_iff_eq_zero] using pos

theorem parseNat_decimalText (n : Nat) : parseNat (decimalText n) = some n := by
  rw [parseNat, if_neg (decimalText_nonempty n)]
  by_cases zero : n = 0
  · subst zero
    rfl
  · rw [decimalText, if_neg zero, readDigits_eq fun digit member => Nat.digits_lt_base (by decide) member,
      Nat.ofDigits_digits]

/-- A decimal begins with a zero only if that is all of it. -/
theorem decimalText_leading (zero : (decimalText n).head? = some 0x30) : decimalText n = [0x30] := by
  unfold decimalText at zero ⊢
  split
  · rfl
  · rename_i pos
    rw [if_neg pos, List.head?_map, List.head?_reverse, map_eq_some_iff] at zero
    obtain ⟨digit, last, shown⟩ := zero
    have some : Nat.digits 10 n ≠ [] := Nat.digits_ne_nil_iff_ne_zero.mpr pos
    rw [List.getLast?_eq_getLast_of_ne_nil some] at last
    have nonzero := Nat.getLast_digit_ne_zero 10 pos
    have small := Nat.digits_lt_base (by decide) (List.mem_of_getLast? (List.getLast?_eq_getLast_of_ne_nil some))
    rw [Option.some.inj last] at nonzero small
    have only : ∀ digit < 10, decimalDigit digit = 0x30 → digit = 0 := by decide
    exact absurd (only digit small shown) nonzero

theorem decimalText_unsigned (n : Nat) : (decimalText n).head? ≠ some 0x2D := fun first =>
  (decimalText_digits 0x2D (List.mem_of_mem_head? first)).2 rfl

theorem signedText_canonical (n : Int) : Canonical (signedText n) n := by
  unfold signedText
  by_cases negative : n < 0
  · rw [if_pos negative]
    refine ⟨iff_of_true List.mem_cons_self negative, ?_, ?_⟩
    · rintro digits (rfl | same) zero
      · cases zero
      · cases same
        have small := decimalText_leading zero
        have parsed := parseNat_decimalText n.natAbs
        rw [small] at parsed
        have nothing : 0 = n.natAbs := Option.some.inj parsed
        omega
    · rw [parseInt, if_pos List.head?_cons, List.tail_cons, parseNat_decimalText, map_some]
      exact congrArg some (by omega)
  · rw [if_neg negative]
    refine ⟨iff_of_false (fun member => (decimalText_digits _ member).2 rfl) negative, ?_, ?_⟩
    · rintro digits (rfl | same) zero
      · exact decimalText_leading zero
      · exact absurd (by rw [same]; rfl) (decimalText_unsigned n.toNat)
    · rw [parseInt, if_neg (decimalText_unsigned n.toNat), parseNat_decimalText, map_some]
      exact congrArg some (by omega)

/-! ## What is written -/

/-- A letter in front of a text that is written one place further on. -/
theorem overlay_behind (letter : Byte) (letters : List Byte) (out : Buffer) (i : Int) :
    overlay letters (fun i => update out 0 letter (i + 1)) (i - 1) = overlay (letter :: letters) out i := by
  rcases Int.lt_trichotomy i 0 with below | rfl | above
  · have other : i - 1 + 1 ≠ 0 := by omega
    rw [overlay, overlay, if_neg (by omega), if_neg (by omega), update_of_ne other, Int.sub_add_cancel]
  · simp [overlay]
  · obtain ⟨k, rfl⟩ : ∃ k : Nat, i = k + 1 := ⟨(i - 1).toNat, by omega⟩
    have other : (k : Int) + 1 ≠ 0 := by omega
    have place : ((k : Int) + 1).toNat = k + 1 := by omega
    rw [Int.add_sub_cancel, overlay, overlay, if_pos (by omega), if_pos (by omega), update_of_ne other, place,
      List.getElem?_cons_succ, Int.toNat_natCast]

theorem negated_toNat {num : BitVec 64} (negative : num.toInt < 0) : (num * -1).toNat = num.toInt.natAbs := by
  have flip : num * -1 = -num := (BitVec.mul_neg _ _).trans (congrArg Neg.neg (BitVec.mul_one num))
  rw [flip, toNat_neg]
  rw [toInt_eq_toNat_cond] at negative ⊢
  omega

theorem toStringSigned_eq (num : BitVec 64) (out : Buffer) : toStringSigned num out =
    some (update (overlay (signedText num.toInt) out) (signedText num.toInt).length 0) := by
  have test : num.slt 0 = true ↔ num.toInt < 0 := by
    rw [slt_iff_toInt_lt]
    exact Iff.rfl
  unfold toStringSigned signedText
  by_cases negative : num.toInt < 0
  · rw [if_pos (test.mpr negative), if_pos negative]
    simp only
    rw [toString_eq, map_some, negated_toNat negative]
    refine congrArg some (funext fun i => ?_)
    by_cases last : i = ((0x2D :: decimalText num.toInt.natAbs).length : Int)
    · rw [last, update_self, List.length_cons, Nat.cast_succ, Int.add_sub_cancel, update_self]
    · have before : i - 1 ≠ ((decimalText num.toInt.natAbs).length : Int) := by
        rw [List.length_cons] at last
        omega
      rw [update_of_ne last, update_of_ne before, overlay_behind]
  · rw [if_neg (mt test.mp negative), if_neg negative, toString_eq]
    have same : num.toNat = num.toInt.toNat := by
      rw [toInt_eq_toNat_cond] at negative ⊢
      omega
    rw [same]

theorem decimalText_short (small : n < 2 ^ 64) : (decimalText n).length ≤ 20 := by
  unfold decimalText
  split
  · decide
  · rw [List.length_map, List.length_reverse, Nat.digits_length_le_iff (by decide)]
    omega

theorem signedText_short (small : n.natAbs < 2 ^ 64) : (signedText n).length ≤ 21 := by
  unfold signedText
  split
  · have short := decimalText_short small
    rw [List.length_cons]
    omega
  · exact Nat.le_trans (decimalText_short (by omega)) (by decide)

theorem signedText_solid (n : Int) : 0 ∉ signedText n := by
  unfold signedText
  split
  · exact fun member => decimalText_solid _ ((List.mem_cons.mp member).resolve_left (by decide))
  · exact decimalText_solid _

/-- A decimal and its terminator at the start of the buffer. -/
theorem renders_text (small : value.natAbs < 2 ^ 64) (before : Buffer) :
    Renders before (update (overlay (signedText value) before) (signedText value).length 0) value where
  text := by
    have short := signedText_short small
    exact ⟨_, overlay_spells (signedText_solid value) before, Nat.lt_of_le_of_lt short (by decide),
      signedText_canonical value⟩
  inside i outside := by
    have short := signedText_short small
    have far : i < 0 ∨ ((signedText value).length : Int) < i := by
      unfold maxStringLength at outside
      omega
    rw [update_of_ne (by omega), overlay]
    split
    · rw [List.getElem?_eq_none (by omega), getD_none]
    · rfl

theorem toString_renders (num : BitVec 64) (out : Buffer) :
    ∃ after, toString num out = some after ∧ Renders out after num.toNat := by
  refine ⟨_, toString_eq num out, ?_⟩
  exact renders_text (show (num.toNat : Int).natAbs < 2 ^ 64 from num.isLt) out

theorem toStringSigned_renders (num : BitVec 64) (out : Buffer) :
    ∃ after, toStringSigned num out = some after ∧ Renders out after num.toInt := by
  refine ⟨_, toStringSigned_eq num out, renders_text ?_ out⟩
  have low := le_toInt num
  have high := toInt_lt (x := num)
  omega

/-- **Decimals read back.** Every number of 64 bits, unsigned or signed, is left in the buffer
as the one decimal that reads as it. -/
theorem decimals_invertible (num : BitVec 64) (out : Buffer) :
    (∃ after, toString num out = some after ∧ Renders out after num.toNat) ∧
      ∃ after, toStringSigned num out = some after ∧ Renders out after num.toInt :=
  ⟨toString_renders num out, toStringSigned_renders num out⟩

section Overloads
variable (narrow : w ≤ 64) (num : BitVec w) (out : Buffer)
include narrow

theorem toStringUnsignedOf_renders :
    ∃ after, toStringUnsignedOf num out = some after ∧ Renders out after num.toNat := by
  have unsigned := toString_renders (num.setWidth 64) out
  rwa [toNat_setWidth_of_le narrow] at unsigned

theorem toStringSignedOf_renders : ∃ after, toStringSignedOf num out = some after ∧ Renders out after num.toInt := by
  have signed := toStringSigned_renders (num.signExtend 64) out
  rwa [toInt_signExtend_of_le narrow] at signed

end Overloads

theorem Number.renders (number : Number) (out : Buffer) :
    ∃ after, number.render out = some after ∧ Renders out after number.value := by
  cases number with
  | uint8 num | uint16 num | uint32 num => exact toStringUnsignedOf_renders (by decide) num out
  | uint64 num => exact toString_renders num out
  | int8 num | int16 num | int32 num => exact toStringSignedOf_renders (by decide) num out
  | int64 num => exact toStringSigned_renders num out

/-- **The shared buffer.** After any calls of the overloads it holds the decimal of the last
number, whatever the calls before left in it, and nothing outside it was written. -/
theorem overloads_render (calls : List Number) (last : Number) (out : Buffer) :
    ∃ after, (calls ++ [last]).foldlM (fun out number => number.render out) out = some after ∧
      Renders out after last.value := by
  induction calls generalizing out with
  | nil =>
    obtain ⟨after, ran, renders⟩ := last.renders out
    exact ⟨after, by rw [List.nil_append, List.foldlM_cons, ran]; rfl, renders⟩
  | cons number rest ih =>
    obtain ⟨between, ran, first⟩ := number.renders out
    obtain ⟨after, others, renders⟩ := ih between
    refine ⟨after, ?_, renders.text, fun i outside => (renders.inside i outside).trans (first.inside i outside)⟩
    rw [List.cons_append, List.foldlM_cons, ran]
    exact others

end LunaOS.DecimalRendering
