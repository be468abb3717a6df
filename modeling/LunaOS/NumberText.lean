import LunaOS.BoundedLoop
import LunaOS.ByteMemory
import Mathlib.Data.Nat.Digits.Lemmas

/-! Numbers as text (`utils/strings.cpp`). The digits are written into a static buffer from
the last one on, after they have been counted. `toHex` counts decimal digits and writes
as many hexadecimal ones. -/
namespace LunaOS.NumberText
open Function ByteMemory BoundedLoop BitVec

/-- `_toStringOut`, or a part of it, by index -/
abbrev Buffer := Int → Byte

/-- The loop that counts the digits. -/
def lengthTurn : BitVec 64 × Nat → Turn (BitVec 64 × Nat) Nat
  | (tempNum, length) => if 0 < tempNum then .again (tempNum / 10, length + 1) else .leave length

def digitTurn (length : Nat) : BitVec 64 × Nat × Buffer → Turn (BitVec 64 × Nat × Buffer) Buffer
  | (num, idx, array) =>
    if 0 < num then
      .again (num / 10, idx + 1, Function.update array (length - idx : Int) (0x30 + (num % 10).setWidth 8))
    else .leave array

/-- `_toString` for unsigned numbers -/
def toString (num : BitVec 64) (array : Buffer) : Option Buffer :=
  if num = 0 then some (Function.update (Function.update array 0 0x30) 1 0)
  else
    (iterate lengthTurn maxTurns (num, 0)).bind fun length =>
      (iterate (digitTurn length) maxTurns (num, 1, array)).map fun array => Function.update array length 0

/-- `hex_chr` -/
def hexChr (dig : Byte) : Byte := if dig < 10 then 0x30 + dig else 0x41 + (dig - 10)

/-- The loop that writes hexadecimal digits, with its index plus one. -/
def hexLoop : Nat → BitVec 64 → Buffer → Buffer
  | 0, _, array => array
  | i + 1, num, array => hexLoop i (num / 16) (Function.update array i (hexChr ((num % 16).setWidth 8)))

/-- `toHex` with `ignoreSize` -/
def toHex (num : BitVec 64) (array : Buffer) : Option Buffer :=
  (iterate lengthTurn maxTurns (num, 0)).map fun length => Function.update (hexLoop length num array) length 0

/-- `_toHex`, for a number of `n` bytes -/
def toHexSized (num : BitVec 64) (n : Nat) (array : Buffer) : Buffer :=
  Function.update (hexLoop (n * 2) num array) (n * 2 : Nat) 0

/-! ## Texts -/

/-- The letters lie in the memory, up to a terminator. -/
structure Spells (text : Nat → Byte) (letters : List Byte) : Prop where
  held : ∀ (i : Nat) letter, letters[i]? = some letter → text i = letter
  ended : text letters.length = 0
  solid : 0 ∉ letters

def decimalDigit (digit : Nat) : Byte := 0x30 + BitVec.ofNat 8 digit

def hexDigit (digit : Nat) : Byte := hexChr (BitVec.ofNat 8 digit)

def decimalText (n : Nat) : List Byte := if n = 0 then [0x30] else (Nat.digits 10 n).reverse.map decimalDigit

/-- The decimal of a signed number. -/
def signedText (n : Int) : List Byte := if n < 0 then 0x2D :: decimalText n.natAbs else decimalText n.toNat

def hexText (n : Nat) : List Byte := if n = 0 then [0x30] else (Nat.digits 16 n).reverse.map hexDigit

/-- As many digits as there are places, with zeros in front. -/
def paddedText (places n : Nat) : List Byte := (Nat.digitsAppend 16 places n).reverse.map hexDigit

/-! ## Digits from the last one on -/

/-- The last digits of a number, the first of them first. -/
def lastDigits (base : Nat) : Nat → Nat → List Nat
  | 0, _ => []
  | places + 1, n => lastDigits base places (n / base) ++ [n % base]

@[simp] theorem lastDigits_length (base places n : Nat) : (lastDigits base places n).length = places := by
  induction places generalizing n with
  | zero => rfl
  | succ places ih => rw [lastDigits, List.length_append, ih, List.length_singleton]

theorem lastDigits_lt (pos : 0 < base) : ∀ digit ∈ lastDigits base places n, digit < base := by
  induction places generalizing n with
  | zero => exact fun digit member => absurd member List.not_mem_nil
  | succ places ih =>
    intro digit member
    rw [lastDigits, List.mem_append, List.mem_singleton] at member
    rcases member with member | rfl
    · exact ih digit member
    · exact Nat.mod_lt n pos

/-- A number that has room is padded with zeros. -/
theorem lastDigits_eq (large : 1 < base) (room : (Nat.digits base n).length ≤ places) :
    lastDigits base places n = (Nat.digitsAppend base places n).reverse := by
  induction places generalizing n with
  | zero =>
    rw [Nat.digitsAppend, List.length_eq_zero_iff.mp (Nat.le_zero.mp room)]
    rfl
  | succ places ih =>
    by_cases zero : n = 0
    · subst zero
      have rest := ih (n := 0) (by simp)
      rw [lastDigits, Nat.zero_div, Nat.zero_mod, rest]
      simp only [Nat.digitsAppend, Nat.digits_zero, List.nil_append, List.length_nil, Nat.sub_zero,
        List.replicate_succ, List.reverse_cons]
    · have digits := Nat.digits_def' large (Nat.pos_of_ne_zero zero)
      rw [digits, List.length_cons] at room
      rw [lastDigits, ih (Nat.le_of_succ_le_succ room), Nat.digitsAppend, Nat.digitsAppend, digits, List.length_cons,
        Nat.add_sub_add_right]
      simp

/-! ## The loops -/

/-- The letters at the start of a buffer. -/
def overlay (letters : List Byte) (array : Buffer) : Buffer :=
  fun i => if 0 ≤ i then (letters[i.toNat]?).getD (array i) else array i

theorem overlay_nil (array : Buffer) : overlay [] array = array := by
  funext i
  simp [overlay]

theorem overlay_concat (letters : List Byte) (letter : Byte) (array : Buffer) :
    overlay (letters ++ [letter]) array = overlay letters (update array letters.length letter) := by
  funext i
  by_cases negative : 0 ≤ i
  · obtain ⟨i, rfl⟩ := Int.eq_ofNat_of_zero_le negative
    rcases Nat.lt_trichotomy i letters.length with inside | rfl | outside
    · simp [overlay, List.getElem?_append_left inside, List.getElem?_eq_getElem inside]
    · simp [overlay]
    · have other : (i : Int) ≠ letters.length := by omega
      simp [overlay, update_of_ne other, List.getElem?_eq_none (Nat.le_of_lt outside),
        List.getElem?_eq_none (show (letters ++ [letter]).length ≤ i by simp; omega)]
  · have other : i ≠ letters.length := by omega
    simp [overlay, negative, update_of_ne other]

/-- A buffer that ends behind the letters spells them. -/
theorem overlay_spells (solid : 0 ∉ letters) (array : Buffer) :
    Spells (fun i => update (overlay letters array) letters.length 0 i) letters where
  held i letter found := by
    have inside : i < letters.length := (List.getElem?_eq_some_iff.mp found).1
    have other : (i : Int) ≠ letters.length := by omega
    simp [update_of_ne other, overlay, found]
  ended := update_self _ _ _
  solid := solid

theorem digits_pos {num : BitVec 64} (pos : 0 < num) :
    Nat.digits 10 num.toNat = num.toNat % 10 :: Nat.digits 10 (num / 10).toNat := by
  rw [toNat_udiv]
  exact Nat.digits_def' (by decide) (lt_def.mp pos)

theorem digits_zero {num : BitVec 64} (zero : ¬ 0 < num) : Nat.digits 10 num.toNat = [] := by
  have nothing : num.toNat = 0 := by
    exact Nat.eq_zero_of_not_pos zero
  rw [nothing, Nat.digits_zero]

theorem length_counted (enough : (Nat.digits 10 num.toNat).length < turns) (length : Nat) :
    iterate lengthTurn turns (num, length) = some (length + (Nat.digits 10 num.toNat).length) := by
  induction turns generalizing num length with
  | zero => cases enough
  | succ turns ih =>
    by_cases pos : 0 < num
    · rw [digits_pos pos, List.length_cons] at enough ⊢
      have asked : lengthTurn (num, length) = .again (num / 10, length + 1) := if_pos pos
      rw [iterate_again asked, ih (Nat.lt_of_succ_lt_succ enough), Nat.add_assoc, Nat.add_comm 1]
    · rw [digits_zero pos]
      exact iterate_leave (if_neg pos) (Nat.succ_pos turns)

theorem decimal_short (num : BitVec 64) : (Nat.digits 10 num.toNat).length < maxTurns := by
  have few : (Nat.digits 10 num.toNat).length ≤ 20 := by
    rw [Nat.digits_length_le_iff (by decide)]
    omega
  unfold maxTurns
  omega

theorem decimalDigit_eq (num : BitVec 64) : 0x30 + (num % 10).setWidth 8 = decimalDigit (num.toNat % 10) := rfl

theorem hexDigit_eq (num : BitVec 64) : hexChr ((num % 16).setWidth 8) = hexDigit (num.toNat % 16) := rfl

/-- The digits of a number fill the places that are left. -/
theorem digits_written {length idx : Nat} (left : idx + (Nat.digits 10 num.toNat).length = length + 1)
    (enough : (Nat.digits 10 num.toNat).length < turns) (array : Buffer) :
    iterate (digitTurn length) turns (num, idx, array) =
      some (overlay ((lastDigits 10 (Nat.digits 10 num.toNat).length num.toNat).map decimalDigit) array) := by
  induction turns generalizing num idx array with
  | zero => cases enough
  | succ turns ih =>
    by_cases pos : 0 < num
    · rw [digits_pos pos, List.length_cons] at enough left ⊢
      have place : (length - idx : Int) = (Nat.digits 10 (num / 10).toNat).length := by omega
      have asked : digitTurn length (num, idx, array) = .again (num / 10, idx + 1,
          update array (length - idx : Int) (0x30 + (num % 10).setWidth 8)) := if_pos pos
      rw [iterate_again asked, ih (by omega) (Nat.lt_of_succ_lt_succ enough), lastDigits, List.map_append,
        List.map_singleton, overlay_concat, List.length_map, lastDigits_length, place, decimalDigit_eq]
      rfl
    · rw [digits_zero pos]
      have done : digitTurn length (num, idx, array) = .leave array := if_neg pos
      rw [iterate_leave done (Nat.succ_pos turns), List.length_nil, lastDigits, List.map_nil, overlay_nil]

theorem hexLoop_eq (places : Nat) (num : BitVec 64) (array : Buffer) :
    hexLoop places num array = overlay ((lastDigits 16 places num.toNat).map hexDigit) array := by
  induction places generalizing num array with
  | zero => rw [hexLoop, lastDigits, List.map_nil, overlay_nil]
  | succ places ih =>
    rw [hexLoop, ih, lastDigits, List.map_append, List.map_singleton, overlay_concat, List.length_map,
      lastDigits_length, hexDigit_eq]
    rfl

/-! ## What is written -/

theorem lastDigits_self (large : 1 < base) (n : Nat) :
    lastDigits base (Nat.digits base n).length n = (Nat.digits base n).reverse := by
  rw [lastDigits_eq large (Nat.le_refl _), Nat.digitsAppend, Nat.sub_self, List.replicate_zero, List.append_nil]

theorem decimalDigit_ne : ∀ digit < 10, decimalDigit digit ≠ 0 ∧ decimalDigit digit ≠ 0x2D := by decide

theorem hexDigit_ne : ∀ digit < 16, hexDigit digit ≠ 0 := by decide

theorem decimalText_digits : ∀ letter ∈ decimalText n, letter ≠ 0 ∧ letter ≠ 0x2D := by
  intro letter member
  rw [decimalText] at member
  split at member
  · rw [List.mem_singleton.mp member]
    decide
  · obtain ⟨digit, held, rfl⟩ := List.mem_map.mp member
    exact decimalDigit_ne digit (Nat.digits_lt_base (by decide) (List.mem_reverse.mp held))

theorem hexDigits_solid (places n : Nat) : 0 ∉ (lastDigits 16 places n).map hexDigit := by
  intro member
  obtain ⟨digit, held, zero⟩ := List.mem_map.mp member
  exact hexDigit_ne digit (lastDigits_lt (by decide) digit held) zero

theorem decimalText_solid (n : Nat) : 0 ∉ decimalText n := fun member => (decimalText_digits 0 member).1 rfl

/-- The text lies at the start of the buffer with a terminator behind it. -/
theorem toString_eq (num : BitVec 64) (array : Buffer) : toString num array =
    some (update (overlay (decimalText num.toNat) array) (decimalText num.toNat).length 0) := by
  by_cases zero : num = 0
  · subst zero
    rw [toString, if_pos rfl, show decimalText (0 : BitVec 64).toNat = [] ++ [0x30] from rfl, overlay_concat, overlay_nil]
    rfl
  · have some : num.toNat ≠ 0 := fun nothing => zero (eq_of_toNat_eq nothing)
    have text : decimalText num.toNat =
        (lastDigits 10 (Nat.digits 10 num.toNat).length num.toNat).map decimalDigit := by
      rw [decimalText, if_neg some, lastDigits_self (by decide)]
    have short := decimal_short num
    rw [toString, if_neg zero, length_counted short, Option.bind_some, Nat.zero_add,
      digits_written (Nat.add_comm _ _) short, Option.map_some, ← text]
    rw [text, List.length_map, lastDigits_length]

theorem toString_spells (num : BitVec 64) (array : Buffer) :
    ∃ out, toString num array = some out ∧ Spells (fun i => out i) (decimalText num.toNat) :=
  ⟨_, toString_eq num array, overlay_spells (decimalText_solid _) array⟩

/-- As many hexadecimal digits as there are decimal ones. -/
theorem toHex_spells (num : BitVec 64) (array : Buffer) : ∃ out, toHex num array = some out ∧
      Spells (fun i => out i) ((lastDigits 16 (Nat.digits 10 num.toNat).length num.toNat).map hexDigit) := by
  have spelled := overlay_spells (hexDigits_solid (Nat.digits 10 num.toNat).length num.toNat) array
  rw [List.length_map, lastDigits_length] at spelled
  refine ⟨_, ?_, spelled⟩
  rw [toHex, length_counted (decimal_short num), Option.map_some, Nat.zero_add, hexLoop_eq]

theorem toHexSized_spells (num : BitVec 64) (n : Nat) (room : num.toNat < 16 ^ (n * 2)) (array : Buffer) :
    Spells (fun i => toHexSized num n array i) (paddedText (n * 2) num.toNat) := by
  have spelled := overlay_spells (hexDigits_solid (n * 2) num.toNat) array
  rw [List.length_map, lastDigits_length] at spelled
  rw [paddedText, ← lastDigits_eq (by decide) ((Nat.digits_length_le_iff (by decide) _).mpr room)]
  simpa only [toHexSized, hexLoop_eq] using spelled

/-- The digits are right exactly if there are as many hexadecimal as decimal ones. -/
theorem hex_right_iff (n : Nat) : (lastDigits 16 (Nat.digits 10 n).length n).map hexDigit = hexText n ↔
    n ≠ 0 ∧ (Nat.digits 10 n).length = (Nat.digits 16 n).length := by
  by_cases zero : n = 0
  · subst zero
    simp [hexText, lastDigits]
  · rw [hexText, if_neg zero]
    constructor
    · intro same
      have lengths := congrArg List.length same
      rw [List.length_map, lastDigits_length, List.length_map, List.length_reverse] at lengths
      exact ⟨zero, lengths⟩
    · rintro ⟨_, lengths⟩
      rw [lengths, lastDigits_self (by decide)]

/-- A negative number is taken for a large one. -/
theorem signed_right_iff (num : BitVec 32) :
    decimalText (num.signExtend 64).toNat = signedText num.toInt ↔ 0 ≤ num.toInt := by
  by_cases negative : num.toInt < 0
  · rw [signedText, if_pos negative]
    refine iff_of_false (fun same => ?_) (Int.not_le.mpr negative)
    have sign : 0x2D ∈ decimalText (num.signExtend 64).toNat := by
      rw [same]
      exact List.mem_cons_self
    exact (decimalText_digits _ sign).2 rfl
  · have pos : num.msb = false := by
      rw [msb_eq_toInt]
      exact decide_eq_false negative
    rw [signedText, if_neg negative, signExtend_eq_setWidth_of_msb_false pos, toNat_setWidth,
      toInt_eq_toNat_of_msb pos, Int.toNat_natCast, Nat.mod_eq_of_lt (by have := num.isLt; omega)]
    exact iff_of_true rfl (Int.natCast_nonneg _)

end LunaOS.NumberText
