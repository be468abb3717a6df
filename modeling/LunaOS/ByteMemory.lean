import Mathlib.Algebra.Group.Nat.Defs
import Mathlib.Logic.Function.Basic

/-! A byte-addressed 64-bit memory with little-endian words. Every store is an
instance of one block write, so a client proves that two blocks are apart once
and every load over the other block follows. Addresses wrap as the machine's
do; the `le` forms recover apartness from ordinary inequalities. -/
namespace LunaOS.ByteMemory

open BitVec

abbrev Addr := BitVec 64
abbrev Byte := BitVec 8
abbrev Memory := Addr → Byte

/-- Replace the `count` bytes from `base` on; offsets wrap with the address. -/
def write (mem : Memory) (base : Addr) (count : Nat) (bytes : Nat → Byte) : Memory :=
  fun address => if (address - base).toNat < count then bytes (address - base).toNat
    else mem address

def fill (mem : Memory) (base : Addr) (byte : Byte) (count : Nat) : Memory :=
  write mem base count (fun _ => byte)

def load64 (mem : Memory) (base : Addr) : BitVec 64 :=
  mem (base + 7) ++ mem (base + 6) ++ mem (base + 5) ++ mem (base + 4) ++
    mem (base + 3) ++ mem (base + 2) ++ mem (base + 1) ++ mem base

def store64 (mem : Memory) (base : Addr) (word : BitVec 64) : Memory :=
  write mem base 8 (fun index => word.extractLsb' (8 * index) 8)

def store8 (mem : Memory) (base : Addr) (byte : Byte) : Memory :=
  write mem base 1 (fun _ => byte)

/-- No byte of the `width` bytes at `base` lies in the `count` bytes at `other`. -/
def Apart (base : Addr) (width : Nat) (other : Addr) (count : Nat) : Prop :=
  ∀ offset < width, count ≤ (base + BitVec.ofNat 64 offset - other).toNat

theorem apart_of_le_left {base other : Addr} (below : base.toNat + width ≤ other.toNat)
    (room : other.toNat + count ≤ 2 ^ 64) : Apart base width other count := by
  intro offset inside
  have small : offset < 2 ^ 64 := by omega
  simp only [toNat_sub, toNat_add, toNat_ofNat, Nat.mod_eq_of_lt small]
  omega

theorem apart_of_le_right {base other : Addr} (above : other.toNat + count ≤ base.toNat)
    (room : base.toNat + width ≤ 2 ^ 64) : Apart base width other count := by
  intro offset inside
  have small : offset < 2 ^ 64 := by omega
  simp only [toNat_sub, toNat_add, toNat_ofNat, Nat.mod_eq_of_lt small]
  omega

theorem Apart.separate {base other : Addr} (apart : Apart base width other count) (some : 0 < width)
    (some' : 0 < count) : base.toNat + width ≤ other.toNat ∨ other.toNat + count ≤ base.toNat := by
  by_contra meet
  rcases Nat.le_total base.toNat other.toNat with before | after
  · have distance := apart (other.toNat - base.toNat) (by omega)
    have small : other.toNat - base.toNat < 2 ^ 64 := by omega
    simp only [toNat_sub, toNat_add, toNat_ofNat, Nat.mod_eq_of_lt small] at distance
    omega
  · have distance := apart 0 some
    simp only [BitVec.add_zero, toNat_sub] at distance
    omega

/-- Apartness passes to any block inside the first one. -/
theorem Apart.sub_block {base other : Addr} (apart : Apart base width other count)
    (shift : Nat) {length : Nat} (fits : shift + length ≤ width) :
    Apart (base + BitVec.ofNat 64 shift) length other count := by
  intro offset inside
  have far := apart (shift + offset) (by omega)
  rwa [ofNat_add, ← BitVec.add_assoc] at far

/-- Apartness from a block is apartness from every block inside it. -/
theorem Apart.within {base other : Addr} (apart : Apart base width other count)
    (shift : Nat) {length : Nat} (fits : shift + length ≤ count) :
    Apart base width (other + BitVec.ofNat 64 shift) length := by
  intro offset inside
  have far := apart offset inside
  have bound := (base + BitVec.ofNat 64 offset - other).isLt
  have same : base + BitVec.ofNat 64 offset - (other + BitVec.ofNat 64 shift) =
      base + BitVec.ofNat 64 offset - other - BitVec.ofNat 64 shift := by
    bv_omega
  rw [same]
  generalize base + BitVec.ofNat 64 offset - other = distance at far bound
  bv_omega

theorem write_of_lt {mem : Memory} {base address : Addr} {bytes : Nat → Byte}
    (inside : (address - base).toNat < count) :
    write mem base count bytes address = bytes (address - base).toNat := if_pos inside

theorem write_of_le {mem : Memory} {base address : Addr} {bytes : Nat → Byte}
    (outside : count ≤ (address - base).toNat) : write mem base count bytes address = mem address := if_neg (by omega)

theorem add_sub_self (base offset : Addr) : base + offset - base = offset := by
  rw [BitVec.add_comm, BitVec.add_sub_cancel]

theorem load64_congr {first second : Memory} {base : Addr}
    (same : ∀ offset < 8, first (base + BitVec.ofNat 64 offset) = second (base + BitVec.ofNat 64 offset)) :
    load64 first base = load64 second base := by
  have zero : first base = second base := by simpa using same 0 (by omega)
  have one : first (base + 1) = second (base + 1) := same 1 (by omega)
  have two : first (base + 2) = second (base + 2) := same 2 (by omega)
  have three : first (base + 3) = second (base + 3) := same 3 (by omega)
  have four : first (base + 4) = second (base + 4) := same 4 (by omega)
  have five : first (base + 5) = second (base + 5) := same 5 (by omega)
  have six : first (base + 6) = second (base + 6) := same 6 (by omega)
  have seven : first (base + 7) = second (base + 7) := same 7 (by omega)
  rw [load64, load64, zero, one, two, three, four, five, six, seven]

theorem byte_load64 (mem : Memory) (base : Addr) (small : offset < 8) :
    (load64 mem base).extractLsb' (8 * offset) 8 = mem (base + BitVec.ofNat 64 offset) := by
  ext index bound
  have cases : offset = 0 ∨ offset = 1 ∨ offset = 2 ∨ offset = 3 ∨ offset = 4 ∨ offset = 5 ∨ offset = 6 ∨
    offset = 7 := by omega
  simp only [BitVec.getElem_extractLsb', load64, getLsbD_append]
  rcases cases with rfl | rfl | rfl | rfl | rfl | rfl | rfl | rfl
  · simp [bound]
  all_goals
    simp (disch := omega) only [if_pos, if_neg]
    rw [← getLsbD_eq_getElem]
    congr 1
    omega

theorem eq_of_bytes {first second : BitVec 64}
    (same : ∀ offset < 8, first.extractLsb' (8 * offset) 8 = second.extractLsb' (8 * offset) 8) : first = second := by
  apply eq_of_getLsbD_eq
  intro index bound
  have byte := congrArg (·.getLsbD (index % 8)) (same (index / 8) (by omega))
  have low : index % 8 < 8 := by omega
  have place : 8 * (index / 8) + index % 8 = index := by omega
  simpa [getLsbD_extractLsb', low, place] using byte

theorem setWidth_signExtend {w : Nat} (narrow : w ≤ 32) (x : BitVec 32) :
    (x.signExtend 64).setWidth w = x.setWidth w := by
  ext i inside
  rw [getElem_setWidth, getLsbD_signExtend, if_pos (by omega), getElem_setWidth,
    decide_eq_true (by omega), Bool.true_and]

/-- A byte as a field of a word of 32 bits. -/
theorem byte_field {value : Byte} (fits : value.toNat * 2 ^ shift < 2 ^ 32) :
    (value.setWidth 32 <<< shift).toNat = value.toNat * 2 ^ shift := by
  have widened : value.toNat % 2 ^ 32 = value.toNat := Nat.mod_eq_of_lt (by omega)
  rw [toNat_shiftLeft, toNat_setWidth, widened, Nat.shiftLeft_eq, Nat.mod_eq_of_lt fits]

/-- A field below the lowest set bit of the rest of a word. -/
theorem or_of_low (i low : Nat) {high : Nat} (clear : 2 ^ i ∣ high) (small : low < 2 ^ i) :
    high ||| low = high + low := by
  obtain ⟨rest, rfl⟩ := clear
  rw [Nat.two_pow_add_eq_or_of_lt small]

/-- A block write leaves every word apart from the block alone. -/
theorem load64_write {mem : Memory} {base other : Addr} (apart : Apart base 8 other count) :
    load64 (write mem other count bytes) base = load64 mem base :=
  load64_congr fun offset inside => write_of_le (apart offset inside)

private theorem word_of_bytes (word : BitVec 64) :
    word.extractLsb' 56 8 ++ word.extractLsb' 48 8 ++ word.extractLsb' 40 8 ++
      word.extractLsb' 32 8 ++ word.extractLsb' 24 8 ++ word.extractLsb' 16 8 ++
      word.extractLsb' 8 8 ++ word.extractLsb' 0 8 = word := by
  ext index bound
  simp only [getElem_append, BitVec.getElem_extractLsb']
  rw [← getLsbD_eq_getElem]
  repeat' split
  all_goals
    congr 1
    omega

theorem load64_store64 (mem : Memory) (base : Addr) (word : BitVec 64) :
    load64 (store64 mem base word) base = word := by
  simp only [load64, store64, write, add_sub_self, BitVec.sub_self]
  exact word_of_bytes word

theorem load64_store64_apart {mem : Memory} {base other : Addr} (apart : Apart base 8 other 8) :
    load64 (store64 mem other word) base = load64 mem base := load64_write apart

theorem load64_fill_zero {mem : Memory} {base block : Addr}
    (inside : ∀ offset < 8, (base + BitVec.ofNat 64 offset - block).toNat < count) :
    load64 (fill mem block 0 count) base = 0 := by
  have zeroed : load64 (fill mem block 0 count) base = load64 (fun _ => 0) base :=
    load64_congr fun offset small => write_of_lt (inside offset small)
  rw [zeroed, load64]
  rfl

end LunaOS.ByteMemory
