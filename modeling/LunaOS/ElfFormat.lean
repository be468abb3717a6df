import LunaOS.BoundedLoop
import LunaOS.ElfBounds

/-! What `elf/elf.cpp` decides about a file before it loads anything: whether its
header is one it supports, and the hash of a symbol's name. -/
namespace LunaOS.ElfFormat
open ByteMemory BoundedLoop ElfLoader ElfBounds BitVec

/-! ## The header -/

/-- A header after its first byte, by the places of its fields. -/
structure SupportedTail (file : ElfFile) : Prop where
  mag1 : file.byte 1 = 0x45
  mag2 : file.byte 2 = 0x4c
  mag3 : file.byte 3 = 0x46
  elf64 : file.byte 4 = 2
  littleEndian : file.byte 5 = 1
  current : file.byte 6 = 1
  kind : file.half 16 = 1 ∨ file.half 16 = 2
  machine : file.half 18 = 0x3e

/-- A header that is to be accepted. -/
structure Supported (file : ElfFile) : Prop extends SupportedTail file where
  mag0 : file.byte 0 = 0x7f

theorem ident_byte (file : ElfFile) (i : Nat) (inside : i < 16) :
    (readHeader file).eIdent[i]? = some (file.byte (BitVec.ofNat 64 i)) := by
  simp [readHeader, inside]

/-- The checks look at everything but the first byte. -/
theorem accepted_iff (file : ElfFile) : Accepted file ↔ SupportedTail file := by
  have ident := ident_byte file
  simp only [Accepted, elfCheckFile, elfCheckSupported, ident 1 (by decide), ident 2 (by decide), ident 3 (by decide),
    ident 4 (by decide), ident 5 (by decide), ident 6 (by decide), Bool.and_eq_true, Bool.or_eq_true, beq_iff_eq,
    Option.some.injEq]
  constructor
  · rintro ⟨⟨⟨mag1, mag2⟩, mag3⟩, ⟨⟨⟨elf64, littleEndian⟩, machine⟩, current⟩, kind⟩
    exact ⟨mag1, mag2, mag3, elf64, littleEndian, current, kind, machine⟩
  · rintro ⟨mag1, mag2, mag3, elf64, littleEndian, current, kind, machine⟩
    exact ⟨⟨⟨mag1, mag2⟩, mag3⟩, ⟨⟨⟨elf64, littleEndian⟩, machine⟩, current⟩, kind⟩

/-- The checks are right about a header unless its first byte is its only fault. -/
theorem checks_exact_iff (file : ElfFile) :
    (Accepted file ↔ Supported file) ↔ ¬ (file.byte 0 ≠ 0x7f ∧ SupportedTail file) := by
  rw [accepted_iff]
  constructor
  · rintro exact ⟨wrong, tail⟩
    exact wrong (exact.mp tail).mag0
  · intro sound
    refine ⟨fun tail => ⟨tail, ?_⟩, fun supported => supported.toSupportedTail⟩
    by_contra wrong
    exact sound ⟨wrong, tail⟩

/-- A header of zeros but for what the checks look at. -/
def headerFile (mag0 : Byte) : ElfFile where
  opened := true
  readOk := true
  readBytes := 64
  contents := [mag0, 0x45, 0x4c, 0x46, 2, 1, 1, 0, 0, 0, 0, 0, 0, 0, 0, 0, 2, 0, 0x3e, 0] ++ List.replicate 44 0
  around := fun _ => 0

/-- A file that starts with a zero passes for an ELF file. -/
theorem zero_magic_accepted : Accepted (headerFile 0) ∧ ¬ Supported (headerFile 0) := by
  refine ⟨⟨by decide, by decide⟩, ?_⟩
  intro supported
  exact absurd supported.mag0 (by decide)

/-! ## The hash of a name -/

/-- One byte of the hash, on 64-bit longs. -/
def hashByte (h : BitVec 64) (byte : Byte) : BitVec 64 :=
  let h := (h <<< 4) + byte.setWidth 64
  let g := h &&& 0xf0000000
  let h := if g ≠ 0 then h ^^^ (g >>> 24) else h
  h &&& 0x0fffffff

def hashTurn (mem : Memory) : BitVec 64 × Addr → Turn (BitVec 64 × Addr) (BitVec 64)
  | (h, name) => if mem name = 0 then .leave h else .again (hashByte h (mem name), name + 1)

/-- `elf64Hash` -/
def elf64Hash (mem : Memory) (name : Addr) : Option (BitVec 64) := iterate (hashTurn mem) maxTurns (0, name)

/-- One byte of the hash of the System V ABI, on 32-bit longs. -/
def sysvByte (h : BitVec 32) (byte : Byte) : BitVec 32 :=
  let h := (h <<< 4) + byte.setWidth 32
  let g := h &&& 0xf0000000
  let h := if g ≠ 0 then h ^^^ (g >>> 24) else h
  h &&& ~~~g

/-- The hash of the System V ABI. -/
def sysvHash (bytes : List Byte) : BitVec 32 := bytes.foldl sysvByte 0

/-- A string with its end, somewhere in memory. -/
structure StringAt (mem : Memory) (name : Addr) (bytes : List Byte) : Prop where
  byte : ∀ i byte, bytes[i]? = some byte → mem (name + BitVec.ofNat 64 i) = byte
  nonzero : ∀ byte ∈ bytes, byte ≠ 0
  ended : mem (name + BitVec.ofNat 64 bytes.length) = 0

theorem stringAt_of_get {bytes : List Byte}
    (held : ∀ i : Fin bytes.length, mem (name + BitVec.ofNat 64 i) = bytes.get i)
    (nonzero : ∀ byte ∈ bytes, byte ≠ 0) (ended : mem (name + BitVec.ofNat 64 bytes.length) = 0) :
    StringAt mem name bytes where
  byte i byte found := by
    obtain ⟨inside, rfl⟩ := List.getElem?_eq_some_iff.mp found
    exact held ⟨i, inside⟩
  nonzero := nonzero
  ended := ended

theorem xor_carry (h g : BitVec w) : (if g ≠ 0 then h ^^^ (g >>> 24) else h) = h ^^^ (g >>> 24) := by
  by_cases none : g = 0
  · simp [none]
  · rw [if_pos none]

theorem hashByte_below (h : BitVec 64) (byte : Byte) : (hashByte h byte).toNat < 2 ^ 28 := by
  exact Nat.lt_of_le_of_lt Nat.and_le_right (by decide)

theorem sum_setWidth (h : BitVec 32) (byte : Byte) :
    ((h.setWidth 64 <<< 4) + byte.setWidth 64).setWidth 32 = (h <<< 4) + byte.setWidth 32 := by
  apply eq_of_toNat_eq
  simp only [toNat_setWidth, toNat_add, toNat_shiftLeft, Nat.shiftLeft_eq]
  omega

/-- The four bits that are carried back, in any long of 32 bits or more. -/
theorem carry_bit (wide : 32 ≤ w) (j : Nat) : (BitVec.ofNat w 0xf0000000).getLsbD j = decide (28 ≤ j ∧ j < 32) := by
  have bits : ∀ i : Fin 32, Nat.testBit 0xf0000000 i = decide (28 ≤ i.val) := by decide
  rw [getLsbD_ofNat]
  by_cases low : j < 32
  · simp [bits ⟨j, low⟩, Nat.lt_of_lt_of_le low wide, low]
  · have small : 0xf0000000 < 2 ^ j :=
      Nat.lt_of_lt_of_le (by decide) (Nat.pow_le_pow_right (by decide) (Nat.le_of_not_lt low))
    simp [Nat.testBit_lt_two_pow small, low]

/-- The sum may carry past bit 31; the mask drops what 32 bits do not hold. -/
theorem hashByte_setWidth (h : BitVec 32) (byte : Byte) :
    hashByte (h.setWidth 64) byte = (sysvByte h byte).setWidth 64 := by
  have low : ∀ i : Fin 64, (BitVec.ofNat 64 0x0fffffff).getLsbD i = decide (i.val < 28) := by decide
  simp only [hashByte, sysvByte, xor_carry, ← sum_setWidth]
  generalize (h.setWidth 64 <<< 4) + byte.setWidth 64 = sum
  apply eq_of_getLsbD_eq
  intro i bound
  simp only [getLsbD_and, getLsbD_xor, getLsbD_ushiftRight, getLsbD_setWidth,
    getLsbD_not, low ⟨i, bound⟩, ofNat_eq_ofNat, carry_bit (show 32 ≤ 64 by decide),
    carry_bit (Nat.le_refl 32)]
  by_cases kept : i < 28
  · have inside : i < 32 := by omega
    by_cases carried : 24 + i < 32 <;> simp [kept, inside, carried, bound, Nat.not_le.mpr kept]
  · have gone : ¬ 24 + i < 32 := by omega
    by_cases inside : i < 32 <;> simp [kept, inside, gone, Nat.le_of_not_lt kept]

theorem sysvByte_below (h : BitVec 32) (byte : Byte) : (sysvByte h byte).toNat < 2 ^ 28 := by
  have below := hashByte_below (h.setWidth 64) byte
  rw [hashByte_setWidth, toNat_setWidth] at below
  omega

theorem sysvHash_below (bytes : List Byte) : (sysvHash bytes).toNat < 2 ^ 28 := by
  rcases List.eq_nil_or_concat bytes with rfl | ⟨front, last, rfl⟩
  · decide
  · rw [sysvHash, List.concat_eq_append, List.foldl_append]
    exact sysvByte_below _ last

theorem StringAt.tail (string : StringAt mem name (first :: rest)) : StringAt mem (name + 1) rest := by
  have next : ∀ i, name + 1 + BitVec.ofNat 64 i = name + BitVec.ofNat 64 (i + 1) := by
    intro i
    rw [BitVec.add_assoc, Nat.add_comm, ofNat_add]
    rfl
  refine ⟨?_, fun byte member => string.nonzero byte (List.mem_cons_of_mem _ member), ?_⟩
  · intro i byte found
    rw [next]
    exact string.byte (i + 1) byte found
  · rw [next]
    exact string.ended

theorem iterate_hash (string : StringAt mem name bytes) (fuel : bytes.length < turns) (h : BitVec 32) :
    iterate (hashTurn mem) turns (h.setWidth 64, name) = some ((bytes.foldl sysvByte h).setWidth 64) := by
  induction bytes generalizing name turns h with
  | nil =>
    have ended := string.ended
    rw [List.length_nil, BitVec.add_zero] at ended
    exact iterate_leave (if_pos ended) fuel
  | cons first rest ih =>
    obtain ⟨turns, rfl⟩ : ∃ rest, turns = rest + 1 := ⟨turns - 1, by omega⟩
    have here : mem name = first := by
      have byte := string.byte 0 first rfl
      rwa [BitVec.add_zero] at byte
    have more : mem name ≠ 0 := here ▸ string.nonzero first List.mem_cons_self
    have asked : hashTurn mem (h.setWidth 64, name) = .again (hashByte (h.setWidth 64) first, name + 1) := by
      rw [hashTurn, if_neg more, here]
    rw [iterate_again asked, hashByte_setWidth]
    exact ih string.tail (Nat.lt_of_succ_lt_succ fuel) _

/-- A string ends before it comes around. -/
theorem StringAt.length_lt (string : StringAt mem name bytes) : bytes.length < 2 ^ 64 := by
  by_contra long
  have inside : bytes.length - 2 ^ 64 < bytes.length := by omega
  have again : BitVec.ofNat 64 (bytes.length - 2 ^ 64) = BitVec.ofNat 64 bytes.length := by
    apply eq_of_toNat_eq
    rw [toNat_ofNat, toNat_ofNat]
    omega
  have byte := string.byte _ _ (List.getElem?_eq_getElem inside)
  rw [again, string.ended] at byte
  exact string.nonzero _ (List.getElem_mem inside) byte.symm

/-- On 64-bit longs the hash of every string is the one of the System V ABI. -/
theorem elf64Hash_sysv (mem : Memory) (name : Addr) (bytes : List Byte) (string : StringAt mem name bytes) :
    ∃ h, elf64Hash mem name = some h ∧ h = (sysvHash bytes).setWidth 64 ∧ h.toNat < 2 ^ 28 := by
  refine ⟨_, iterate_hash string string.length_lt 0, rfl, ?_⟩
  rw [BitVec.toNat_setWidth]
  exact Nat.lt_of_le_of_lt (Nat.mod_le _ _) (sysvHash_below bytes)

/-- A name whose last byte carries past bit 31. -/
def carryName : List Byte := [0xf, 0xf, 0xf, 0xf, 0xf, 0xf, 0xf, 0xff]

def carryMemory : Memory := write (fun _ => 0) 0x1000 8 fun i => carryName.getD i 0

theorem carry_string : StringAt carryMemory 0x1000 carryName :=
  stringAt_of_get (by decide) (by decide) (by decide)

theorem elf64Hash_sysv_carry : ∃ h, elf64Hash carryMemory 0x1000 = some h ∧ h = 0xef ∧ h.toNat < 2 ^ 28 := by
  obtain ⟨h, returned, same, below⟩ := elf64Hash_sysv carryMemory 0x1000 carryName carry_string
  exact ⟨h, returned, same.trans (by decide), below⟩

end LunaOS.ElfFormat
