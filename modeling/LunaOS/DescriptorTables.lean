import LunaOS.ByteMemory

/-! The descriptors of segments, of the task state and of interrupt gates (`gdt/gdt.cpp`,
`gdt/gdt.hpp`, `interrupts/idt.cpp`). A base or a limit is scattered over fields of a packed
entry, from which the processor puts it together again. -/
namespace LunaOS.DescriptorTables
open ByteMemory BitVec

/-! ## What is written -/

/-- `k_gdt_entry`, packed -/
structure GdtEntry where
  limitLow : BitVec 16
  baseLow : BitVec 16
  baseMid : BitVec 8
  accessByte : BitVec 8
  limitHighFlags : BitVec 8
  baseHigh : BitVec 8

/-- `TSSDescriptor`, packed -/
structure TSSDescriptor where
  limitLow : BitVec 16
  baseLow : BitVec 16
  baseMid0 : BitVec 8
  accessByte : BitVec 8
  limitHighFlags : BitVec 8
  baseMid1 : BitVec 8
  baseHigh : BitVec 32
  reserved : BitVec 32
  deriving DecidableEq

/-- `k_idt_entry`, packed -/
structure IdtEntry where
  offsetLow : BitVec 16
  segmentSelector : BitVec 16
  ist : BitVec 8
  flags : BitVec 8
  offsetMid : BitVec 16
  offsetHigh : BitVec 32
  zero : BitVec 32

/-- `K_GDT_SIZE` -/
abbrev gdtSize : Nat := 6

/-- `k_gdt` -/
structure Gdt where
  entries : Fin gdtSize → GdtEntry
  tss : TSSDescriptor

/-- The entry that `gdtCreateEntry` writes. -/
def segmentEntry (base limit : BitVec 32) (accessByte flags : BitVec 8) : GdtEntry where
  limitLow := (limit &&& 0xFFFF#32).setWidth 16
  baseLow := (base &&& 0xFFFF#32).setWidth 16
  baseMid := (base >>> 16 &&& 0xFF#32).setWidth 8
  accessByte := accessByte
  limitHighFlags := (limit >>> 16 &&& 0xF#32 ||| flags.setWidth 32 <<< 4).setWidth 8
  baseHigh := (base >>> 24 &&& 0xFF#32).setWidth 8

def gdtCreateEntry (gdt : Gdt) (idx : Fin gdtSize) (base limit : BitVec 32) (accessByte flags : BitVec 8) : Gdt :=
  { gdt with entries := Function.update gdt.entries idx (segmentEntry base limit accessByte flags) }

/-- `DESCRIPTOR_TYPE_TSS` -/
def descriptorTypeTSS : BitVec 8 := 0x09

/-- `ACCESS_PRESENT` -/
def accessPresent : BitVec 8 := 0x80

/-- `TSSDescriptor::set`. The upper limit is joined with `0xF` by a logical and. -/
def TSSDescriptor.set (base limit : BitVec 64) (flags access : BitVec 8) : TSSDescriptor where
  limitLow := (limit &&& 0xFFFF#64).setWidth 16
  baseLow := (base &&& 0xFFFF#64).setWidth 16
  baseMid0 := (base >>> 16 &&& 0xFFFF#64).setWidth 8
  accessByte := access ||| descriptorTypeTSS ||| accessPresent
  limitHighFlags := (if limit >>> 16 ≠ 0 then 1 else 0) ||| flags &&& 0xF0#8
  baseMid1 := (base >>> 24 &&& 0xFF#64).setWidth 8
  baseHigh := (base >>> 32 &&& 0xFFFFFFFF#64).setWidth 32
  reserved := 0

/-- `sizeof(TSS)` -/
def sizeofTSS : BitVec 64 := 104

/-- `gdtCreateTSSEntry`, which nothing calls. -/
def gdtCreateTSSEntry (gdt : Gdt) (tss : Addr) : Gdt :=
  { gdt with
    tss := {
      limitLow := sizeofTSS.setWidth 16 - 1
      baseLow := (tss &&& 0xFFFF#64).setWidth 16
      baseMid0 := (tss >>> 16 &&& 0xFF#64).setWidth 8
      accessByte := 0x89
      limitHighFlags := 0
      baseMid1 := (tss >>> 24 &&& 0xFF#64).setWidth 8
      baseHigh := (tss >>> 32).setWidth 32
      reserved := 0 } }

/-- The tables of `gdtInitialize`. -/
def gdtInitialize (gdt : Gdt) (tss : Addr) : Gdt :=
  let gdt := gdtCreateEntry gdt ⟨0, Nat.le_of_ble_eq_true rfl⟩ 0x0 0x00000 0x00 0x0
  let gdt := gdtCreateEntry gdt ⟨1, Nat.le_of_ble_eq_true rfl⟩ 0x0 0xFFFFF 0x9A 0xA
  let gdt := gdtCreateEntry gdt ⟨2, Nat.le_of_ble_eq_true rfl⟩ 0x0 0xFFFFF 0x92 0xC
  let gdt := gdtCreateEntry gdt ⟨3, Nat.le_of_ble_eq_true rfl⟩ 0x0 0xFFFFF 0xFA 0xA
  let gdt := gdtCreateEntry gdt ⟨4, Nat.le_of_ble_eq_true rfl⟩ 0x0 0xFFFFF 0xF2 0xC
  let gdt := gdtCreateEntry gdt ⟨5, Nat.le_of_ble_eq_true rfl⟩ 0x0 0xFFFFF 0xF2 0xC
  { gdt with tss := TSSDescriptor.set tss (sizeofTSS - 1) 0x0 0 }

/-- The interrupt table and the handlers its entries lead to. -/
structure Interrupts where
  idt : BitVec 8 → IdtEntry
  exceptionHandlers : BitVec 8 → Addr
  requestHandlers : BitVec 8 → Addr

def idtCreateEntry (interrupts : Interrupts) (idx : BitVec 8) (offset handler : Addr) (segmentSelector : BitVec 16)
    (ist flags : BitVec 8) : Interrupts :=
  let entry : IdtEntry := {
    offsetLow := (offset &&& 0xFFFF#64).setWidth 16
    segmentSelector := segmentSelector
    ist := ist &&& 0b00000111
    flags := flags
    offsetMid := (offset >>> 16 &&& 0xFFFF#64).setWidth 16
    offsetHigh := (offset >>> 32 &&& 0xFFFFFFFF#64).setWidth 32
    zero := 0 }
  let interrupts := { interrupts with idt := Function.update interrupts.idt idx entry }
  if idx < 0x20 then
    { interrupts with exceptionHandlers := Function.update interrupts.exceptionHandlers idx handler }
  else
    { interrupts with requestHandlers := Function.update interrupts.requestHandlers (idx - 0x20) handler }

/-! ## What the processor reads -/

/-- The bytes of an entry, the first field lowest. -/
def GdtEntry.packed (entry : GdtEntry) : BitVec 64 :=
  entry.baseHigh ++ entry.limitHighFlags ++ entry.accessByte ++ entry.baseMid ++ entry.baseLow ++ entry.limitLow

def TSSDescriptor.packed (entry : TSSDescriptor) : BitVec 128 :=
  entry.reserved ++ entry.baseHigh ++ entry.baseMid1 ++ entry.limitHighFlags ++ entry.accessByte ++ entry.baseMid0 ++
    entry.baseLow ++ entry.limitLow

def IdtEntry.packed (entry : IdtEntry) : BitVec 128 :=
  entry.zero ++ entry.offsetHigh ++ entry.offsetMid ++ entry.flags ++ entry.ist ++ entry.segmentSelector ++
    entry.offsetLow

/-- What a descriptor with a base of `w` bits says. -/
structure Segment (w : Nat) where
  base : BitVec w
  limit : BitVec 20
  access : BitVec 8
  flags : BitVec 4

def decodeSegment (descriptor : BitVec 64) : Segment 32 where
  base := descriptor.extractLsb' 56 8 ++ descriptor.extractLsb' 16 24
  limit := descriptor.extractLsb' 48 4 ++ descriptor.extractLsb' 0 16
  access := descriptor.extractLsb' 40 8
  flags := descriptor.extractLsb' 52 4

/-- A system descriptor of 16 bytes has the upper half of its base behind the first eight. -/
def decodeSystem (descriptor : BitVec 128) : Segment 64 where
  base := descriptor.extractLsb' 64 32 ++ descriptor.extractLsb' 56 8 ++ descriptor.extractLsb' 16 24
  limit := descriptor.extractLsb' 48 4 ++ descriptor.extractLsb' 0 16
  access := descriptor.extractLsb' 40 8
  flags := descriptor.extractLsb' 52 4

/-- The handler of a gate. -/
def decodeGate (descriptor : BitVec 128) : BitVec 64 :=
  descriptor.extractLsb' 64 32 ++ descriptor.extractLsb' 48 16 ++ descriptor.extractLsb' 0 16

/-! ## Fields -/

/-- Bits that are shifted down and masked. -/
theorem field_eq (x : BitVec n) (start count : Nat) (inside : width ≤ count) (fits : width ≤ n) :
    (x >>> start &&& BitVec.ofNat n (2 ^ count - 1)).setWidth width = x.extractLsb' start width := by
  ext i bound
  rw [getElem_setWidth, getLsbD_and, getLsbD_ushiftRight, getLsbD_ofNat,
    Nat.testBit_two_pow_sub_one, BitVec.getElem_extractLsb', decide_eq_true (show i < n by omega),
    decide_eq_true (show i < count by omega), Bool.and_true, Bool.and_true]

theorem low_field_eq (x : BitVec n) (count : Nat) (inside : width ≤ count) (fits : width ≤ n) :
    (x &&& BitVec.ofNat n (2 ^ count - 1)).setWidth width = x.extractLsb' 0 width := by
  rw [← field_eq x 0 count inside fits, ushiftRight_zero]

theorem decodeSegment_packed (entry : GdtEntry) : decodeSegment entry.packed =
    ⟨entry.baseHigh ++ entry.baseMid ++ entry.baseLow, entry.limitHighFlags.extractLsb' 0 4 ++ entry.limitLow,
      entry.accessByte, entry.limitHighFlags.extractLsb' 4 4⟩ := by
  simp only [decodeSegment, GdtEntry.packed, Segment.mk.injEq]
  refine ⟨?_, ?_, ?_, ?_⟩ <;> ext i bound <;>
    simp only [getElem_append, BitVec.getElem_extractLsb', getLsbD_append] <;> grind

theorem decodeSystem_packed (entry : TSSDescriptor) : decodeSystem entry.packed =
    ⟨entry.baseHigh ++ entry.baseMid1 ++ entry.baseMid0 ++ entry.baseLow,
      entry.limitHighFlags.extractLsb' 0 4 ++ entry.limitLow, entry.accessByte,
      entry.limitHighFlags.extractLsb' 4 4⟩ := by
  simp only [decodeSystem, TSSDescriptor.packed, Segment.mk.injEq]
  refine ⟨?_, ?_, ?_, ?_⟩ <;> ext i bound <;>
    simp only [getElem_append, BitVec.getElem_extractLsb', getLsbD_append] <;> grind

theorem decodeGate_packed (entry : IdtEntry) :
    decodeGate entry.packed = entry.offsetHigh ++ entry.offsetMid ++ entry.offsetLow := by
  apply eq_of_getLsbD_eq
  intro i bound
  simp only [decodeGate, IdtEntry.packed, getLsbD_extractLsb', getLsbD_append]
  grind

/-- Neighbouring fields of a word beside each other. -/
theorem joined (x : BitVec n) (start low high : Nat) :
    x.extractLsb' (start + low) high ++ x.extractLsb' start low = x.extractLsb' start (high + low) := by
  apply eq_of_getLsbD_eq
  intro i bound
  simp only [getLsbD_extractLsb', getLsbD_append]
  grind

theorem base_joined (x : BitVec 32) : x.extractLsb' 24 8 ++ x.extractLsb' 16 8 ++ x.extractLsb' 0 16 = x := by
  have upper : x.extractLsb' 24 8 ++ x.extractLsb' 16 8 = x.extractLsb' 16 16 := joined x 16 8 8
  rw [upper]
  exact (joined x 0 16 16).trans BitVec.extractLsb'_eq_self

theorem offset_joined (x : BitVec 64) : x.extractLsb' 32 32 ++ x.extractLsb' 16 16 ++ x.extractLsb' 0 16 = x := by
  have upper : x.extractLsb' 32 32 ++ x.extractLsb' 16 16 = x.extractLsb' 16 48 := joined x 16 16 32
  rw [upper]
  exact (joined x 0 16 48).trans BitVec.extractLsb'_eq_self

theorem wide_base_joined (x : BitVec 64) :
    x.extractLsb' 32 32 ++ x.extractLsb' 24 8 ++ x.extractLsb' 16 8 ++ x.extractLsb' 0 16 = x := by
  have upper : x.extractLsb' 32 32 ++ x.extractLsb' 24 8 = x.extractLsb' 24 40 := joined x 24 8 32
  have middle : x.extractLsb' 24 40 ++ x.extractLsb' 16 8 = x.extractLsb' 16 48 := joined x 16 8 40
  rw [upper, middle]
  exact (joined x 0 16 48).trans BitVec.extractLsb'_eq_self

theorem limit_joined (limit : BitVec 20) : limit.extractLsb' 16 4 ++ limit.extractLsb' 0 16 = limit :=
  (joined limit 0 16 4).trans BitVec.extractLsb'_eq_self

section Nibbles
variable (limit : BitVec 32) (flags : BitVec 8)

theorem segment_nibbles :
    ((limit >>> 16 &&& 0xF#32 ||| flags.setWidth 32 <<< 4).setWidth 8).extractLsb' 0 4 = limit.extractLsb' 16 4 ∧
      ((limit >>> 16 &&& 0xF#32 ||| flags.setWidth 32 <<< 4).setWidth 8).extractLsb' 4 4 = flags.extractLsb' 0 4 := by
  rw [show 0xF#32 = BitVec.ofNat 32 (2 ^ 4 - 1) from rfl]
  constructor
  all_goals
    apply eq_of_getLsbD_eq
    intro i bound
    simp only [getLsbD_extractLsb', getLsbD_setWidth, getLsbD_or, getLsbD_and,
      getLsbD_ushiftRight, getLsbD_shiftLeft, getLsbD_ofNat, Nat.testBit_two_pow_sub_one]
    grind

theorem tss_nibbles (low : BitVec 4) : (low.setWidth 8 ||| flags &&& 0xF0#8).extractLsb' 0 4 = low ∧
      (low.setWidth 8 ||| flags &&& 0xF0#8).extractLsb' 4 4 = flags.extractLsb' 4 4 := by
  have mask : ∀ i < 8, (0xF0#8).getLsbD i = decide (4 ≤ i) := by decide
  constructor
  all_goals
    apply eq_of_getLsbD_eq
    intro i bound
    grind

end Nibbles

/-! ## What is read back -/

theorem segment_decoded (base : BitVec 32) (limit : BitVec 20) (accessByte : BitVec 8) (flags : BitVec 4) :
    decodeSegment (segmentEntry base (limit.setWidth 32) accessByte (flags.setWidth 8)).packed =
      ⟨base, limit, accessByte, flags⟩ := by
  obtain ⟨upperLimit, upperFlags⟩ := segment_nibbles (limit.setWidth 32) (flags.setWidth 8)
  have lowFlags : (flags.setWidth 8).extractLsb' 0 4 = flags := by
    apply eq_of_getLsbD_eq
    intro i bound
    grind
  have lowLimit := low_field_eq (limit.setWidth 32) 16 (Nat.le_refl 16) (by decide)
  have baseHigh := field_eq base 24 8 (Nat.le_refl 8) (by decide)
  have baseMid := field_eq base 16 8 (Nat.le_refl 8) (by decide)
  have baseLow := low_field_eq base 16 (Nat.le_refl 16) (by decide)
  simp only [Nat.reducePow, Nat.reduceSub] at lowLimit baseHigh baseMid baseLow
  rw [decodeSegment_packed, segmentEntry, Segment.mk.injEq]
  simp only [upperLimit, upperFlags, lowLimit, baseHigh, baseMid, baseLow, lowFlags]
  exact ⟨base_joined base, limit_joined limit, trivial, trivial⟩

theorem offset_decoded (interrupts : Interrupts) (idx : BitVec 8) (offset handler : Addr) (segmentSelector : BitVec 16)
    (ist flags : BitVec 8) :
    decodeGate ((idtCreateEntry interrupts idx offset handler segmentSelector ist flags).idt idx).packed = offset := by
  have offsetHigh := field_eq offset 32 32 (Nat.le_refl 32) (by decide)
  have offsetMid := field_eq offset 16 16 (Nat.le_refl 16) (by decide)
  have offsetLow := low_field_eq offset 16 (Nat.le_refl 16) (by decide)
  simp only [Nat.reducePow, Nat.reduceSub] at offsetHigh offsetMid offsetLow
  have written : (idtCreateEntry interrupts idx offset handler segmentSelector ist flags).idt idx = {
      offsetLow := offset.extractLsb' 0 16, segmentSelector := segmentSelector, ist := ist &&& 0b00000111
      flags := flags, offsetMid := offset.extractLsb' 16 16, offsetHigh := offset.extractLsb' 32 32, zero := 0 } := by
    unfold idtCreateEntry
    split <;> simp only [Function.update_self, offsetHigh, offsetMid, offsetLow]
  rw [written, decodeGate_packed]
  exact offset_joined offset

theorem upper_toNat (limit : BitVec 20) : (limit.extractLsb' 16 4).toNat = limit.toNat / 2 ^ 16 := by
  have bound := limit.isLt
  rw [BitVec.extractLsb'_toNat, Nat.shiftRight_eq_div_pow]
  omega

theorem limit_shifted (limit : BitVec 20) : (limit.setWidth 64 >>> 16).toNat = limit.toNat / 2 ^ 16 := by
  rw [toNat_ushiftRight, toNat_setWidth_of_le (by decide), Nat.shiftRight_eq_div_pow]

/-- What is left of the upper four bits of a limit. -/
def flattened (limit : BitVec 20) : BitVec 4 := if limit.extractLsb' 16 4 ≠ 0 then 1 else 0

/-- The upper limit of a task state comes out as one or zero. -/
theorem system_decoded (base : BitVec 64) (limit : BitVec 20) (flags access : BitVec 8) :
    decodeSystem (TSSDescriptor.set base (limit.setWidth 64) flags access).packed =
      ⟨base, flattened limit ++ limit.extractLsb' 0 16, access ||| descriptorTypeTSS ||| accessPresent,
        flags.extractLsb' 4 4⟩ := by
  have test : limit.setWidth 64 >>> 16 ≠ 0 ↔ limit.extractLsb' 16 4 ≠ 0 := by
    rw [ne_eq, ne_eq, ← toNat_inj, ← toNat_inj, limit_shifted, upper_toNat]
    rfl
  have bit : (if limit.setWidth 64 >>> 16 ≠ 0 then 1 else 0 : BitVec 8) = (flattened limit).setWidth 8 := by
    rw [flattened]
    simp only [test]
    split <;> rfl
  obtain ⟨upperLimit, upperFlags⟩ := tss_nibbles flags (flattened limit)
  have lowLimit := low_field_eq (limit.setWidth 64) 16 (Nat.le_refl 16) (by decide)
  have baseHigh := field_eq base 32 32 (Nat.le_refl 32) (by decide)
  have baseMid1 := field_eq base 24 8 (Nat.le_refl 8) (by decide)
  have baseMid0 := field_eq base 16 16 (show 8 ≤ 16 by decide) (by decide)
  have baseLow := low_field_eq base 16 (Nat.le_refl 16) (by decide)
  simp only [Nat.reducePow, Nat.reduceSub] at lowLimit baseHigh baseMid1 baseMid0 baseLow
  rw [decodeSystem_packed, TSSDescriptor.set, Segment.mk.injEq]
  simp only [bit, upperLimit, upperFlags, lowLimit, baseHigh, baseMid1, baseMid0, baseLow]
  exact ⟨wide_base_joined base, rfl, trivial, trivial⟩

theorem flattened_right_iff (limit : BitVec 20) :
    flattened limit ++ limit.extractLsb' 0 16 = limit ↔ limit.toNat < 0x20000 := by
  have upper := upper_toNat limit
  have small : ∀ upper : BitVec 4, (if upper ≠ 0 then 1 else 0) = upper ↔ upper.toNat < 2 := by decide
  have same : flattened limit ++ limit.extractLsb' 0 16 = limit ↔ flattened limit = limit.extractLsb' 16 4 := by
    constructor
    · intro joined
      have parts := joined.trans (limit_joined limit).symm
      exact (append_left_inj _).mp parts
    · intro upper
      rw [upper]
      exact limit_joined limit
  rw [same, flattened, small, upper]
  omega

/-- Segments and gates are always read back; a task state is, but for the upper bits of its
limit, which are read back if they are one or zero. -/
theorem descriptors_invertible_iff (gdt : Gdt) (entry : Fin gdtSize) (base : BitVec 32) (limit : BitVec 20)
    (accessByte : BitVec 8) (flags : BitVec 4) (tssBase : BitVec 64) (tssFlags tssAccess : BitVec 8)
    (interrupts : Interrupts) (idx : BitVec 8) (offset handler : Addr) (segmentSelector : BitVec 16)
    (ist gateFlags : BitVec 8) :
    decodeSegment ((gdtCreateEntry gdt entry base (limit.setWidth 32) accessByte (flags.setWidth 8)).entries
        entry).packed = ⟨base, limit, accessByte, flags⟩ ∧
      (∃ system, decodeSystem (TSSDescriptor.set tssBase (limit.setWidth 64) tssFlags tssAccess).packed = system ∧
        system.base = tssBase ∧ system.flags = tssFlags.extractLsb' 4 4 ∧
          (system.limit = limit ↔ limit.toNat < 0x20000)) ∧
      decodeGate ((idtCreateEntry interrupts idx offset handler segmentSelector ist gateFlags).idt idx).packed =
        offset := by
  refine ⟨?_, ?_, offset_decoded ..⟩
  · simp only [gdtCreateEntry, Function.update_self]
    exact segment_decoded base limit accessByte flags
  · exact ⟨_, system_decoded tssBase limit tssFlags tssAccess, rfl, rfl, flattened_right_iff limit⟩

/-- A limit of 128 KiB is read back as one of 64 KiB. -/
theorem limit_flattened : ∃ (base : BitVec 64) (limit : BitVec 20) (flags access : BitVec 8),
    (decodeSystem (TSSDescriptor.set base (limit.setWidth 64) flags access).packed).limit ≠ limit :=
  ⟨0, 0x20000, 0, 0, by decide⟩

/-- The task state the kernel loads is small enough, and the function that is not called
would have written the same. -/
theorem gdtInitialize_tss (gdt : Gdt) (tss : Addr) : (gdtInitialize gdt tss).tss = (gdtCreateTSSEntry gdt tss).tss ∧
      decodeSystem (gdtInitialize gdt tss).tss.packed = ⟨tss, 103, 0x89, 0⟩ := by
  have limit : sizeofTSS - 1 = (103 : BitVec 20).setWidth 64 := by decide
  have baseMid0 := (field_eq tss 16 16 (show 8 ≤ 16 by decide) (by decide)).trans
    (field_eq tss 16 8 (Nat.le_refl 8) (by decide)).symm
  have baseHigh : (tss >>> 32 &&& 0xFFFFFFFF#64).setWidth 32 = (tss >>> 32).setWidth 32 := by
    refine (field_eq tss 32 32 (Nat.le_refl 32) (by decide)).trans ?_
    ext i bound
    simp
  simp only [Nat.reducePow, Nat.reduceSub] at baseMid0
  constructor
  · simp only [gdtInitialize, gdtCreateTSSEntry, TSSDescriptor.set, baseMid0, baseHigh, TSSDescriptor.mk.injEq]
    decide
  · refine (congrArg (fun size => decodeSystem (TSSDescriptor.set tss size 0 0).packed) limit).trans ?_
    rw [system_decoded]
    rfl

end LunaOS.DescriptorTables
