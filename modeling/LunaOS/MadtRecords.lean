import LunaOS.IoApic
import LunaOS.MadtParsing

/-! The whole of `madtParse` (`system/acpi/madt.cpp`) on tables that are a sequence of
records. The loop finds each record once and adds it in front of the list of its type, and
every I/O APIC found is registered with the fields of its record. -/
namespace LunaOS.MadtRecords
open ByteMemory BoundedLoop PageTables MadtParsing IoApic BitVec

/-- The bytes lie in the memory from an address on. -/
def Holds (mem : Memory) (base : Addr) (bytes : List Byte) : Prop :=
  ∀ (i : Nat) byte, bytes[i]? = some byte → mem (base + BitVec.ofNat 64 i) = byte

theorem holds_append (mem : Memory) (base : Addr) (front back : List Byte) : Holds mem base (front ++ back) ↔
      Holds mem base front ∧ Holds mem (base + BitVec.ofNat 64 front.length) back := by
  constructor
  · intro holds
    refine ⟨fun i byte found => holds i byte ?_, fun i byte found => ?_⟩
    · rw [List.getElem?_append_left (List.getElem?_eq_some_iff.mp found).1, found]
    · rw [BitVec.add_assoc, ← ofNat_add]
      refine holds _ byte ?_
      rw [List.getElem?_append_right (Nat.le_add_right _ i), Nat.add_sub_cancel_left, found]
  · rintro ⟨first, second⟩ i byte found
    by_cases inside : i < front.length
    · exact first i byte (by rwa [List.getElem?_append_left inside] at found)
    · rw [List.getElem?_append_right (Nat.not_lt.mp inside)] at found
      have here := second _ byte found
      rwa [BitVec.add_assoc, ← ofNat_add, Nat.add_sub_cancel' (Nat.not_lt.mp inside)] at here

/-- A memory that has the bytes from an address on. -/
def fromBytes (base : Addr) (bytes : List Byte) : Memory := fun address => bytes.getD (address - base).toNat 0

theorem holds_fromBytes (base : Addr) (short : bytes.length < 2 ^ 64) : Holds (fromBytes base bytes) base bytes := by
  intro i byte found
  have inside : i < bytes.length := (List.getElem?_eq_some_iff.mp found).1
  rw [fromBytes, add_sub_self, toNat_ofNat, Nat.mod_eq_of_lt (by omega), List.getD_eq_getElem?_getD, found]
  rfl

/-! ## The table -/

/-- The least length of a record: that of `k_madt_ioapic_entry` for an I/O APIC. Of every
other record only its header is read. -/
def leastLength (entryType : Byte) : Nat := if entryType = 1 then 12 else 2

/-- A record of the table, `contents` being what follows its type and its length. -/
structure Record where
  entryType : Byte
  contents : List Byte
  fits : contents.length + 2 < 256
  least : leastLength entryType ≤ contents.length + 2

namespace Record

def length (record : Record) : Nat := record.contents.length + 2

def bytes (record : Record) : List Byte :=
  record.entryType :: BitVec.ofNat 8 record.length :: record.contents

@[simp] theorem bytes_length (record : Record) : record.bytes.length = record.length := rfl

/-- Four bytes of a record, the lowest first. -/
def word (record : Record) (i : Nat) : BitVec 32 :=
  record.contents.getD (i + 3) 0 ++ record.contents.getD (i + 2) 0 ++ record.contents.getD (i + 1) 0 ++
    record.contents.getD i 0

/-- What an I/O APIC is registered with: the id is followed by a reserved byte, the address
and the base of its interrupts. -/
def ioapic (record : Record) : IoapicCall :=
  ⟨record.contents.getD 0 0, (record.word 2).setWidth 64, record.word 6⟩

end Record

/-- The records follow each other behind the header, up to the length it gives. -/
structure Table (mem : Memory) (madt : Addr) (records : List Record) : Prop where
  length : (headerLength mem madt).toNat = madtHdrSize + (records.flatMap Record.bytes).length
  contents : Holds mem (recordAddr madt 0) (records.flatMap Record.bytes)

/-- The records with their addresses. -/
def placed (base : Addr) : List Record → List (Addr × Record)
  | [] => []
  | record :: rest => (base, record) :: placed (base + BitVec.ofNat 64 record.length) rest

/-- The addresses of the records of a type, in the order of the table. -/
def ofType (entryType : Byte) (records : List (Addr × Record)) : List Addr :=
  (records.filter (·.2.entryType = entryType)).map Prod.fst

/-! ## The parser -/

/-- `madtParse` leaves its lists, and calls `ioapicAdd` and then `lapicPrepare`. -/
structure Parsed where
  lists : Entries
  ioapicAdd : List IoapicCall
  lapicPrepare : Addr
  deriving DecidableEq, Repr

/-- The arguments `madtParse` takes from a record of its `ioapicList`. -/
def ioapicCall (mem : Memory) (header : Addr) : IoapicCall :=
  ⟨mem (header + 2), (load32 mem (header + 4)).setWidth 64, load32 mem (header + 8)⟩

def madtParse (mem : Memory) (madt : Addr) (turns : Nat) (lists : Entries) : Option Parsed :=
  (iterate (parseTurn mem madt) turns (lists, 0)).map fun lists =>
    ⟨lists, lists.ioapicList.map (ioapicCall mem), (load32 mem (madt + 36)).setWidth 64⟩

/-! ## Exactness -/

/-- What the loop does with records, without the memory they are in. -/
def addAll (lists : Entries) (records : List (Addr × Record)) : Entries :=
  records.foldl (fun lists entry => lists.add entry.2.entryType entry.1) lists

theorem ofType_cons_of_eq {entry : Addr × Record} (same : entry.2.entryType = entryType) (rest : List (Addr × Record)) :
    ofType entryType (entry :: rest) = entry.1 :: ofType entryType rest := by
  rw [ofType, List.filter_cons_of_pos (by simpa using same), List.map_cons, ← ofType]

theorem ofType_cons_of_ne {entry : Addr × Record} (other : entry.2.entryType ≠ entryType)
    (rest : List (Addr × Record)) : ofType entryType (entry :: rest) = ofType entryType rest := by
  rw [ofType, List.filter_cons_of_neg (by simpa using other), ← ofType]

theorem addAll_eq (lists : Entries) (records : List (Addr × Record)) : addAll lists records =
      ⟨(ofType 0 records).reverse ++ lists.lapicList, (ofType 1 records).reverse ++ lists.ioapicList,
        (ofType 2 records).reverse ++ lists.ioapicInterruptSrcOverrideList⟩ := by
  induction records generalizing lists with
  | nil => rfl
  | cons entry rest ih =>
    rw [addAll, List.foldl_cons, ← addAll, ih, Entries.add]
    by_cases lapic : entry.2.entryType = 0
    · simp [ofType, lapic]
    by_cases controller : entry.2.entryType = 1
    · simp [ofType, controller]
    by_cases override : entry.2.entryType = 2
    · simp [ofType, override]
    · rw [if_neg lapic, if_neg controller, if_neg override, ofType_cons_of_ne lapic, ofType_cons_of_ne controller,
        ofType_cons_of_ne override]

theorem recordAddr_next (madt : Addr) (i length : BitVec 32) (room : i.toNat + length.toNat < 2 ^ 32) :
    recordAddr madt (i + length) = recordAddr madt i + length.setWidth 64 := by
  have sum : (i + length).setWidth 64 = i.setWidth 64 + length.setWidth 64 := by bv_omega
  rw [recordAddr, recordAddr, sum, ← BitVec.add_assoc]

/-- The loop goes through all records from `i` to the end, in order. -/
theorem iterate_records (room : madtHdrSize ≤ (headerLength mem madt).toNat) (lists : Entries)
    (ends : madtHdrSize + i.toNat + (records.flatMap Record.bytes).length = (headerLength mem madt).toNat)
    (holds : Holds mem (recordAddr madt i) (records.flatMap Record.bytes)) (enough : records.length < turns) :
    iterate (parseTurn mem madt) turns (lists, i) = some (addAll lists (placed (recordAddr madt i) records)) := by
  induction records generalizing i lists turns with
  | nil =>
    have past : ¬ i < madtLength mem madt := by
      rw [turn_again room]
      simp only [List.flatMap_nil, List.length_nil] at ends
      omega
    exact iterate_leave (parseTurn_leave past) enough
  | cons record rest ih =>
    obtain ⟨turns, rfl⟩ : ∃ before, turns = before + 1 := ⟨turns - 1, by simp at enough; omega⟩
    rw [List.flatMap_cons, List.length_append, Record.bytes_length] at ends
    rw [List.flatMap_cons, holds_append, Record.bytes_length] at holds
    have small := record.fits
    have here : i < madtLength mem madt := by
      rw [turn_again room]
      unfold Record.length at ends
      omega
    have kind : mem (recordAddr madt i) = record.entryType := by
      have first := holds.1 0 record.entryType rfl
      rwa [BitVec.add_zero] at first
    have stride : (recordLength mem madt i).setWidth 32 = BitVec.ofNat 32 record.length := by
      rw [recordLength]
      have second : mem (recordAddr madt i + 1) = BitVec.ofNat 8 record.length := holds.1 1 _ rfl
      rw [second]
      apply eq_of_toNat_eq
      simp only [toNat_setWidth, toNat_ofNat, Record.length]
      omega
    have length : (BitVec.ofNat 32 record.length).toNat = record.length := by
      rw [toNat_ofNat, Record.length]
      omega
    have wide : (BitVec.ofNat 32 record.length).setWidth 64 = BitVec.ofNat 64 record.length := by
      apply eq_of_toNat_eq
      simp only [toNat_setWidth, toNat_ofNat, Record.length]
      omega
    -- the records end within the 32 bits of the header's length, so the stride does not wrap around
    have next : recordAddr madt (i + BitVec.ofNat 32 record.length) =
        recordAddr madt i + BitVec.ofNat 64 record.length := by
      rw [recordAddr_next madt i _ (by omega), wide]
    rw [iterate_again (parseTurn_again here), kind, stride]
    rw [ih _ (by rw [toNat_add, length]; omega) (next ▸ holds.2) (by simpa using enough), next]
    rfl

theorem holds_contents {record : Record} (holds : Holds mem base record.bytes) (i : Nat)
    (inside : i < record.contents.length) : mem (base + BitVec.ofNat 64 (i + 2)) = record.contents.getD i 0 := by
  refine holds (i + 2) _ ?_
  rw [Record.bytes, List.getElem?_cons_succ, List.getElem?_cons_succ, List.getD_eq_getElem?_getD,
    List.getElem?_eq_getElem inside]
  rfl

/-- The fields of an I/O APIC are read from its record. -/
theorem ioapicCall_eq {record : Record} (holds : Holds mem base record.bytes) (kind : record.entryType = 1) :
    ioapicCall mem base = record.ioapic := by
  have long : 10 ≤ record.contents.length := by
    have least := record.least
    rw [leastLength, if_pos kind] at least
    omega
  have word (i : Nat) (inside : i + 4 ≤ record.contents.length) :
      load32 mem (base + BitVec.ofNat 64 (i + 2)) = record.word i := by
    rw [load32, Record.word, ← holds_contents holds i (by omega), ← holds_contents holds (i + 1) (by omega),
      ← holds_contents holds (i + 2) (by omega), ← holds_contents holds (i + 3) (by omega)]
    simp only [ofNat_add, BitVec.add_assoc]
    rfl
  have id := holds_contents holds 0 (by omega)
  have address := word 2 (by omega)
  have interrupts := word 6 (by omega)
  rw [ioapicCall, Record.ioapic, ← id, ← address, ← interrupts]
  rfl

theorem ioapicCalls_eq (holds : Holds mem base (records.flatMap Record.bytes)) :
    (ofType 1 (placed base records)).map (ioapicCall mem) = (records.filter (·.entryType = 1)).map Record.ioapic := by
  induction records generalizing base with
  | nil => rfl
  | cons record rest ih =>
    rw [List.flatMap_cons, holds_append, Record.bytes_length] at holds
    by_cases kind : record.entryType = 1
    · rw [placed, ofType_cons_of_eq kind, List.filter_cons_of_pos (by simpa using kind), List.map_cons, List.map_cons,
        ih holds.2, ioapicCall_eq holds.1 kind]
    · rw [placed, ofType_cons_of_ne kind, List.filter_cons_of_neg (by simpa using kind), ih holds.2]

theorem iterate_table (table : Table mem madt records) (enough : records.length < turns) :
    iterate (parseTurn mem madt) turns (⟨[], [], []⟩, 0) = some
      ⟨(ofType 0 (placed (recordAddr madt 0) records)).reverse, (ofType 1 (placed (recordAddr madt 0) records)).reverse,
        (ofType 2 (placed (recordAddr madt 0) records)).reverse⟩ := by
  have room : madtHdrSize ≤ (headerLength mem madt).toNat := by
    rw [table.length]
    exact Nat.le_add_right _ _
  have ends : madtHdrSize + (0 : BitVec 32).toNat + (records.flatMap Record.bytes).length =
      (headerLength mem madt).toNat := table.length.symm
  rw [iterate_records room _ ends table.contents enough, addAll_eq]
  simp only [List.append_nil]

/-- The lists have the records of their types, the last of the table first, and each I/O
APIC is registered once, with what its record says. -/
theorem madtParse_exact (mem : Memory) (madt : Addr) (records : List Record) (turns : Nat)
    (table : Table mem madt records) (enough : records.length < turns) : madtParse mem madt turns ⟨[], [], []⟩ = some
      { lists :=
          { lapicList := (ofType 0 (placed (recordAddr madt 0) records)).reverse
            ioapicList := (ofType 1 (placed (recordAddr madt 0) records)).reverse
            ioapicInterruptSrcOverrideList := (ofType 2 (placed (recordAddr madt 0) records)).reverse }
        ioapicAdd := ((records.filter (·.entryType = 1)).map Record.ioapic).reverse
        lapicPrepare := (load32 mem (madt + 36)).setWidth 64 } := by
  rw [madtParse, iterate_table table enough]
  simp only [Option.map_some, List.map_reverse, ioapicCalls_eq table.contents]

/-- The records of a processor, of two I/O APICs, and of an unknown type. -/
def smallRecords : List Record :=
  [⟨0, [0, 0, 1, 0, 0, 0], by decide, by decide⟩, ⟨1, [2, 0, 0, 0, 0xC0, 0xFE, 24, 0, 0, 0], by decide, by decide⟩,
    ⟨9, [], by decide, by decide⟩, ⟨1, [3, 0, 0, 0x10, 0xC0, 0xFE, 48, 0, 0, 0], by decide, by decide⟩]

def smallMadt : Memory :=
  fromBytes 0x1000 ([0, 0, 0, 0, 78, 0, 0, 0] ++ List.replicate 36 0 ++ smallRecords.flatMap Record.bytes)

theorem smallMadt_table : Table smallMadt 0x1000 smallRecords :=
  ⟨by decide, ((holds_append _ _ _ _).mp (holds_fromBytes 0x1000 (by decide))).2⟩

theorem madtParse_exact_small : Table smallMadt 0x1000 smallRecords ∧
    (madtParse smallMadt 0x1000 5 ⟨[], [], []⟩).map Parsed.ioapicAdd =
      some [⟨3, 0xFEC01000, 48⟩, ⟨2, 0xFEC00000, 24⟩] := by
  refine ⟨smallMadt_table, ?_⟩
  rw [madtParse_exact smallMadt 0x1000 smallRecords 5 smallMadt_table (by decide)]
  decide

/-- After the parse the controllers are registered in the order of the table. -/
theorem registered_in_order {alloc : FrameAllocator σ} {state : Interrupts σ}
    (table : Table mem madt records) (enough : records.length < turns)
    (parsed : madtParse mem madt turns ⟨[], [], []⟩ = some result)
    (added : result.ioapicAdd.foldlM (ioapicAdd alloc pml4Addr) state = some next) :
    next.ioapicHead.map (fun ioapic => (ioapic.id, ioapic.globalSystemInterruptBase)) =
      ((records.filter (·.entryType = 1)).map fun record =>
        (record.ioapic.id, record.ioapic.globalSystemInterruptBase)) ++
          state.ioapicHead.map fun ioapic => (ioapic.id, ioapic.globalSystemInterruptBase) := by
  rw [madtParse, iterate_table table enough] at parsed
  cases parsed
  simp only [ioapicAdd_all added, List.map_reverse, ioapicCalls_eq table.contents, List.reverse_reverse, List.map_map,
    Function.comp_def]

/-- The kernel before the small table is read, with one controller and four pages of addresses. -/
def unregistered : Interrupts Unit :=
  ⟨⟨fun _ => 0, ()⟩, [⟨0xFFFF800000000000, 4, false⟩], [⟨1, 0xFFFF800000010000, 0, 24⟩], fun _ => ⟨0, fun _ => 0, []⟩⟩

theorem registered_in_order_small : ∃ result next, madtParse smallMadt 0x1000 5 ⟨[], [], []⟩ = some result ∧
    result.ioapicAdd.foldlM (ioapicAdd ⟨fun frames => (0, frames), fun frames _ => frames⟩ 0x1000) unregistered =
      some next ∧ next.ioapicHead.map (fun ioapic => (ioapic.id, ioapic.globalSystemInterruptBase)) =
        [(2, 24), (3, 48), (1, 0)] := by
  have found := iterate_table smallMadt_table (show smallRecords.length < 5 by decide)
  obtain ⟨result, parsed, calls⟩ : ∃ result, madtParse smallMadt 0x1000 5 ⟨[], [], []⟩ = some result ∧
      result.ioapicAdd = [⟨3, 0xFEC01000, 48⟩, ⟨2, 0xFEC00000, 24⟩] := ⟨_, congrArg (Option.map _) found, by decide⟩
  have added : ∃ next, result.ioapicAdd.foldlM
      (ioapicAdd ⟨fun frames => (0, frames), fun frames _ => frames⟩ 0x1000) unregistered = some next := by
    rw [calls]
    exact ⟨_, rfl⟩
  obtain ⟨next, added⟩ := added
  exact ⟨result, next, parsed, added, registered_in_order smallMadt_table (by decide) parsed added⟩

end LunaOS.MadtRecords
