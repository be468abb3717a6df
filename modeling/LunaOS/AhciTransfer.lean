import LunaOS.AhciPort
import Mathlib.Algebra.GroupWithZero.Nat

/-! What a command asks the drive for. The list of a transfer names one byte more
than its sectors have, for every count; the frame holds the sector that was asked
for, and the count that was asked for only if the list has a single entry. -/
namespace LunaOS.AhciTransfer
open ByteMemory PageTables AhciPort BitVec

/-! ## The list -/

/-- Where the data of an entry is. -/
def PrdtEntry.address (entry : PrdtEntry) : Addr := entry.dbau ++ entry.dba

/-- The addresses of an entry: its byte count is one less than their number. -/
def entryBytes (entry : PrdtEntry) : List Addr :=
  (List.range (entry.dbc.toNat + 1)).map fun k => PrdtEntry.address entry + BitVec.ofNat 64 k

/-- The entries of a list laid end to end. -/
def layout (header : CmdHeader) (table : CmdTable) : List Addr :=
  (List.range header.prdtl.toNat).flatMap fun i => entryBytes (table.prdtEntry i)

/-- A list that covers exactly the sectors at `buf`. -/
structure CoversBuffer (mem : Memory) (pml4Addr buf : Addr) (count : Nat) (header : CmdHeader) (table : CmdTable) :
    Prop where
  fits : prdtOffset + prdtEntrySize * header.prdtl.toNat ≤ cmdTableSize
  total : ((List.range header.prdtl.toNat).map fun i => (table.prdtEntry i).dbc.toNat + 1).sum = count * 512
  bytes : ∀ j < count * 512, (layout header table)[j]? =
    some (pagingVirtualToPhysical mem pml4Addr (buf + BitVec.ofNat 64 j))

/-- After some full entries. -/
theorem scatter_turns (prdtEntry : Nat → PrdtEntry) (bufferPhysical : Addr) (count : BitVec 32) (turns : Nat) :
    (List.range turns).foldl scatterTurn ⟨prdtEntry, bufferPhysical, count⟩ =
      ⟨fun i => if i < turns then entryFor (bufferPhysical + BitVec.ofNat 64 (4096 * i)) (8 * 1024 - 1) else prdtEntry i,
        bufferPhysical + BitVec.ofNat 64 (4096 * turns), count - BitVec.ofNat 32 (16 * turns)⟩ := by
  induction turns with
  | zero => simp
  | succ turns ih =>
    rw [List.range_succ, List.foldl_append, ih, List.foldl_cons, List.foldl_nil, scatterTurn]
    rw [Cursor.mk.injEq]
    refine ⟨?_, ?_, ?_⟩
    · funext i
      by_cases here : i = turns
      · subst here
        simp
      · rw [Function.update_of_ne here]
        exact if_congr (by omega) rfl rfl
    · rw [show (4 * 1024 : BitVec 64) = BitVec.ofNat 64 4096 by decide, BitVec.add_assoc, ← ofNat_add, Nat.mul_succ]
    · rw [show (16 : BitVec 32) = BitVec.ofNat 32 16 from rfl, BitVec.sub_sub, ← ofNat_add, Nat.mul_succ]

theorem prdtLength_toNat (some : 1 ≤ count.toNat) (few : count.toNat ≤ 128) :
    (prdtLength count).toNat = (count.toNat - 1) / 16 + 1 := by
  have less : (count - 1).toNat = count.toNat - 1 := by
    rw [toNat_sub_of_le (by rw [le_def]; exact some)]
    rfl
  rw [prdtLength, toNat_add, toNat_setWidth, toNat_ushiftRight, less,
    Nat.shiftRight_eq_div_pow, show (1 : BitVec 16).toNat = 1 from rfl]
  omega

/-- The count that is left when all but the last entry are full. -/
theorem scatter_count (prdtEntry : Nat → PrdtEntry) (bufferPhysical : Addr) (some : 1 ≤ count.toNat)
    (few : count.toNat ≤ 128) :
    (scatter prdtEntry bufferPhysical count).count.toNat = (count.toNat - 1) % 16 + 1 := by
  have length := prdtLength_toNat some few
  rw [scatter, scatter_turns]
  rw [toNat_sub, toNat_ofNat, length]
  omega

theorem scatter_total (prdtEntry : Nat → PrdtEntry) (bufferPhysical : Addr) (some : 1 ≤ count.toNat)
    (few : count.toNat ≤ 128) : ((List.range (prdtLength count).toNat).map fun i =>
      ((scatter prdtEntry bufferPhysical count).prdtEntry i).dbc.toNat + 1).sum = count.toNat * 512 + 1 := by
  have length := prdtLength_toNat some few
  have left := scatter_count prdtEntry bufferPhysical some few
  obtain ⟨full, parts⟩ : ∃ full, (prdtLength count).toNat = full + 1 := ⟨_, length⟩
  have early : (List.range full).map (fun i => ((scatter prdtEntry bufferPhysical count).prdtEntry i).dbc.toNat + 1) =
      (List.range full).map fun _ => 8192 := by
    refine List.map_congr_left fun i member => ?_
    have below := List.mem_range.mp member
    rw [scatter, scatter_turns, parts, Nat.add_sub_cancel]
    dsimp only
    rw [Function.update_of_ne (by omega), if_pos below]
    rfl
  have last : ((scatter prdtEntry bufferPhysical count).prdtEntry full).dbc.toNat =
      (scatter prdtEntry bufferPhysical count).count.toNat * 512 := by
    rw [scatter] at left ⊢
    rw [parts, Nat.add_sub_cancel] at left ⊢
    dsimp only at left ⊢
    rw [Function.update_self]
    simp only [entryFor, toNat_setWidth, toNat_shiftLeft, Nat.shiftLeft_eq]
    omega
  rw [parts, List.range_succ, List.map_append, early, List.sum_append, List.map_const', List.sum_replicate_nat]
  simp only [List.map_cons, List.map_nil, List.sum_cons, List.sum_nil, List.length_range, last, left]
  omega

/-! ## Commands -/

/-- The command that a transfer issues. -/
def issuedCommand (outcome : Outcome) : Option (CmdHeader × CmdTable) :=
  outcome.issued.map fun slot => (outcome.port.virtualCLB slot, outcome.port.virtualCTBs slot)

/-- A command as it is prepared, over the entries of an earlier one. -/
structure Prepared (w : BitVec 1) (command : BitVec 8) (bufferPhysical : Addr) (startl starth count : BitVec 32)
    (header : CmdHeader) (table : CmdTable) : Prop where
  header : header = ⟨5, w, 1, 1, prdtLength count⟩
  table : ∃ old, table = ⟨commandFis command startl starth (scatter old bufferPhysical count).count,
    (scatter old bufferPhysical count).prdtEntry⟩

section Requests
variable {port : Port} {hba : HbaPort} {turns : Nat} {mem : Memory} {pml4Addr buf : Addr}
  {startl starth count : BitVec 32} {header : CmdHeader} {table : CmdTable}

theorem transfer_prepared
    (issued : issuedCommand (transfer port hba turns w command mem pml4Addr startl starth count buf) =
      some (header, table)) :
    Prepared w command (pagingVirtualToPhysical mem pml4Addr buf) startl starth count header table := by
  simp only [transfer] at issued
  split at issued
  · cases issued
  · split at issued
    · cases issued
    · simp only [issuedCommand, prepare, Function.update_self, Option.map_some, Option.some.injEq, Prod.mk.injEq]
        at issued
      obtain ⟨rfl, rfl⟩ := issued
      exact ⟨rfl, _, rfl⟩

theorem read_prepared
    (issued : issuedCommand (port.read hba turns mem pml4Addr startl starth count buf) = some (header, table)) :
    Prepared 0 ataCmdReadDmaEx (pagingVirtualToPhysical mem pml4Addr buf) startl starth count header table :=
  transfer_prepared issued

theorem write_prepared
    (issued : issuedCommand (port.write hba turns mem pml4Addr startl starth count buf) = some (header, table)) :
    Prepared 1 ataCmdWriteDmaEx (pagingVirtualToPhysical mem pml4Addr buf) startl starth count header table := by
  simp only [Port.write] at issued
  split at issued <;> exact transfer_prepared issued

theorem prepared_list (prepared : Prepared w command bufferPhysical startl starth count header table)
    (some : 1 ≤ count.toNat) (few : count.toNat ≤ 128) :
    prdtOffset + prdtEntrySize * header.prdtl.toNat ≤ cmdTableSize ∧
      ((List.range header.prdtl.toNat).map fun i => (table.prdtEntry i).dbc.toNat + 1).sum = count.toNat * 512 + 1 := by
  obtain ⟨rfl, old, rfl⟩ := prepared
  refine ⟨?_, scatter_total old bufferPhysical some few⟩
  rw [prdtLength_toNat some few, prdtOffset, prdtEntrySize, cmdTableSize]
  omega

/-- The list of a read or a write fits the table of its slot, and names one byte more
than the sectors have: no list covers the buffer exactly. -/
theorem list_never_covers (port : Port) (hba : HbaPort) (turns : Nat) (mem : Memory) (pml4Addr buf : Addr)
    (startl starth count : BitVec 32) (some : 1 ≤ count.toNat) (few : count.toNat ≤ 128) (header : CmdHeader)
    (table : CmdTable)
    (issued : issuedCommand (port.read hba turns mem pml4Addr startl starth count buf) = .some (header, table) ∨
      issuedCommand (port.write hba turns mem pml4Addr startl starth count buf) = .some (header, table)) :
    prdtOffset + prdtEntrySize * header.prdtl.toNat ≤ cmdTableSize ∧
      ((List.range header.prdtl.toNat).map fun i => (table.prdtEntry i).dbc.toNat + 1).sum = count.toNat * 512 + 1 ∧
      ¬ CoversBuffer mem pml4Addr buf count.toNat header table := by
  have facts : prdtOffset + prdtEntrySize * header.prdtl.toNat ≤ cmdTableSize ∧
      ((List.range header.prdtl.toNat).map fun i => (table.prdtEntry i).dbc.toNat + 1).sum = count.toNat * 512 + 1 := by
    rcases issued with issued | issued
    · exact prepared_list (read_prepared issued) some few
    · exact prepared_list (write_prepared issued) some few
  refine ⟨facts.1, facts.2, fun covers => ?_⟩
  have total := covers.total
  omega

/-! ## The frame -/

/-- The sector of a frame. -/
def decodedLba (fis : FisRegH2D) : Nat :=
  fis.lba0.toNat + 2 ^ 8 * fis.lba1.toNat + 2 ^ 16 * fis.lba2.toNat + 2 ^ 24 * fis.lba3.toNat +
    2 ^ 32 * fis.lba4.toNat + 2 ^ 40 * fis.lba5.toNat

/-- The sector count of a frame. -/
def decodedCount (fis : FisRegH2D) : Nat := fis.countl.toNat + 2 ^ 8 * fis.counth.toNat

/-- A command that says what was asked for. -/
structure Encodes (command : BitVec 8) (w : BitVec 1) (sector count : Nat) (header : CmdHeader) (table : CmdTable) :
    Prop where
  lba : decodedLba table.cfis = sector
  count : decodedCount table.cfis = count
  command : table.cfis.command = command
  direction : header.w = w

theorem lba_sector (command : BitVec 8) (count : BitVec 32) {sector : BitVec 64} (small : sector.toNat < 2 ^ 48) :
    decodedLba (commandFis command (sector.setWidth 32) ((sector >>> 32).setWidth 32) count) = sector.toNat := by
  simp only [decodedLba, commandFis, toNat_setWidth, toNat_ushiftRight, Nat.shiftRight_eq_div_pow]
  omega

theorem count_fis (command : BitVec 8) (startl starth : BitVec 32) {count : BitVec 32} (small : count.toNat < 2 ^ 16) :
    decodedCount (commandFis command startl starth count) = count.toNat := by
  have low : count.toNat &&& 255 = count.toNat % 2 ^ 8 := Nat.and_two_pow_sub_one_eq_mod count.toNat 8
  simp only [decodedCount, commandFis, toNat_setWidth, toNat_ushiftRight, Nat.shiftRight_eq_div_pow,
    toNat_and, show (0xff : BitVec 32).toNat = 255 from rfl, low]
  omega

/-- What the frame of a command says. -/
theorem prepared_encodes_iff {sector : BitVec 64} (small : sector.toNat < 2 ^ 48)
    (prepared : Prepared w command bufferPhysical (sector.setWidth 32) ((sector >>> 32).setWidth 32) count header table)
    (some : 1 ≤ count.toNat) (few : count.toNat ≤ 128) :
    Encodes command w sector.toNat count.toNat header table ↔ count.toNat ≤ 16 := by
  obtain ⟨rfl, old, rfl⟩ := prepared
  have left := scatter_count old bufferPhysical some few
  have count := count_fis command (sector.setWidth 32) ((sector >>> 32).setWidth 32)
    (show (scatter old bufferPhysical count).count.toNat < 2 ^ 16 by omega)
  constructor
  · intro encodes
    have same := encodes.count
    dsimp only at same
    omega
  · intro single
    exact ⟨lba_sector command _ small, count.trans (by omega), rfl, rfl⟩

end Requests

theorem onPort_some {outcome : Outcome} (answered : onPort ports drive sector buf request = some outcome) :
    ∃ port, outcome = request port (sector.setWidth 32) ((sector >>> 32).setWidth 32) := by
  rw [onPort] at answered
  split at answered
  · cases answered
  · split at answered
    · cases answered
    · exact ⟨_, (Option.some.inj answered).symm⟩

/-- A command of the driver encodes the request exactly for up to 16 sectors. -/
theorem fis_encodes_iff (ports : List Port) (drive : BitVec 8) (hba : HbaPort) (turns : Nat) (mem : Memory)
    (pml4Addr buf : Addr) (sector : BitVec 64) (small : sector.toNat < 2 ^ 48) (count : BitVec 32)
    (some : 1 ≤ count.toNat) (few : count.toNat ≤ 128) (outcome : Outcome) (header : CmdHeader) (table : CmdTable)
    (issued : issuedCommand outcome = .some (header, table)) :
    (driverRead ports drive hba turns mem pml4Addr sector count buf = .some outcome →
        (Encodes ataCmdReadDmaEx 0 sector.toNat count.toNat header table ↔ count.toNat ≤ 16)) ∧
      (driverWrite ports drive hba turns mem pml4Addr sector count buf = .some outcome →
        (Encodes ataCmdWriteDmaEx 1 sector.toNat count.toNat header table ↔ count.toNat ≤ 16)) := by
  constructor
  · intro answered
    obtain ⟨port, rfl⟩ := onPort_some answered
    exact prepared_encodes_iff small (read_prepared issued) some few
  · intro answered
    obtain ⟨port, rfl⟩ := onPort_some answered
    exact prepared_encodes_iff small (write_prepared issued) some few

/-! ## A drive that is ready -/

def blankTable : CmdTable := ⟨⟨0, 0, 0, 0, 0, 0, 0, 0, 0, 0, 0, 0⟩, fun _ => ⟨0, 0, 0, 0⟩⟩

def readyPort : Port := ⟨16, true, false, 0, fun _ => ⟨0, 0, 0, 0, 8⟩, fun _ => blankTable⟩

/-- A controller that is idle and ends every command at once. -/
def idleHba : HbaPort := ⟨0, 0, fun _ => 0x50, fun _ => (0, 0)⟩

/-- Tables at 0x1000 that map the page 0x5000 to the frame 0x9000. -/
def mappedMemory : Memory :=
  [(0x1000, 0x2003), (0x2000, 0x3003), (0x3000, 0x4003), (0x4028, 0x9003)].foldl
    (fun mem (place, entry) => store64 mem place entry) fun _ => 0

def oneSector : Outcome := readyPort.read idleHba 1 mappedMemory 0x1000 7 0 1 0x5000

theorem list_never_covers_sector : ∃ header table, issuedCommand oneSector = some (header, table) ∧
    ¬ CoversBuffer mappedMemory 0x1000 0x5000 1 header table := by
  have issued : issuedCommand oneSector = some (oneSector.port.virtualCLB 0, oneSector.port.virtualCTBs 0) := rfl
  exact ⟨_, _, issued, (list_never_covers readyPort idleHba 1 mappedMemory 0x1000 0x5000 7 0 1 (by decide) (by decide) _ _
    (.inl issued)).2.2⟩

/-- One sector read to a mapped page: its single entry names 513 bytes. -/
theorem sector_overrun : ∃ header table, issuedCommand oneSector = some (header, table) ∧
    pagingVirtualToPhysical mappedMemory 0x1000 0x5000 = 0x9000 ∧
    pagingVirtualToPhysical mappedMemory 0x1000 0x51ff = 0x91ff ∧
    header.prdtl = 1 ∧ table.prdtEntry 0 = ⟨0x9000, 0, 512, 0⟩ ∧ (layout header table).length = 513 := by
  refine ⟨oneSector.port.virtualCLB 0, oneSector.port.virtualCTBs 0, rfl, ?_⟩
  decide +kernel

def severalSectors (count : BitVec 32) : Option Outcome :=
  driverRead [readyPort] 0 idleHba 1 mappedMemory 0x1000 0x123456789abc count 0x5000

theorem fis_encodes_iff_sixteen : ∃ outcome header table, severalSectors 16 = some outcome ∧
    issuedCommand outcome = some (header, table) ∧ Encodes ataCmdReadDmaEx 0 0x123456789abc 16 header table := by
  let outcome := { readyPort with buffer := 0x5000 }.read idleHba 1 mappedMemory 0x1000 0x56789abc 0x1234 16 0x5000
  have issued : issuedCommand outcome = some (outcome.port.virtualCLB 0, outcome.port.virtualCTBs 0) := rfl
  refine ⟨outcome, _, _, rfl, issued, ?_⟩
  exact ((fis_encodes_iff [readyPort] 0 idleHba 1 mappedMemory 0x1000 0x5000 0x123456789abc (by decide) 16 (by decide)
    (by decide) outcome _ _ issued).1 rfl).mpr (by decide)

/-- Seventeen sectors are asked for, and the frame says one. -/
theorem seventeen_sectors_encoded_as_one : ∃ outcome header table, severalSectors 17 = some outcome ∧
    issuedCommand outcome = some (header, table) ∧ decodedLba table.cfis = 0x123456789abc ∧
    decodedCount table.cfis = 1 := by
  let outcome := { readyPort with buffer := 0x5000 }.read idleHba 1 mappedMemory 0x1000 0x56789abc 0x1234 17 0x5000
  refine ⟨outcome, outcome.port.virtualCLB 0, outcome.port.virtualCTBs 0, rfl, rfl, ?_⟩
  decide +kernel

end LunaOS.AhciTransfer
