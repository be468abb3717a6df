import LunaOS.BoundedLoop
import LunaOS.PageTables

/-! Reading and writing a drive (`storage/ahci/ahci.cpp`): a command is a header
in the command list of the port and a table with the frame for the drive and the
list of the memory it transfers. What the controller does between two reads of
its registers is given by the values read. -/
namespace LunaOS.AhciPort
open ByteMemory BoundedLoop PageTables

/-- `FIS_REG_H2D`, the fields that are set. -/
structure FisRegH2D where
  fisType : BitVec 8
  c : BitVec 1
  command : BitVec 8
  lba0 : BitVec 8
  lba1 : BitVec 8
  lba2 : BitVec 8
  device : BitVec 8
  lba3 : BitVec 8
  lba4 : BitVec 8
  lba5 : BitVec 8
  countl : BitVec 8
  counth : BitVec 8
  deriving DecidableEq, Repr

/-- `k_HBA_cmd_header`, the fields that are set. -/
structure CmdHeader where
  cfl : BitVec 5
  w : BitVec 1
  c : BitVec 1
  p : BitVec 1
  prdtl : BitVec 16
  deriving DecidableEq, Repr

/-- `k_HBA_prdt_entry` -/
structure PrdtEntry where
  dba : BitVec 32
  dbau : BitVec 32
  dbc : BitVec 22
  i : BitVec 1
  deriving DecidableEq, Repr

/-- `sizeof(k_HBA_prdt_entry)` -/
def prdtEntrySize : Nat := 16
/-- The place of `prdt_entry` in `k_HBA_cmd_table`. -/
def prdtOffset : Nat := 0x80
/-- The distance of two command tables of a port. -/
def cmdTableSize : Nat := 256

/-- `k_HBA_cmd_table`; the entries go on behind the declared one. -/
structure CmdTable where
  cfis : FisRegH2D
  prdtEntry : Nat → PrdtEntry

/-- `k_ahci_port`, with the command list and the command tables it points to. -/
structure Port where
  cmdSlots : Nat
  initialized : Bool
  inWrite : Bool
  buffer : Addr
  virtualCLB : Nat → CmdHeader
  virtualCTBs : Nat → CmdTable

/-- What the registers of a port read: `sact` and `ci` when a slot is looked for,
`tfd` while the port is waited for, `ci` and `is` after the command is issued. -/
structure HbaPort where
  sact : BitVec 32
  ci : BitVec 32
  tfd : Nat → BitVec 32
  polls : Nat → BitVec 32 × BitVec 32

/-- `FIS_TYPE_REG_H2D` -/
def fisTypeRegH2D : BitVec 8 := 0x27
/-- `ATA_CMD_READ_DMA_EX` -/
def ataCmdReadDmaEx : BitVec 8 := 0x25
/-- `ATA_CMD_WRITE_DMA_EX` -/
def ataCmdWriteDmaEx : BitVec 8 := 0x35
/-- `ATA_DEV_BUSY | ATA_DEV_DRQ` -/
def ataDevWaits : BitVec 32 := 0x88
/-- `HBA_PxIS_TFES` -/
def hbaPxIsTfes : BitVec 32 := 1 <<< 30

/-! ## The command -/

/-- `k_ahci_port::findCMDslot` -/
def findCMDslot (port : Port) (hba : HbaPort) : Option Nat :=
  (List.range port.cmdSlots).find? fun i => ((hba.sact ||| hba.ci) >>> i) &&& 1 == 0

def entryFor (bufferPhysical : Addr) (dbc : BitVec 22) : PrdtEntry where
  dba := (bufferPhysical &&& 0xFFFFFFFF).setWidth 32
  dbau := ((bufferPhysical >>> 32) &&& 0xFFFFFFFF).setWidth 32
  dbc := dbc
  i := 0

/-- The locals of the loop over the entries. -/
structure Cursor where
  prdtEntry : Nat → PrdtEntry
  bufferPhysical : Addr
  count : BitVec 32

/-- One entry of 8 KiB: the physical address goes on by 4 KiB. -/
def scatterTurn (cursor : Cursor) (i : Nat) : Cursor where
  prdtEntry := Function.update cursor.prdtEntry i (entryFor cursor.bufferPhysical (8 * 1024 - 1))
  bufferPhysical := cursor.bufferPhysical + 4 * 1024
  count := cursor.count - 16

/-- The length of the list, as the header gets it. -/
def prdtLength (count : BitVec 32) : BitVec 16 := ((count - 1) >>> 4).setWidth 16 + 1

/-- The list of the memory of a transfer, and the count that is left. -/
def scatter (prdtEntry : Nat → PrdtEntry) (bufferPhysical : Addr) (count : BitVec 32) : Cursor :=
  let i := (prdtLength count).toNat - 1
  let cursor := (List.range i).foldl scatterTurn ⟨prdtEntry, bufferPhysical, count⟩
  { cursor with
    prdtEntry := Function.update cursor.prdtEntry i
      (entryFor cursor.bufferPhysical ((cursor.count <<< 9).setWidth 22)) }

/-- The frame of a command. -/
def commandFis (command : BitVec 8) (startl starth count : BitVec 32) : FisRegH2D where
  fisType := fisTypeRegH2D
  c := 1
  command := command
  lba0 := startl.setWidth 8
  lba1 := (startl >>> 8).setWidth 8
  lba2 := (startl >>> 16).setWidth 8
  device := 1 <<< 6
  lba3 := (startl >>> 24).setWidth 8
  lba4 := starth.setWidth 8
  lba5 := (starth >>> 8).setWidth 8
  countl := (count &&& 0xff).setWidth 8
  counth := (count >>> 8).setWidth 8

/-- The header and the table of a command, in its slot. The frame takes the count
that the list has left. -/
def prepare (port : Port) (slot : Nat) (w : BitVec 1) (command : BitVec 8) (bufferPhysical : Addr)
    (startl starth count : BitVec 32) : Port :=
  let cursor := scatter (port.virtualCTBs slot).prdtEntry bufferPhysical count
  { port with
    virtualCLB := Function.update port.virtualCLB slot ⟨5, w, 1, 1, prdtLength count⟩
    virtualCTBs := Function.update port.virtualCTBs slot
      ⟨commandFis command startl starth cursor.count, cursor.prdtEntry⟩ }

/-! ## The port -/

/-- A turn of the wait for the port. -/
def spinTurn (hba : HbaPort) (spin : Nat) : Turn Nat Nat :=
  if hba.tfd spin &&& ataDevWaits != 0 && spin < 1000000 then .again (spin + 1) else .leave spin

/-- The port stays busy for all the turns. -/
def hung (hba : HbaPort) : Bool := iterate (spinTurn hba) 1000001 0 == some 1000000

/-- A turn of the wait for the command. -/
def pollTurn (hba : HbaPort) (slot poll : Nat) : Turn Nat Bool :=
  let (ci, is) := hba.polls poll
  if ci &&& (1 <<< slot) == 0 then .leave (is &&& hbaPxIsTfes == 0)
  else if is &&& hbaPxIsTfes != 0 then .leave false
  else .again (poll + 1)

/-- What a transfer ends with: its result, if the wait for it ends within `turns`
turns, the port, and the slot of the command if one was issued. -/
structure Outcome where
  result : Option Bool
  port : Port
  issued : Option Nat

/-- What `read` and `write` of a port have in common. -/
def transfer (port : Port) (hba : HbaPort) (turns : Nat) (w : BitVec 1) (command : BitVec 8) (mem : Memory)
    (pml4Addr : Addr) (startl starth count : BitVec 32) (buf : Addr) : Outcome :=
  match findCMDslot port hba with
  | none => ⟨some false, port, none⟩
  | some slot =>
    let port := prepare port slot w command (pagingVirtualToPhysical mem pml4Addr buf) startl starth count
    if hung hba then ⟨some false, port, none⟩
    else ⟨iterate (pollTurn hba slot) turns 0, port, some slot⟩

/-- `k_ahci_port::read` -/
def Port.read (port : Port) (hba : HbaPort) (turns : Nat) (mem : Memory) (pml4Addr : Addr)
    (startl starth count : BitVec 32) (buf : Addr) : Outcome :=
  transfer port hba turns 0 ataCmdReadDmaEx mem pml4Addr startl starth count buf

/-- `k_ahci_port::write`: `inWrite` stays set when the write fails. -/
def Port.write (port : Port) (hba : HbaPort) (turns : Nat) (mem : Memory) (pml4Addr : Addr)
    (startl starth count : BitVec 32) (buf : Addr) : Outcome :=
  let outcome := transfer { port with inWrite := true } hba turns 1 ataCmdWriteDmaEx mem pml4Addr startl starth
    count buf
  if outcome.result = some true then { outcome with port := { outcome.port with inWrite := false } } else outcome

/-! ## The driver -/

/-- The checks of the driver, and the two halves of the sector. -/
def onPort (ports : List Port) (drive : BitVec 8) (sector : BitVec 64) (buf : Addr)
    (request : Port → BitVec 32 → BitVec 32 → Outcome) : Option Outcome :=
  match ports[drive.toNat]? with
  | none => none
  | some port =>
    if !port.initialized then none
    else some (request { port with buffer := buf } (sector.setWidth 32) ((sector >>> 32).setWidth 32))

/-- `k_ahci_driver::read`; no outcome when it answers false at once. -/
def driverRead (ports : List Port) (drive : BitVec 8) (hba : HbaPort) (turns : Nat) (mem : Memory) (pml4Addr : Addr)
    (sector : BitVec 64) (count : BitVec 32) (buf : Addr) : Option Outcome :=
  onPort ports drive sector buf fun port sectorl sectorh =>
    port.read hba turns mem pml4Addr sectorl sectorh count buf

/-- `k_ahci_driver::write` -/
def driverWrite (ports : List Port) (drive : BitVec 8) (hba : HbaPort) (turns : Nat) (mem : Memory) (pml4Addr : Addr)
    (sector : BitVec 64) (count : BitVec 32) (buf : Addr) : Option Outcome :=
  onPort ports drive sector buf fun port sectorl sectorh =>
    port.write hba turns mem pml4Addr sectorl sectorh count buf

end LunaOS.AhciPort
