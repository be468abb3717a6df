import LunaOS.CountedLoop
import LunaOS.MadtParsing

/-! The enumeration of the PCI functions (`pciEnumerateDevices`, `system/pci.cpp`): three
nested loops over buses, devices and functions, with a shortcut for a bus or a device
that does not answer. The bus shortcut asks the first device only, and the loop over
the buses stops before the last one. -/
namespace LunaOS.PciEnumeration
open ByteMemory CountedLoop MadtParsing BitVec

/-- `k_mcfg_entry`, the fields that are read. -/
structure McfgEntry where
  baseAddress : Addr
  startBusNumber : Byte
  endBusNumber : Byte
  deriving DecidableEq, Repr

/-- `sizeof(k_mcfg_hdr)` -/
def mcfgHdrSize : Nat := 44
/-- `sizeof(k_mcfg_entry)` -/
def mcfgEntrySize : Nat := 16

/-- `int entryCount`: 64-bit arithmetic on the length, cut to an `int`. -/
def entryCount (mem : Memory) (mcfgHeader : Addr) : BitVec 32 :=
  (((headerLength mem mcfgHeader).setWidth 64 - BitVec.ofNat 64 mcfgHdrSize) / BitVec.ofNat 64 mcfgEntrySize).setWidth 32

def mcfgEntry (mem : Memory) (mcfgHeader : Addr) (i : Nat) : McfgEntry :=
  let entry := mcfgHeader + BitVec.ofNat 64 (mcfgHdrSize + i * mcfgEntrySize)
  ⟨load64 mem entry, mem (entry + 10), mem (entry + 11)⟩

/-- `commonConfig->deviceID` of the function at a physical address is neither 0xFFFF nor
0x0000. The function is read through a page that was just mapped to the address. -/
def Answers (deviceID : Addr → BitVec 16) (address : Addr) : Prop :=
  deviceID address ≠ 0xFFFF ∧ deviceID address ≠ 0x0000

instance (deviceID : Addr → BitVec 16) (address : Addr) : Decidable (Answers deviceID address) :=
  inferInstanceAs (Decidable (_ ∧ _))

section Model
variable (deviceID : Addr → BitVec 16) (entry : McfgEntry)

/-- The place of a function behind the base, as an `int` shifted and put together. -/
def functionOffset (bus device function : Byte) : BitVec 64 :=
  ((bus.setWidth 32 - entry.startBusNumber.setWidth 32) <<< 20 ||| device.setWidth 32 <<< 15 |||
    function.setWidth 32 <<< 12 : BitVec 32).signExtend 64

def functionTurn (bus device function : Byte) (devices : List Addr) : Option (List Addr) :=
  let physicalAddress := entry.baseAddress + functionOffset entry bus device function
  if Answers deviceID physicalAddress then some (physicalAddress :: devices) else some devices

def deviceTurn (bus device : Byte) (devices : List Addr) : Option (List Addr) :=
  if Answers deviceID (entry.baseAddress + functionOffset entry bus device 0) then
    forLoop 0 8 (functionTurn deviceID entry bus device) devices
  else some devices

def busTurn (bus : Byte) (devices : List Addr) : Option (List Addr) :=
  if Answers deviceID (entry.baseAddress + functionOffset entry bus 0 0) then
    forLoop 0 32 (deviceTurn deviceID entry bus) devices
  else some devices

def enumerateEntry (devices : List Addr) : Option (List Addr) :=
  forLoop entry.startBusNumber entry.endBusNumber (busTurn deviceID entry) devices

end Model

/-- The physical addresses of the device list, newest first. -/
def pciEnumerateDevices (deviceID : Addr → BitVec 16) (mem : Memory) (mcfgHeader : Addr) : Option (List Addr) :=
  (List.range (entryCount mem mcfgHeader).toInt.toNat).foldlM
    (fun devices i => enumerateEntry deviceID (mcfgEntry mem mcfgHeader i) devices) []

/-! ## What is to be found -/

/-- The configuration space of a function: 1 MiB a bus, 32 KiB a device, a page a function. -/
def place (entry : McfgEntry) (bus device function : Byte) : Addr :=
  entry.baseAddress + BitVec.ofNat 64 ((bus.toNat - entry.startBusNumber.toNat) * 2 ^ 20 + device.toNat * 2 ^ 15 +
    function.toNat * 2 ^ 12)

/-- A function on one of the buses of the entry, of a device whose first function answers. -/
structure Expected (deviceID : Addr → BitVec 16) (entry : McfgEntry) (bus device function : Byte) : Prop where
  begins : entry.startBusNumber ≤ bus
  ends : bus ≤ entry.endBusNumber
  devices : device < 32
  functions : function < 8
  first : Answers deviceID (place entry bus device 0)
  answers : Answers deviceID (place entry bus device function)

/-- The list has every function to be found once, and no other. -/
structure Complete (deviceID : Addr → BitVec 16) (entry : McfgEntry) (devices : List Addr) : Prop where
  unique : devices.Nodup
  exact : ∀ address, address ∈ devices ↔
    ∃ bus device function, Expected deviceID entry bus device function ∧ address = place entry bus device function

section Places
variable {deviceID : Addr → BitVec 16} {entry : McfgEntry} {bus device function : Byte}

section Offsets
variable (begins : entry.startBusNumber ≤ bus) (devices : device < 32) (functions : function < 8)
include begins devices functions

theorem functionOffset_toNat : (functionOffset entry bus device function).toNat =
      (bus.toNat - entry.startBusNumber.toNat) * 2 ^ 20 + device.toNat * 2 ^ 15 + function.toNat * 2 ^ 12 := by
  rw [le_def] at begins
  rw [lt_def] at devices functions
  change device.toNat < 32 at devices
  change function.toNat < 8 at functions
  have busField : ((bus.setWidth 32 - entry.startBusNumber.setWidth 32) <<< 20).toNat =
      (bus.toNat - entry.startBusNumber.toNat) * 2 ^ 20 := by
    rw [toNat_shiftLeft, toNat_sub, toNat_setWidth, toNat_setWidth, Nat.shiftLeft_eq]
    omega
  have sum : ((bus.setWidth 32 - entry.startBusNumber.setWidth 32) <<< 20 ||| device.setWidth 32 <<< 15 |||
      function.setWidth 32 <<< 12 : BitVec 32).toNat = (bus.toNat - entry.startBusNumber.toNat) * 2 ^ 20 +
        device.toNat * 2 ^ 15 + function.toNat * 2 ^ 12 := by
    rw [toNat_or, toNat_or, busField, byte_field (by omega), byte_field (by omega),
      or_of_low 20 (device.toNat * 2 ^ 15) (by omega) (by omega),
      or_of_low 15 (function.toNat * 2 ^ 12) (by omega) (by omega)]
  rw [functionOffset, signExtend_eq_setWidth_of_msb_false, toNat_setWidth, sum, Nat.mod_eq_of_lt (by omega)]
  rw [msb_eq_false_iff_two_mul_lt, sum]
  omega

theorem functionOffset_place :
    entry.baseAddress + functionOffset entry bus device function = place entry bus device function := by
  rw [place, ← functionOffset_toNat begins devices functions, ofNat_toNat, setWidth_eq]

theorem place_offset : (place entry bus device function - entry.baseAddress).toNat =
      (bus.toNat - entry.startBusNumber.toNat) * 2 ^ 20 + device.toNat * 2 ^ 15 + function.toNat * 2 ^ 12 := by
  rw [← functionOffset_place begins devices functions, add_sub_self, functionOffset_toNat begins devices functions]

end Offsets

/-- The numbers of a function, from the place of its configuration space. -/
def busAt (entry : McfgEntry) (address : Addr) : Byte :=
  BitVec.ofNat 8 (entry.startBusNumber.toNat + (address - entry.baseAddress).toNat / 2 ^ 20)

def deviceAt (entry : McfgEntry) (address : Addr) : Byte :=
  BitVec.ofNat 8 ((address - entry.baseAddress).toNat / 2 ^ 15 % 32)

def functionAt (entry : McfgEntry) (address : Addr) : Byte :=
  BitVec.ofNat 8 ((address - entry.baseAddress).toNat / 2 ^ 12 % 8)

theorem place_numbers (begins : entry.startBusNumber ≤ bus) (devices : device < 32) (functions : function < 8) :
    busAt entry (place entry bus device function) = bus ∧ deviceAt entry (place entry bus device function) = device ∧
      functionAt entry (place entry bus device function) = function := by
  have offset := place_offset begins devices functions
  rw [le_def] at begins
  rw [lt_def] at devices functions
  change device.toNat < 32 at devices
  change function.toNat < 8 at functions
  rw [busAt, deviceAt, functionAt, offset]
  refine ⟨?_, ?_, ?_⟩ <;>
  · apply eq_of_toNat_eq
    rw [toNat_ofNat]
    omega

/-! ## What the loops find -/

variable (deviceID entry)

def functionsFound (bus device : Byte) : List Addr :=
  (counted 0 8).reverse.flatMap fun function =>
    if Answers deviceID (place entry bus device function) then [place entry bus device function] else []

def devicesFound (bus : Byte) : List Addr :=
  (counted 0 32).reverse.flatMap fun device =>
    if Answers deviceID (place entry bus device 0) then functionsFound deviceID entry bus device else []

def busesFound : List Addr :=
  (counted entry.startBusNumber entry.endBusNumber).reverse.flatMap fun bus =>
    if Answers deviceID (place entry bus 0 0) then devicesFound deviceID entry bus else []

variable {deviceID entry}

theorem functionTurn_eq (begins : entry.startBusNumber ≤ bus) (devices : device < 32) (functions : function < 8)
    (found : List Addr) : functionTurn deviceID entry bus device function found =
      some ((if Answers deviceID (place entry bus device function) then [place entry bus device function] else []) ++
        found) := by
  simp only [functionTurn, functionOffset_place begins devices functions]
  split <;> rfl

theorem deviceTurn_eq (begins : entry.startBusNumber ≤ bus) (devices : device < 32) (found : List Addr) :
    deviceTurn deviceID entry bus device found =
      some ((if Answers deviceID (place entry bus device 0) then functionsFound deviceID entry bus device else []) ++
        found) := by
  rw [deviceTurn, functionOffset_place begins devices (by decide)]
  split
  · exact forLoop_collects (fun function _ functions => functionTurn_eq begins devices functions) found
  · rfl

theorem busTurn_eq (begins : entry.startBusNumber ≤ bus) (found : List Addr) : busTurn deviceID entry bus found =
    some ((if Answers deviceID (place entry bus 0 0) then devicesFound deviceID entry bus else []) ++ found) := by
  rw [busTurn, functionOffset_place begins (by decide) (by decide)]
  split
  · exact forLoop_collects (fun device _ devices => deviceTurn_eq begins devices) found
  · rfl

theorem enumerateEntry_eq (found : List Addr) :
    enumerateEntry deviceID entry found = some (busesFound deviceID entry ++ found) :=
  forLoop_collects (fun _ begins _ => busTurn_eq begins) found

theorem mem_functionsFound : address ∈ functionsFound deviceID entry bus device ↔
    ∃ function, function < 8 ∧ Answers deviceID (place entry bus device function) ∧
      address = place entry bus device function := by
  simp only [functionsFound, List.mem_flatMap, List.mem_reverse, mem_counted_zero, List.mem_ite_nil_right,
    List.mem_singleton]

theorem mem_devicesFound : address ∈ devicesFound deviceID entry bus ↔
    ∃ device, device < 32 ∧ Answers deviceID (place entry bus device 0) ∧
      address ∈ functionsFound deviceID entry bus device := by
  simp only [devicesFound, List.mem_flatMap, List.mem_reverse, mem_counted_zero, List.mem_ite_nil_right]

theorem mem_busesFound : address ∈ busesFound deviceID entry ↔
    ∃ bus, (entry.startBusNumber ≤ bus ∧ bus < entry.endBusNumber) ∧ Answers deviceID (place entry bus 0 0) ∧
      address ∈ devicesFound deviceID entry bus := by
  simp only [busesFound, List.mem_flatMap, List.mem_reverse, mem_counted, List.mem_ite_nil_right]

theorem functionsFound_nodup (begins : entry.startBusNumber ≤ bus) (devices : device < 32) :
    (functionsFound deviceID entry bus device).Nodup := by
  refine flatMap_nodup (functionAt entry) (List.nodup_reverse.mpr (counted_nodup _ _)) ?_ ?_
  · intro function _
    split <;> simp
  · intro function listed address found
    rw [List.mem_reverse, mem_counted_zero] at listed
    rw [List.mem_ite_nil_right, List.mem_singleton] at found
    rw [found.2, (place_numbers begins devices listed).2.2]

theorem devicesFound_nodup (begins : entry.startBusNumber ≤ bus) : (devicesFound deviceID entry bus).Nodup := by
  refine flatMap_nodup (deviceAt entry) (List.nodup_reverse.mpr (counted_nodup _ _)) ?_ ?_
  · intro device listed
    rw [List.mem_reverse, mem_counted_zero] at listed
    split
    · exact functionsFound_nodup begins listed
    · exact List.nodup_nil
  · intro device listed address found
    rw [List.mem_reverse, mem_counted_zero] at listed
    obtain ⟨function, functions, _, rfl⟩ := mem_functionsFound.mp (List.mem_ite_nil_right.mp found).2
    exact (place_numbers begins listed functions).2.1

theorem busesFound_nodup : (busesFound deviceID entry).Nodup := by
  refine flatMap_nodup (busAt entry) (List.nodup_reverse.mpr (counted_nodup _ _)) ?_ ?_
  · intro bus listed
    rw [List.mem_reverse, mem_counted] at listed
    split
    · exact devicesFound_nodup listed.1
    · exact List.nodup_nil
  · intro bus listed address found
    rw [List.mem_reverse, mem_counted] at listed
    obtain ⟨device, devices, _, found⟩ := mem_devicesFound.mp (List.mem_ite_nil_right.mp found).2
    obtain ⟨function, functions, _, rfl⟩ := mem_functionsFound.mp found
    exact (place_numbers listed.1 devices functions).1

/-- What is found is to be found; what is to be found is found on a bus before the last one
whose first device answers. -/
theorem mem_found_iff : address ∈ busesFound deviceID entry ↔ ∃ bus device function,
    Expected deviceID entry bus device function ∧ address = place entry bus device function ∧
      bus < entry.endBusNumber ∧ Answers deviceID (place entry bus 0 0) := by
  constructor
  · intro found
    obtain ⟨bus, ⟨begins, before⟩, present, found⟩ := mem_busesFound.mp found
    obtain ⟨device, devices, first, found⟩ := mem_devicesFound.mp found
    obtain ⟨function, functions, answers, same⟩ := mem_functionsFound.mp found
    exact ⟨bus, device, function, ⟨begins, BitVec.le_of_lt before, devices, functions, first, answers⟩, same,
      before, present⟩
  · rintro ⟨bus, device, function, expected, same, before, present⟩
    refine mem_busesFound.mpr ⟨bus, ⟨expected.begins, before⟩, present, ?_⟩
    refine mem_devicesFound.mpr ⟨device, expected.devices, expected.first, ?_⟩
    exact mem_functionsFound.mpr ⟨function, expected.functions, expected.answers, same⟩

theorem found_complete_iff : Complete deviceID entry (busesFound deviceID entry) ↔
    ∀ bus device function, Expected deviceID entry bus device function →
      bus < entry.endBusNumber ∧ Answers deviceID (place entry bus 0 0) := by
  constructor
  · intro complete bus device function expected
    have found := (complete.exact _).mpr ⟨bus, device, function, expected, rfl⟩
    obtain ⟨bus', device', function', expected', same, before, present⟩ := mem_found_iff.mp found
    have numbers := place_numbers expected.begins expected.devices expected.functions
    have numbers' := place_numbers expected'.begins expected'.devices expected'.functions
    rw [← same, numbers.1] at numbers'
    rw [numbers'.1]
    exact ⟨before, present⟩
  · intro reached
    refine ⟨busesFound_nodup, fun address => ⟨fun found => ?_, ?_⟩⟩
    · obtain ⟨bus, device, function, expected, same, _⟩ := mem_found_iff.mp found
      exact ⟨bus, device, function, expected, same⟩
    · rintro ⟨bus, device, function, expected, same⟩
      exact mem_found_iff.mpr ⟨bus, device, function, expected, same, reached bus device function expected⟩

end Places

/-- The enumeration of a table with one entry is complete exactly when no function is to be
found on the last bus, nor on a bus whose first device does not answer. -/
theorem enumeration_complete_iff (deviceID : Addr → BitVec 16) (mem : Memory) (mcfgHeader : Addr)
    (single : entryCount mem mcfgHeader = 1) : ∃ devices, pciEnumerateDevices deviceID mem mcfgHeader = some devices ∧
      (Complete deviceID (mcfgEntry mem mcfgHeader 0) devices ↔ ∀ bus device function,
        Expected deviceID (mcfgEntry mem mcfgHeader 0) bus device function →
          bus < (mcfgEntry mem mcfgHeader 0).endBusNumber ∧
            Answers deviceID (place (mcfgEntry mem mcfgHeader 0) bus 0 0)) := by
  refine ⟨_, ?_, found_complete_iff⟩
  rw [pciEnumerateDevices, single]
  change (enumerateEntry deviceID (mcfgEntry mem mcfgHeader 0) []).bind some = _
  rw [enumerateEntry_eq, List.append_nil, Option.bind_some]

/-- A table with one entry, whose configuration space begins at 0xE0000000. -/
def mcfgTable (startBusNumber endBusNumber : Byte) : Memory :=
  write (fun _ => 0) 0x1000 64 fun i => if i = 4 then 60 else if i = 47 then 0xE0
    else if i = 54 then startBusNumber else if i = 55 then endBusNumber else 0

/-- A machine whose functions have their configuration at these addresses. -/
def onlyAt (addresses : List Addr) : Addr → BitVec 16 := fun probe => if probe ∈ addresses then 0x1237 else 0xFFFF

theorem onlyAt_answers (addresses : List Addr) (probe : Addr) : Answers (onlyAt addresses) probe ↔ probe ∈ addresses := by
  unfold Answers onlyAt
  split <;> simp_all

/-- Two devices on the first bus, the second with two functions, and one on the next. -/
def twoBuses : List Addr := [0xE0000000, 0xE0008000, 0xE0009000, 0xE0100000]

theorem enumeration_complete_iff_buses : ∃ devices,
    pciEnumerateDevices (onlyAt twoBuses) (mcfgTable 0 2) 0x1000 = some devices ∧
      Complete (onlyAt twoBuses) ⟨0xE0000000, 0, 2⟩ devices := by
  obtain ⟨devices, ran, complete⟩ := enumeration_complete_iff (onlyAt twoBuses) (mcfgTable 0 2) 0x1000 (by decide)
  have entry : mcfgEntry (mcfgTable 0 2) 0x1000 0 = ⟨0xE0000000, 0, 2⟩ := by decide
  rw [entry] at complete
  refine ⟨devices, ran, complete.mpr fun bus device function expected => ?_⟩
  have here := (onlyAt_answers _ _).mp expected.answers
  have numbers := (place_numbers expected.begins expected.devices expected.functions).1
  simp only [twoBuses, List.mem_cons, List.not_mem_nil, or_false] at here
  rcases here with here | here | here | here <;>
  · rw [here] at numbers
    rw [← numbers]
    decide

/-- A function of the last bus is missed, and so is one behind an empty first slot. -/
theorem functions_missed : (pciEnumerateDevices (onlyAt [0xE0000000]) (mcfgTable 0 0) 0x1000 = some [] ∧
      Expected (onlyAt [0xE0000000]) (mcfgEntry (mcfgTable 0 0) 0x1000 0) 0 0 0) ∧
    pciEnumerateDevices (onlyAt [0xE0008000]) (mcfgTable 0 1) 0x1000 = some [] ∧
      Expected (onlyAt [0xE0008000]) (mcfgEntry (mcfgTable 0 1) 0x1000 0) 0 1 0 := by
  refine ⟨⟨by decide +kernel, ?_⟩, by decide +kernel, ?_⟩ <;>
  · constructor <;> decide +kernel

end LunaOS.PciEnumeration
