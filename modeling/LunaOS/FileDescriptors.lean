import LunaOS.FatFs
import Mathlib.Data.Finset.Basic

/-! The descriptors of a process and the four calls on them. The kernel keeps a
growable array of file objects and indexes it with the number the program passes;
beside it stands the table a program may expect, in which a descriptor is live from
the open that returned it to the close that ended it. -/
namespace LunaOS.FileDescriptors
open ByteMemory FatFs

/-- `List<FIL *>`: the elements in use and the room the buffer has. -/
structure DescriptorList where
  buffer : List Fil
  totalSize : Nat
  room : buffer.length ≤ totalSize
  pos : 0 < totalSize
  bounded : totalSize < 2 ^ 31
  deriving DecidableEq

namespace DescriptorList

def size (list : DescriptorList) : Nat := list.buffer.length

def create (initSize : Nat) (bounded : initSize < 2 ^ 31) : DescriptorList where
  buffer := []
  totalSize := if initSize = 0 then 1 else initSize
  room := Nat.zero_le _
  pos := by split <;> omega
  bounded := by split <;> omega

/-- A full buffer is doubled; there is no result when its size leaves the range of `int`. -/
def add (list : DescriptorList) (fil : Fil) : Option DescriptorList :=
  if full : list.size = list.totalSize then
    if bounded : list.totalSize * 2 < 2 ^ 31 then
      some {
        buffer := list.buffer ++ [fil]
        totalSize := list.totalSize * 2
        room := by
          have pos := list.pos
          rw [size] at full
          simp only [List.length_append, List.length_singleton]
          omega
        pos := by have pos := list.pos; omega
        bounded }
    else none
  else
    some {
      buffer := list.buffer ++ [fil]
      totalSize := list.totalSize
      room := by
        have room := list.room
        rw [size] at full
        simp only [List.length_append, List.length_singleton]
        omega
      pos := list.pos
      bounded := list.bounded }

/-- `buffer[index]`, with nothing checked: `stray` is what memory holds outside the
elements of the list. -/
def get (list : DescriptorList) (stray : Int → Option Fil) (index : Int) : Option Fil :=
  if 0 ≤ index ∧ index < list.size then list.buffer[index.toNat]? else stray index

theorem add_buffer {list longer : DescriptorList} (added : list.add fil = some longer) :
    longer.buffer = list.buffer ++ [fil] := by
  unfold add at added
  split at added
  · split at added
    · rw [← Option.some.inj added]
    · cases added
  · rw [← Option.some.inj added]

theorem addAll_buffer {list longer : DescriptorList} (added : fils.foldlM add list = some longer) :
    longer.buffer = list.buffer ++ fils := by
  induction fils generalizing list with
  | nil =>
    cases added
    exact (List.append_nil _).symm
  | cons fil rest ih =>
    obtain ⟨next, one, others⟩ := Option.bind_eq_some_iff.mp added
    rw [ih others, add_buffer one, List.append_assoc, List.singleton_append]

theorem size_lt (list : DescriptorList) : list.size < 2 ^ 31 :=
  Nat.lt_of_le_of_lt list.room list.bounded

/-- The number names an element of the list, read as a C `int`. -/
def Inside (list : DescriptorList) (fd : BitVec 32) : Prop := 0 ≤ fd.toInt ∧ fd.toInt < list.size

theorem inside_iff {list : DescriptorList} : list.Inside fd ↔ fd.toNat < list.size := by
  have small := list.size_lt
  unfold Inside
  rw [BitVec.toInt_eq_toNat_cond]
  split <;> omega

theorem get_inside {list : DescriptorList} (inside : list.Inside fd) :
    list.get stray fd.toInt = list.buffer[fd.toNat]? := by
  have signed : fd.toInt.toNat = fd.toNat := by
    have small := list.size_lt
    have below := inside_iff.mp inside
    rw [BitVec.toInt_eq_toNat_cond]
    split <;> omega
  unfold Inside at inside
  rw [get, if_pos inside, signed]

end DescriptorList

structure Process where
  stdin : Fil
  stdout : Fil
  stderr : Fil
  stdinWritePtr : Nat
  stdoutReadPtr : Nat
  fileDescriptors : DescriptorList
  deriving DecidableEq

structure Machine (Volume : Type) where
  volume : Volume
  proc : Process
  nextFil : Nat

variable {Volume : Type} (fs : Library Volume)

/-- The files `taskingCreateProcess` opens for a new process, with `FA_READ | FA_WRITE |
FA_CREATE_ALWAYS`; it returns `NULL` when one of them fails. -/
def openStreams (fOpen : Volume → Fil → String → BitVec 8 → Fresult × Volume) (volume : Volume) :
    List (Fil × String) → Option (List Fil) × Volume
  | [] => (some [], volume)
  | (fil, name) :: rest =>
    let (res, volume) := fOpen volume fil name 0x0B
    if res ≠ .ok then (none, volume)
    else
      let (later, volume) := openStreams fOpen volume rest
      (later.map (fil :: ·), volume)

/-- The descriptors of a process that `taskingCreateProcess` has made: the standard streams,
which are members of the process. -/
def createStreams (volume : Volume) (nextFil : Fil) : Option (Machine Volume) := do
  let opened := openStreams fs.fOpen volume [(nextFil, "0"), (nextFil + 1, "1"), (nextFil + 2, "2")]
  let fileDescriptors ← (← opened.1).foldlM DescriptorList.add (DescriptorList.create 5 (by decide))
  some ⟨opened.2, ⟨nextFil, nextFil + 1, nextFil + 2, 0, 0, fileDescriptors⟩, nextFil + 3⟩

/-- All of the files open, one after the other. -/
def AllOpen (fOpen : Volume → Fil → String → BitVec 8 → Fresult × Volume) : Volume → List (Fil × String) → Prop
  | _, [] => True
  | volume, (fil, name) :: rest =>
    (fOpen volume fil name 0x0B).1 = .ok ∧ AllOpen fOpen (fOpen volume fil name 0x0B).2 rest

theorem openStreams_some {fOpen : Volume → Fil → String → BitVec 8 → Fresult × Volume} {volume : Volume}
    (opened : (openStreams fOpen volume streams).1 = some descriptors) : AllOpen fOpen volume streams ∧
      descriptors = streams.map Prod.fst ∧ (openStreams fOpen volume streams).2 =
        streams.foldl (fun volume stream => (fOpen volume stream.1 stream.2 0x0B).2) volume := by
  induction streams generalizing volume descriptors with
  | nil =>
    cases opened
    exact ⟨trivial, rfl, rfl⟩
  | cons stream rest ih =>
    simp only [openStreams] at opened ⊢
    split at opened
    · cases opened
    · rename_i succeeded
      obtain ⟨later, others, rfl⟩ := Option.map_eq_some_iff.mp opened
      obtain ⟨opens, rfl, volumes⟩ := ih others
      rw [if_neg succeeded]
      exact ⟨⟨not_not.mp succeeded, opens⟩, rfl, volumes⟩

/-- The volume after the three opens of a new process. -/
def streamsOpened (volume : Volume) (nextFil : Fil) : Volume :=
  let stdin := (fs.fOpen volume nextFil "0" 0x0B).2
  let stdout := (fs.fOpen stdin (nextFil + 1) "1" 0x0B).2
  (fs.fOpen stdout (nextFil + 2) "2" 0x0B).2

variable {fs} in
theorem created_machine {volume : Volume} {machine : Machine Volume}
    (created : createStreams fs volume nextFil = some machine) : (fs.fOpen volume nextFil "0" 0x0B).1 = .ok ∧
    (fs.fOpen (fs.fOpen volume nextFil "0" 0x0B).2 (nextFil + 1) "1" 0x0B).1 = .ok ∧
    (fs.fOpen (fs.fOpen (fs.fOpen volume nextFil "0" 0x0B).2 (nextFil + 1) "1" 0x0B).2 (nextFil + 2) "2" 0x0B).1 = .ok ∧
    machine.volume = streamsOpened fs volume nextFil ∧ machine.nextFil = nextFil + 3 ∧
    machine.proc.stdin = nextFil ∧ machine.proc.stdout = nextFil + 1 ∧
    machine.proc.stdinWritePtr = 0 ∧ machine.proc.stdoutReadPtr = 0 ∧
    machine.proc.fileDescriptors.buffer = [nextFil, nextFil + 1, nextFil + 2] := by
  obtain ⟨opened, all, created⟩ := Option.bind_eq_some_iff.mp created
  obtain ⟨descriptors, added, created⟩ := Option.bind_eq_some_iff.mp created
  cases created
  obtain ⟨⟨openedIn, openedOut, openedErr, -⟩, rfl, volumes⟩ := openStreams_some all
  exact ⟨openedIn, openedOut, openedErr, volumes, rfl, rfl, rfl, rfl, rfl, DescriptorList.addAll_buffer added⟩

/-- What a call leaves in the caller's data, with the result of the FatFs call it
made and the elements of the list it looked at. -/
structure Reply where
  result : Bool
  fresult : Option Fresult
  accessed : List Int
  fd : Option (BitVec 32)
  bytes : List Byte
  bw : Option (BitVec 32)
  deriving DecidableEq, Repr

/-- `Syscall::Calls::open` -/
def sysOpen (machine : Machine Volume) (name : String) (flags : BitVec 32) : Option (Reply × Machine Volume) :=
  let fil := machine.nextFil
  let (res, volume) := fs.fOpen machine.volume fil name (flags.setWidth 8)
  if res ≠ .ok then
    some (⟨false, some res, [], none, [], none⟩, { machine with volume, nextFil := fil + 1 })
  else do
    let fileDescriptors ← machine.proc.fileDescriptors.add fil
    let fd := BitVec.ofInt 32 (fileDescriptors.size - 1)
    some (⟨true, some res, [], some fd, [], none⟩,
      { volume, proc := { machine.proc with fileDescriptors }, nextFil := fil + 1 })

/-- `Syscall::Calls::close` -/
def sysClose (stray : Int → Option Fil) (machine : Machine Volume) (fd : BitVec 32) : Reply × Machine Volume :=
  match machine.proc.fileDescriptors.get stray fd.toInt with
  | none => (⟨false, none, [fd.toInt], none, [], none⟩, machine)
  | some fil =>
    let (res, volume) := fs.fClose machine.volume fil
    (⟨true, some res, [fd.toInt], none, [], none⟩, { machine with volume })

/-- `Syscall::Calls::read` -/
def sysRead (stray : Int → Option Fil) (machine : Machine Volume) (fd count : BitVec 32) : Reply × Machine Volume :=
  match machine.proc.fileDescriptors.get stray fd.toInt with
  | none => (⟨false, none, [fd.toInt], none, [], none⟩, machine)
  | some fil =>
    let (res, bytes, volume) := fs.fRead machine.volume fil count
    (⟨true, some res, [fd.toInt], none, bytes, none⟩, { machine with volume })

/-- The bytes a write passes on: FatFs takes a 32-bit count. -/
def written (buf : Nat → Byte) (btw : BitVec 64) : List Byte :=
  (List.range (btw.setWidth 32).toNat).map buf

/-- `Syscall::Calls::write` -/
def sysWrite (stray : Int → Option Fil) (machine : Machine Volume) (fd : BitVec 32)
    (buf : Nat → Byte) (btw : BitVec 64) : Reply × Machine Volume :=
  match machine.proc.fileDescriptors.get stray fd.toInt with
  | none => (⟨false, none, [fd.toInt], none, [], none⟩, machine)
  | some fil =>
    let (res, bw, volume) := fs.fWrite machine.volume fil (written buf btw)
    (⟨res == .ok, some res, [fd.toInt], none, [], some bw⟩, { machine with volume })

end LunaOS.FileDescriptors
