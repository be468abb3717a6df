import LunaOS.ByteMemory

/-! What the kernel relies on from its FAT library. A file object is open or not;
calls on an object that is not open are refused and change nothing. An open file is
a sequence of bytes with one position, whose size is a 32-bit number. -/
namespace LunaOS.FatFs
open ByteMemory

/-- `FRESULT` -/
inductive Fresult where
  | ok | diskErr | intErr | notReady | noFile | noPath | invalidName | denied | exist | invalidObject
  | writeProtected | invalidDrive | notEnabled | noFilesystem | mkfsAborted | timeout | locked
  | notEnoughCore | tooManyOpenFiles | invalidParameter
  deriving DecidableEq, Repr

/-- The address of a file object. -/
abbrev Fil := Nat

/-- The largest size of a file on a FAT volume. -/
def maxSize : Nat := 0xFFFFFFFF

structure ByteFile where
  contents : List Byte
  position : Nat
  within : position ≤ contents.length
  fits : contents.length ≤ maxSize
  deriving DecidableEq

namespace ByteFile
variable (file : ByteFile)

def empty : ByteFile := ⟨[], 0, Nat.le_refl 0, Nat.zero_le _⟩

def size : Nat := file.contents.length

/-- Seeking past the end of a file open for writing stretches it. -/
def seek (offset : Nat) : ByteFile where
  contents := file.contents ++ List.replicate (offset % 2 ^ 32 - file.size) 0
  position := offset % 2 ^ 32
  within := by simp [size]; omega
  fits := by
    have fits := file.fits
    simp only [List.length_append, List.length_replicate, size, maxSize] at *
    omega

def read (count : Nat) : List Byte × ByteFile :=
  let bytes := (file.contents.drop file.position).take count
  (bytes, ⟨file.contents, file.position + bytes.length, by
    have within := file.within
    simp only [bytes, List.length_take, List.length_drop]
    omega, file.fits⟩)

/-- The bytes of a request that stay below the largest size. -/
def accepted (bytes : List Byte) : List Byte := bytes.take (maxSize - file.position)

def write (bytes : List Byte) : ByteFile where
  contents := file.contents.take file.position ++ file.accepted bytes ++
    file.contents.drop (file.position + (file.accepted bytes).length)
  position := file.position + (file.accepted bytes).length
  within := by
    have within := file.within
    simp only [List.length_append, List.length_take, List.length_drop]
    omega
  fits := by
    have within := file.within
    have fits := file.fits
    simp only [accepted, List.length_append, List.length_take, List.length_drop]
    omega

variable {file}

theorem ext_iff_data {other : ByteFile} :
    file = other ↔ file.contents = other.contents ∧ file.position = other.position := by
  cases file
  cases other
  simp

/-- Moving to a place the file already has changes the position only. -/
theorem seek_inside (inside : offset ≤ file.size) :
    (file.seek offset).contents = file.contents ∧ (file.seek offset).position = offset := by
  have fits := file.fits
  have small : offset % 2 ^ 32 = offset := by
    refine Nat.mod_eq_of_lt ?_
    simp only [size, maxSize] at *
    omega
  have none : offset - file.size = 0 := by omega
  unfold seek
  simp only [small, none, List.replicate_zero, List.append_nil, and_self]

theorem write_at_end (atEnd : file.position = file.size) :
    (file.write bytes).contents = file.contents ++ file.accepted bytes ∧
      (file.write bytes).position = (file.write bytes).size := by
  have whole : file.contents.take file.position = file.contents := by simp [atEnd, size]
  have rest : file.contents.drop (file.position + (file.accepted bytes).length) = [] := by
    apply List.drop_of_length_le
    rw [atEnd, size]
    omega
  have stored : (file.write bytes).contents = file.contents ++ file.accepted bytes := by
    simp only [write, whole, rest, List.append_nil]
  refine ⟨stored, ?_⟩
  rw [size, stored, List.length_append]
  simp only [write, atEnd, size]

@[simp] theorem read_contents : (file.read count).2.contents = file.contents := rfl

@[simp] theorem read_position : (file.read count).2.position = file.position + (file.read count).1.length := rfl

/-- A read returns what stands between the old position and the new one. -/
theorem read_advances : file.contents.take (file.read count).2.position =
      file.contents.take file.position ++ (file.read count).1 := by
  rw [read_position, List.take_add]
  simp [read]

theorem read_rest (enough : file.size - file.position ≤ count) :
    (file.read count).1 = file.contents.drop file.position := by
  apply List.take_of_length_le
  simpa [size] using enough

/-- A write of one byte that reports one byte has stored it. -/
theorem accepted_single (one : BitVec.ofNat 32 (file.accepted [byte]).length = 1) :
    file.accepted [byte] = [byte] := by
  unfold accepted at *
  cases room : maxSize - file.position with
  | zero => simp [room] at one
  | succ more => simp

/-- The count a write reports gives back the bytes it stored. -/
theorem take_accepted : bytes.take (BitVec.ofNat 32 (file.accepted bytes).length).toNat = file.accepted bytes := by
  have small : (file.accepted bytes).length < 2 ^ 32 := by
    simp only [accepted, List.length_take, maxSize]
    omega
  rw [BitVec.toNat_ofNat, Nat.mod_eq_of_lt small]
  simp [accepted, List.take_eq_take_iff]

/-- Appending from elsewhere in the file and moving back. -/
theorem seek_write_seek : (((file.seek file.size).write bytes).seek file.position).contents =
      file.contents ++ (file.seek file.size).accepted bytes ∧
    (((file.seek file.size).write bytes).seek file.position).position = file.position := by
  obtain ⟨kept, moved⟩ := seek_inside (Nat.le_refl file.size)
  have atEnd : (file.seek file.size).position = (file.seek file.size).size := by
    rw [moved, size.eq_1 (file.seek _), kept, size]
  have stored : ((file.seek file.size).write bytes).contents =
      file.contents ++ (file.seek file.size).accepted bytes := by
    rw [(write_at_end atEnd).1, kept]
  have inside : file.position ≤ ((file.seek file.size).write bytes).size := by
    have within := file.within
    rw [size, stored, List.length_append]
    omega
  obtain ⟨same, back⟩ := seek_inside inside
  exact ⟨same.trans stored, back⟩

/-- Reading from elsewhere in the file and moving back. -/
theorem seek_read_seek (inside : offset ≤ file.size) :
    ((file.seek offset).read count).2.seek file.position = file := by
  have kept := (seek_inside inside).1
  have within : file.position ≤ ((file.seek offset).read count).2.size := by
    rw [size, read_contents, kept]
    exact file.within
  obtain ⟨same, back⟩ := seek_inside within
  refine ext_iff_data.mpr ⟨?_, back⟩
  rw [same, read_contents, kept]

end ByteFile

/-- The calls on file objects, with what is documented about objects that are not open. -/
structure Library (Volume : Type) where
  isOpen : Volume → Fil → Bool
  fOpen : Volume → Fil → String → BitVec 8 → Fresult × Volume
  fClose : Volume → Fil → Fresult × Volume
  fRead : Volume → Fil → BitVec 32 → Fresult × List Byte × Volume
  fWrite : Volume → Fil → List Byte → Fresult × BitVec 32 × Volume
  fLseek : Volume → Fil → Nat → Fresult × Volume
  fTell : Volume → Fil → Nat
  fSize : Volume → Fil → Nat
  isOpen_fOpen : ∀ volume fil name mode other, isOpen (fOpen volume fil name mode).2 other =
    if other = fil then decide ((fOpen volume fil name mode).1 = .ok) else isOpen volume other
  isOpen_fClose : ∀ volume fil other, isOpen (fClose volume fil).2 other =
    (isOpen volume other && !(decide (other = fil) && decide ((fClose volume fil).1 = .ok)))
  isOpen_fRead : ∀ volume fil count other, isOpen (fRead volume fil count).2.2 other = isOpen volume other
  isOpen_fWrite : ∀ volume fil bytes other, isOpen (fWrite volume fil bytes).2.2 other = isOpen volume other
  isOpen_fLseek : ∀ volume fil offset other, isOpen (fLseek volume fil offset).2 other = isOpen volume other
  refused_fClose : ∀ volume fil, isOpen volume fil = false →
    (fClose volume fil).1 ≠ .ok ∧ (fClose volume fil).2 = volume
  refused_fRead : ∀ volume fil count, isOpen volume fil = false →
    (fRead volume fil count).1 ≠ .ok ∧ (fRead volume fil count).2.2 = volume
  refused_fWrite : ∀ volume fil bytes, isOpen volume fil = false →
    (fWrite volume fil bytes).1 ≠ .ok ∧ (fWrite volume fil bytes).2.2 = volume

/-- A library whose open objects are byte files and whose calls on them succeed. -/
structure ByteBacked {Volume : Type} (fs : Library Volume) where
  file : Volume → Fil → ByteFile
  name : Volume → Fil → String
  opened : ∀ volume fil path mode, (fs.fOpen volume fil path mode).1 = .ok →
    name (fs.fOpen volume fil path mode).2 fil = path
  created : ∀ volume fil path mode, (fs.fOpen volume fil path mode).1 = .ok → mode.getLsbD 3 = true →
    file (fs.fOpen volume fil path mode).2 fil = ByteFile.empty
  open_other : ∀ volume fil path mode other, other ≠ fil → fs.isOpen volume other = true → name volume other ≠ path →
      file (fs.fOpen volume fil path mode).2 other = file volume other ∧
        name (fs.fOpen volume fil path mode).2 other = name volume other
  fRead_eq : ∀ volume fil count, fs.isOpen volume fil = true → (fs.fRead volume fil count).1 = .ok ∧
    (fs.fRead volume fil count).2.1 = ((file volume fil).read count.toNat).1 ∧
    file (fs.fRead volume fil count).2.2 fil = ((file volume fil).read count.toNat).2
  fWrite_eq : ∀ volume fil bytes, fs.isOpen volume fil = true → (fs.fWrite volume fil bytes).1 = .ok ∧
    (fs.fWrite volume fil bytes).2.1 = BitVec.ofNat 32 ((file volume fil).accepted bytes).length ∧
    file (fs.fWrite volume fil bytes).2.2 fil = (file volume fil).write bytes
  fLseek_eq : ∀ volume fil offset, fs.isOpen volume fil = true →
    file (fs.fLseek volume fil offset).2 fil = (file volume fil).seek offset
  fTell_eq : ∀ volume fil, fs.isOpen volume fil = true → fs.fTell volume fil = (file volume fil).position
  fSize_eq : ∀ volume fil, fs.isOpen volume fil = true → fs.fSize volume fil = (file volume fil).size

/-- A volume that keeps its open files in memory, under the names they were opened with. -/
def memory : Library (Fil → Option (String × ByteFile)) where
  isOpen volume fil := (volume fil).isSome
  fOpen volume fil name _ := (.ok, Function.update volume fil (some (name, ByteFile.empty)))
  fClose volume fil :=
    match volume fil with
    | none => (.invalidObject, volume)
    | some _ => (.ok, Function.update volume fil none)
  fRead volume fil count :=
    match volume fil with
    | none => (.invalidObject, [], volume)
    | some (name, file) =>
      (.ok, (file.read count.toNat).1, Function.update volume fil (some (name, (file.read count.toNat).2)))
  fWrite volume fil bytes :=
    match volume fil with
    | none => (.invalidObject, 0, volume)
    | some (name, file) =>
      (.ok, BitVec.ofNat 32 (file.accepted bytes).length, Function.update volume fil (some (name, file.write bytes)))
  fLseek volume fil offset :=
    match volume fil with
    | none => (.invalidObject, volume)
    | some (name, file) => (.ok, Function.update volume fil (some (name, file.seek offset)))
  fTell volume fil := ((volume fil).map fun named => named.2.position).getD 0
  fSize volume fil := ((volume fil).map fun named => named.2.size).getD 0
  isOpen_fOpen volume fil name mode other := by
    by_cases same : other = fil <;> simp [same]
  isOpen_fClose volume fil other := by
    cases held : volume fil <;> by_cases same : other = fil <;>
      simp [same, held]
  isOpen_fRead volume fil count other := by
    cases held : volume fil <;> by_cases same : other = fil <;>
      simp [same, held]
  isOpen_fWrite volume fil bytes other := by
    cases held : volume fil <;> by_cases same : other = fil <;>
      simp [same, held]
  isOpen_fLseek volume fil offset other := by
    cases held : volume fil <;> by_cases same : other = fil <;>
      simp [same, held]
  refused_fClose volume fil closed := by
    rw [Option.isSome_eq_false_iff, Option.isNone_iff_eq_none] at closed
    simp [closed]
  refused_fRead volume fil count closed := by
    rw [Option.isSome_eq_false_iff, Option.isNone_iff_eq_none] at closed
    simp [closed]
  refused_fWrite volume fil bytes closed := by
    rw [Option.isSome_eq_false_iff, Option.isNone_iff_eq_none] at closed
    simp [closed]

def memoryBacked : ByteBacked memory where
  file volume fil := ((volume fil).map Prod.snd).getD ByteFile.empty
  name volume fil := ((volume fil).map Prod.fst).getD ""
  opened volume fil path mode _ := by simp [memory]
  created volume fil path mode _ _ := by simp [memory]
  open_other volume fil path mode other apart _ _ := by
    simp [memory, Function.update_of_ne apart]
  fRead_eq volume fil count held := by
    obtain ⟨named, holds⟩ := Option.isSome_iff_exists.mp held
    simp [memory, holds]
  fWrite_eq volume fil bytes held := by
    obtain ⟨named, holds⟩ := Option.isSome_iff_exists.mp held
    simp [memory, holds]
  fLseek_eq volume fil offset held := by
    obtain ⟨named, holds⟩ := Option.isSome_iff_exists.mp held
    simp [memory, holds]
  fTell_eq volume fil held := by
    obtain ⟨named, holds⟩ := Option.isSome_iff_exists.mp held
    simp [memory, holds]
  fSize_eq volume fil held := by
    obtain ⟨named, holds⟩ := Option.isSome_iff_exists.mp held
    simp [memory, holds]

end LunaOS.FatFs
