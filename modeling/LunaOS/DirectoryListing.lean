import LunaOS.ByteMemory
import Mathlib.Data.List.Basic

/-! A directory read entry by entry, from the program through `mlibc` to the kernel and
back (`readDir` and `openDir` of `syscalls/syscalls_calls.cpp`, `sys_read_entries` of
`sysdeps/luna/generic/luna.cpp`). The kernel copies a name without its terminator to the
buffer that `data.name` points to, and the library reads that buffer as a string: what a
call delivers depends on the names before it. -/
namespace LunaOS.DirectoryListing
open ByteMemory Option

abbrev Name := List Byte

/-- A directory that is open, with the names `f_readdir` has still to deliver. -/
structure Dir where
  names : List Name

/-- `f_readdir`: the next name, or an empty one at the end. -/
def fReaddir (dir : Dir) : Name × Dir :=
  match dir.names with
  | [] => ([], dir)
  | name :: rest => (name, ⟨rest⟩)

/-! ## The kernel -/

/-- `memcpy` to `data->name`, whose bytes up to the end of its pages are `buffer`; `none`
is a fault. -/
def memcpyName (buffer : List Byte) (fname : Name) : Option (List Byte) :=
  if fname.length ≤ buffer.length then some (fname ++ buffer.drop fname.length) else none

/-- `Syscall::Calls::readDir`. `List::get` checks no index: a number outside the list reads
whatever stands there, and has no result here. -/
def readDir (openDirectories : List Dir) (fd : Nat) (buffer : List Byte) : Option (Bool × List Dir × List Byte) :=
  openDirectories[fd]?.bind fun dir =>
    let (fname, dir) := fReaddir dir
    (memcpyName buffer fname).map fun buffer => (true, openDirectories.set fd dir, buffer)

/-- `Syscall::Calls::openDir`, of a path `f_opendir` finds or not. -/
def openDir (openDirectories : List Dir) (found : Option (List Name)) : Option Nat × List Dir :=
  match found with
  | none => (none, openDirectories)
  | some names =>
    let openDirectories := openDirectories ++ [⟨names⟩]
    (some (openDirectories.length - 1), openDirectories)

/-! ## The library -/

/-- What `strcpy` copies, without the terminator; `none` when there is none. -/
def cString (buffer : List Byte) : Option Name :=
  if 0 ∈ buffer then some (buffer.takeWhile (· ≠ 0)) else none

/-- What `sys_read_entries` reports: an entry, `bytes_read = 0`, or -1. -/
inductive Entry where
  | name (dName : Name)
  | finished
  | failed
  deriving DecidableEq, Repr

/-- `mlibc::sys_read_entries` -/
def sysReadEntries (openDirectories : List Dir) (handle : Nat) (buffer : List Byte) :
    Option (Entry × List Dir × List Byte) := do
  let (result, openDirectories, buffer) ← readDir openDirectories handle buffer
  if result then
    let first ← buffer.head?
    if first = 0 then some (.finished, openDirectories, buffer)
    else
      let dName ← cString buffer
      some (.name dName, openDirectories, buffer)
  else some (.failed, openDirectories, buffer)

/-- A program's calls, one after the other, with the buffer of each call the next one's. -/
def readEntries (handle : Nat) : Nat → List Dir → List Byte → Option (List Entry)
  | 0, _, _ => some []
  | calls + 1, openDirectories, buffer => do
    let (entry, openDirectories, buffer) ← sysReadEntries openDirectories handle buffer
    let rest ← readEntries handle calls openDirectories buffer
    some (entry :: rest)

/-- A program that opens a directory and reads it. -/
def listDirectory (openDirectories : List Dir) (names : List Name) (calls : Nat) (buffer : List Byte) :
    Option (List Entry) :=
  match openDir openDirectories (some names) with
  | (none, _) => none
  | (some handle, openDirectories) => readEntries handle calls openDirectories buffer

/-! ## One call -/

/-- The names a directory can have. -/
def Valid (name : Name) : Prop := name ≠ [] ∧ 0 ∉ name

/-- The buffer once a name was copied over it. -/
def overwrite (buffer : List Byte) (name : Name) : List Byte := name ++ buffer.drop name.length

theorem cString_overwrite (valid : Valid name) :
    cString (overwrite buffer name) = some name ↔ buffer[name.length]? = some 0 := by
  have nonzero : ∀ byte ∈ name, decide (byte ≠ 0) = true := by
    intro byte member
    apply decide_eq_true
    rintro rfl
    exact valid.2 member
  have copied : (overwrite buffer name).takeWhile (· ≠ 0) = name ++ (buffer.drop name.length).takeWhile (· ≠ 0) :=
    List.takeWhile_append_of_pos nonzero
  rw [← List.head?_drop]
  unfold cString
  rw [copied]
  cases rest : buffer.drop name.length with
  | nil =>
    have clear : 0#8 ∉ name := valid.2
    simp [overwrite, rest, clear]
  | cons byte after =>
    by_cases zero : byte = 0#8
    · simp [overwrite, rest, zero]
    · simp [zero]

section Calls
variable {before : List Dir} {names rest : List Name} {name : Name} {buffer : List Byte}

theorem readDir_next : readDir (before ++ [⟨name :: rest⟩]) before.length buffer =
    (memcpyName buffer name).map fun buffer => (true, before ++ [⟨rest⟩], buffer) := by
  simp [readDir, fReaddir]

theorem sysReadEntries_next (valid : Valid name) (fits : name.length ≤ buffer.length) :
    sysReadEntries (before ++ [⟨name :: rest⟩]) before.length buffer =
      (cString (overwrite buffer name)).map fun dName =>
        (.name dName, before ++ [⟨rest⟩], overwrite buffer name) := by
  obtain ⟨present, clear⟩ := valid
  obtain ⟨first, more, rfl⟩ := List.exists_cons_of_ne_nil present
  have nonzero : first ≠ 0 := fun zero => clear (by simp [zero])
  simp only [sysReadEntries, readDir_next, memcpyName, if_pos fits, map_some, bind_eq_bind,
    bind_some, if_true, List.cons_append, List.head?_cons, if_neg nonzero, overwrite]
  cases cString _ <;> rfl

theorem sysReadEntries_last : sysReadEntries (before ++ [⟨[]⟩]) before.length buffer =
    buffer.head?.bind fun first => if first = 0 then some (.finished, before ++ [⟨[]⟩], buffer)
      else (cString buffer).map fun dName => (.name dName, before ++ [⟨[]⟩], buffer) := by
  have copied : readDir (before ++ [⟨[]⟩]) before.length buffer = some (true, before ++ [⟨[]⟩], buffer) := by
    simp [readDir, fReaddir, memcpyName]
  simp only [sysReadEntries, copied, bind_eq_bind, bind_some, if_true]
  cases buffer.head? with
  | none => rfl
  | some first =>
    simp only [bind_some]
    split
    · rfl
    · cases cString buffer <;> rfl

/-! ## A whole directory -/

/-- Behind each name stands a terminator that was there before. -/
def Separated : List Byte → List Name → Prop
  | _, [] => True
  | buffer, name :: rest => buffer[name.length]? = some 0 ∧ Separated (overwrite buffer name) rest

/-- The buffer after all names. -/
def leftover (buffer : List Byte) (names : List Name) : List Byte := names.foldl overwrite buffer

/-- The names arrive exactly when each is separated, and the calls after them go on from
what they left. -/
theorem readEntries_names (valid : ∀ name ∈ names, Valid name) (calls : Nat) (entries : List Entry) :
    readEntries before.length (names.length + calls) (before ++ [⟨names⟩]) buffer =
        some (names.map .name ++ entries) ↔ Separated buffer names ∧
        readEntries before.length calls (before ++ [⟨[]⟩]) (leftover buffer names) = some entries := by
  induction names generalizing buffer with
  | nil => simp [Separated, leftover]
  | cons name rest ih =>
    have first := valid name (by simp)
    have later : ∀ other ∈ rest, Valid other := fun other member => valid other (by simp [member])
    rw [List.length_cons, Nat.add_right_comm, readEntries]
    by_cases fits : name.length ≤ buffer.length
    · rw [sysReadEntries_next first fits]
      cases delivered : cString (overwrite buffer name) with
      | none =>
        have apart := (not_congr (cString_overwrite first)).mp (by rw [delivered]; simp)
        exact iff_of_false (by simp) fun both => apart both.1.1
      | some dName =>
        simp only [map_some, bind_eq_bind, bind_some, bind_eq_some_iff,
          Option.some.injEq, List.map_cons, List.cons_append, List.cons.injEq, Entry.name.injEq]
        have same : dName = name ↔ buffer[name.length]? = some 0 := by
          rw [← cString_overwrite first, delivered, Option.some.injEq]
        rw [Separated, ← same, and_assoc]
        constructor
        · rintro ⟨tail, ran, rfl, rfl⟩
          exact ⟨rfl, (ih later).mp ran⟩
        · rintro ⟨rfl, onward⟩
          exact ⟨_, (ih later).mpr onward, rfl, rfl⟩
    · have short : buffer[name.length]? = none := List.getElem?_eq_none (by omega)
      have fault : sysReadEntries (before ++ [⟨name :: rest⟩]) before.length buffer = none := by
        simp [sysReadEntries, readDir_next, memcpyName, fits]
      simp [fault, Separated, short]

/-- After a name the buffer does not begin with a terminator. -/
theorem leftover_head (valid : ∀ name ∈ names, Valid name) (nonempty : names ≠ []) :
    (leftover buffer names).head? ≠ some 0 := by
  obtain ⟨front, name, rfl⟩ := (List.eq_nil_or_concat names).resolve_left nonempty
  obtain ⟨present, clear⟩ := valid name (by simp)
  obtain ⟨first, more, rfl⟩ := List.exists_cons_of_ne_nil present
  simp only [leftover, List.concat_eq_append, List.foldl_append, List.foldl_cons, List.foldl_nil, overwrite,
    List.cons_append, List.head?_cons]
  intro zero
  apply clear
  simp [Option.some.inj zero]

theorem readEntries_end : readEntries before.length 1 (before ++ [⟨[]⟩]) buffer = some [.finished] ↔
    buffer.head? = some 0 := by
  rw [readEntries, sysReadEntries_last]
  cases buffer with
  | nil => simp
  | cons byte after =>
    by_cases zero : byte = 0#8
    · simp [zero, readEntries]
    · cases cString (byte :: after) <;> simp [zero, readEntries]

end Calls

/-- A program receives the names and then the end exactly when there are none and the
buffer begins with a terminator; the names alone arrive when each is separated. -/
theorem listing_complete_iff (openDirectories : List Dir) (names : List Name)
    (valid : ∀ name ∈ names, Valid name) (buffer : List Byte) :
    (listDirectory openDirectories names (names.length + 1) buffer = some (names.map .name ++ [.finished]) ↔
        names = [] ∧ buffer.head? = some 0) ∧
      (listDirectory openDirectories names names.length buffer = some (names.map .name) ↔
        Separated buffer names) := by
  have opened : ∀ calls, listDirectory openDirectories names calls buffer =
      readEntries openDirectories.length calls (openDirectories ++ [⟨names⟩]) buffer := by
    intro calls
    simp [listDirectory, openDir]
  constructor
  · rw [opened, readEntries_names valid, readEntries_end]
    constructor
    · rintro ⟨_, ended⟩
      by_cases none : names = []
      · subst none
        exact ⟨rfl, ended⟩
      · exact absurd ended (leftover_head valid none)
    · rintro ⟨rfl, ended⟩
      exact ⟨trivial, ended⟩
  · rw [opened, ← Nat.add_zero names.length, ← List.append_nil (names.map Entry.name), readEntries_names valid]
    simp [readEntries]

/-- An empty directory, and two names of which the second is longer. -/
theorem listing_complete_iff_growing : listDirectory [] [] 1 [0, 7] = some [.finished] ∧
      listDirectory [] [[97], [98, 99]] 2 [0, 0, 0, 0] = some [.name [97], .name [98, 99]] :=
  ⟨(listing_complete_iff [] [] (by simp) [0, 7]).1.mpr ⟨rfl, rfl⟩,
    (listing_complete_iff [] [[97], [98, 99]] (by simp [Valid]) [0, 0, 0, 0]).2.mpr ⟨rfl, rfl, trivial⟩⟩

/-- `b` after `aaa` arrives as `baa`, and where the end should be it arrives again. -/
theorem shorter_name_keeps_tail : listDirectory [] [[97, 97, 97], [98]] 3 [0, 0, 0, 0] =
    some [.name [97, 97, 97], .name [98, 97, 97], .name [98, 97, 97]] := by
  decide

end LunaOS.DirectoryListing
