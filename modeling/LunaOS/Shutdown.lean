import LunaOS.BoundedLoop
import LunaOS.FileDescriptors

/-! `taskingFinalize` (`tasking/tasking.cpp`), which closes the files of every
process before the machine stops. The counter of its inner loop is one byte wide;
the list it runs over is not. -/
namespace LunaOS.Shutdown
open BoundedLoop FatFs FileDescriptors

/-- The volume, and the calls of `f_close` so far. -/
structure Closing (Volume : Type) where
  volume : Volume
  closed : List Fil

section Model
variable {Volume : Type} (fs : Library Volume)

/-- `f_close(list->get(fd))`; a `NULL` object is refused. -/
def fClose (closing : Closing Volume) : Option Fil → Closing Volume
  | some fil => ⟨(fs.fClose closing.volume fil).2, closing.closed ++ [fil]⟩
  | none => closing

def closeTurn (list : DescriptorList) : Closing Volume × BitVec 8 → Turn (Closing Volume × BitVec 8) (Closing Volume)
  | (closing, fd) =>
    if fd.toNat < list.size then .again (fClose fs closing (list.get (fun _ => none) fd.toNat), fd + 1)
    else .leave closing

def closeProcess (turns : Nat) (closing : Closing Volume) (proc : Process) : Option (Closing Volume) :=
  iterate (closeTurn fs proc.fileDescriptors) turns (closing, 0)

/-- `taskingFinalize`, over the processes of each processor; their number is as
wide as the counter of the outer loop. Each loop over descriptors may take `turns`. -/
def taskingFinalize (turns : Nat) (processors : List (List Process)) (volume : Volume) : Option (Closing Volume) :=
  processors.foldlM (fun closing processes => processes.foldlM (closeProcess fs turns) closing) ⟨volume, []⟩

end Model

/-- The descriptors there are to close. -/
def descriptors (processes : List Process) : List Fil :=
  processes.flatMap fun proc => proc.fileDescriptors.buffer

section Loops
variable {Volume : Type} {fs : Library Volume} {proc : Process} {processes : List Process}

/-- `f_close` on a row of objects. -/
def closeAll (fs : Library Volume) (closing : Closing Volume) (fils : List Fil) : Closing Volume :=
  fils.foldl (fun closing fil => fClose fs closing (some fil)) closing

theorem closeAll_closed (closing : Closing Volume) (fils : List Fil) :
    (closeAll fs closing fils).closed = closing.closed ++ fils := by
  induction fils generalizing closing with
  | nil => exact (List.append_nil _).symm
  | cons fil rest ih =>
    refine (ih _).trans ?_
    simp only [fClose, List.append_assoc, List.singleton_append]

theorem iterate_close {list : DescriptorList} (short : list.size ≤ 255) (fd : BitVec 8)
    (fuel : list.size - fd.toNat < turns) (within : fd.toNat ≤ list.size) :
    iterate (closeTurn fs list) turns (closing, fd) = some (closeAll fs closing (list.buffer.drop fd.toNat)) := by
  induction remaining : list.size - fd.toNat generalizing fd turns closing with
  | zero =>
    have past : ¬ fd.toNat < list.size := by omega
    have none : list.buffer.drop fd.toNat = [] := List.drop_of_length_le (Nat.not_lt.mp past)
    rw [none]
    exact iterate_leave (if_neg past) (by omega)
  | succ remaining ih =>
    obtain ⟨turns, rfl⟩ : ∃ rest, turns = rest + 1 := ⟨turns - 1, by omega⟩
    have more : fd.toNat < list.size := by omega
    have inside : fd.toNat < list.buffer.length := more
    have next : (fd + 1).toNat = fd.toNat + 1 := by
      rw [BitVec.toNat_add, show (1 : BitVec 8).toNat = 1 from rfl]
      omega
    have found : list.get (fun _ => none) fd.toNat = some list.buffer[fd.toNat] := by
      rw [DescriptorList.get, if_pos (by omega), Int.toNat_natCast, List.getElem?_eq_getElem inside]
    have asked : closeTurn fs list (closing, fd) = .again (fClose fs closing (some list.buffer[fd.toNat]), fd + 1) := by
      rw [closeTurn, if_pos more, found]
    rw [iterate_again asked, ih (fd + 1) (by omega) (by omega) (by omega), next, List.drop_eq_getElem_cons inside]
    rfl

/-- A list of 256 objects or more is closed forever. -/
theorem iterate_close_never {list : DescriptorList} (long : 256 ≤ list.size) (turns : Nat) :
    iterate (closeTurn fs list) turns (closing, fd) = none := by
  apply iterate_never (fun _ => True) trivial
  rintro ⟨closing, fd⟩ _
  have inside : fd.toNat < list.size := Nat.lt_of_lt_of_le fd.isLt long
  exact ⟨_, if_pos inside, trivial⟩

theorem closeProcess_short (short : proc.fileDescriptors.size ≤ 255) (fuel : 256 ≤ turns) (closing : Closing Volume) :
    closeProcess fs turns closing proc = some (closeAll fs closing proc.fileDescriptors.buffer) :=
  iterate_close short 0 (by omega) (Nat.zero_le _)

theorem closeProcesses_short (fuel : 256 ≤ turns) (closing : Closing Volume)
    (short : ∀ proc ∈ processes, proc.fileDescriptors.size ≤ 255) :
    processes.foldlM (closeProcess fs turns) closing = some (closeAll fs closing (descriptors processes)) := by
  induction processes generalizing closing with
  | nil => rfl
  | cons proc rest ih =>
    rw [List.foldlM_cons, closeProcess_short (short proc List.mem_cons_self) fuel, Option.bind_eq_bind,
      Option.bind_some, ih _ fun other member => short other (List.mem_cons_of_mem _ member)]
    simp only [closeAll, descriptors, List.flatMap_cons, List.foldl_append]

theorem closeProcesses_long (member : proc ∈ processes) (long : 256 ≤ proc.fileDescriptors.size)
    (closing : Closing Volume) : processes.foldlM (closeProcess fs turns) closing = none := by
  induction processes generalizing closing with
  | nil => cases member
  | cons first rest ih =>
    rw [List.foldlM_cons]
    rcases List.mem_cons.mp member with rfl | later
    · rw [closeProcess, iterate_close_never long]
      rfl
    · cases closeProcess fs turns closing first with
      | none => rfl
      | some next => exact ih later next

theorem taskingFinalize_eq (processors : List (List Process)) (volume : Volume) :
    taskingFinalize fs turns processors volume = processors.flatten.foldlM (closeProcess fs turns) ⟨volume, []⟩ := by
  rw [taskingFinalize]
  generalize (⟨volume, []⟩ : Closing Volume) = closing
  induction processors generalizing closing with
  | nil => rfl
  | cons processes rest ih =>
    rw [List.foldlM_cons, List.flatten_cons, List.foldlM_append]
    exact congrArg _ (funext ih)

end Loops

/-- The shutdown ends, with each descriptor of each process closed once, exactly
when no process has opened more than 255. -/
theorem finalize_closes_iff {Volume : Type} (fs : Library Volume) (processors : List (List Process))
    (volume : Volume) : (∃ turns closing, taskingFinalize fs turns processors volume = some closing ∧
        closing.closed = descriptors processors.flatten) ↔
      ∀ proc ∈ processors.flatten, proc.fileDescriptors.size ≤ 255 := by
  constructor
  · rintro ⟨turns, closing, returned, _⟩ proc member
    by_contra long
    rw [taskingFinalize_eq, closeProcesses_long member (by omega)] at returned
    cases returned
  · intro short
    refine ⟨256, _, (taskingFinalize_eq processors volume).trans (closeProcesses_short (Nat.le_refl _) _ short), ?_⟩
    exact closeAll_closed _ _

/-- A process that has opened 253 files beside its streams. -/
def crowded : Process where
  stdin := 0
  stdout := 1
  stderr := 2
  stdinWritePtr := 0
  stdoutReadPtr := 0
  fileDescriptors := ⟨List.range 256, 320, by simp, by omega, by omega⟩

theorem crowded_never_ends :
    ¬ ∃ turns closing, taskingFinalize memory turns [[crowded]] (fun _ => none) = some closing := by
  have long : crowded.fileDescriptors.size = 256 := by simp [crowded, DescriptorList.size]
  rintro ⟨turns, closing, returned⟩
  have member : crowded ∈ [[crowded]].flatten := List.mem_cons_self
  rw [taskingFinalize_eq, closeProcesses_long member (Nat.le_of_eq long.symm)] at returned
  cases returned

end LunaOS.Shutdown
