import Mathlib.Data.List.Basic
import Mathlib.Logic.Function.Basic

/-! The system call table (`syscalls/syscalls.cpp`). A registration writes the word
that its number indexes, and a call jumps to the word that the low 16 bits of `rax`
index; neither compares the index with the size of the table. -/
namespace LunaOS.SyscallTable

/-- `SyscallHandler_t`, as the address of the code; 0 is `NULL`. -/
abbrev Handler := BitVec 64

/-- The handlers in `Syscall::Calls` that `initialize` registers. -/
inductive Call where
  | debug | futexTID | futexWait | futexWake | tcbSet | vmMap | vmUnmap | exit | getpid | getppid
  | clockGet | getcwd | chdir | sleep | getuid | geteuid | setuid | seteuid | getgid | getegid
  | setgid | setegid | yield | clone | threadExit | waitpid | fork | execve | open | close | read
  | write | readDir | openDir | printSTDOUT
  deriving DecidableEq, Repr

/-- The `SYS_*` numbers of `syscalls_calls.hpp`, and the 254 of `printSTDOUT`. -/
def number : Call → BitVec 16
  | .futexTID => 0 | .futexWait => 1 | .futexWake => 2 | .tcbSet => 3 | .vmMap => 4 | .vmUnmap => 5
  | .exit => 10 | .getpid => 11 | .getppid => 12 | .clockGet => 13 | .getcwd => 14 | .chdir => 15
  | .sleep => 16 | .getuid => 17 | .geteuid => 18 | .setuid => 19 | .seteuid => 20 | .getgid => 21
  | .getegid => 22 | .setgid => 23 | .setegid => 24 | .yield => 25 | .clone => 26 | .threadExit => 27
  | .waitpid => 28 | .fork => 29 | .execve => 30 | .open => 32 | .close => 33 | .read => 34
  | .write => 35 | .readDir => 36 | .openDir => 37 | .printSTDOUT => 254 | .debug => 255

/-- The entries of `systemCalls`. -/
def tableSize : Nat := 100

/-- The words from `systemCalls` on, of which the first 100 are the table, and the
indices `registerHandler` has written. -/
structure Table where
  words : BitVec 16 → Handler
  writes : List (BitVec 16)

/-- `Syscall::registerHandler`; `none` is `kernelPanic`. -/
def registerHandler (table : Table) (id : BitVec 16) (handler : Handler) : Option Table :=
  if 255 < id then none
  else some ⟨Function.update table.words id handler, id :: table.writes⟩

def registerAll (table : Table) (registrations : List (BitVec 16 × Handler)) : Option Table :=
  registrations.foldlM (fun table registration => registerHandler table registration.1 registration.2) table

/-- The table in zeroed storage, before other data. -/
def cleared (beyond : BitVec 16 → Handler) : Table :=
  ⟨fun id => if id.toNat < tableSize then 0 else beyond id, []⟩

/-- The order in which `Syscall::initialize` registers. -/
def registered : List Call :=
  [.debug, .futexTID, .futexWait, .futexWake, .tcbSet, .vmMap, .vmUnmap, .exit, .getpid, .getppid, .clockGet,
    .getcwd, .chdir, .sleep, .getuid, .geteuid, .setuid, .seteuid, .getgid, .getegid, .setgid, .setegid, .yield,
    .clone, .threadExit, .waitpid, .fork, .execve, .open, .close, .read, .write, .readDir, .openDir,
    .printSTDOUT]

/-- `Syscall::initialize`, in a kernel that has its handlers where `link` says. -/
def initializeCalls (link : Call → Handler) (beyond : BitVec 16 → Handler) : Option Table :=
  registerAll (cleared beyond) (registered.map fun call => (number call, link call))

/-- `Syscall::handle`: the address it calls, from `rax` truncated to `uint16_t`. -/
def handle (table : Table) (rax : BitVec 64) : Option Handler :=
  let syscallId : BitVec 16 := rax.setWidth 16
  some (table.words syscallId)

/-! ## What is meant -/

/-- Writes stay inside the table. -/
def InTable (table : Table) : Prop := ∀ id ∈ table.writes, id.toNat < tableSize

/-- Whatever is called is not `NULL` and was registered under exactly this number. -/
def Confined (registrations : List (BitVec 16 × Handler)) (rax : BitVec 64) (called : Option Handler) : Prop :=
  ∀ handler, called = some handler → handler ≠ 0 ∧ ∃ id, id.toNat = rax.toNat ∧ (id, handler) ∈ registrations

/-- The handler registered last under a number. -/
def lastUnder (registrations : List (BitVec 16 × Handler)) (rax : BitVec 64) : Option Handler :=
  (registrations.reverse.find? fun registration => registration.1.toNat = rax.toNat).map Prod.snd

/-! ## Registration -/

theorem registerHandler_some {table after : Table} {id : BitVec 16} (ran : registerHandler table id handler = some after) :
    after.words = Function.update table.words id handler ∧ after.writes = id :: table.writes := by
  unfold registerHandler at ran
  split at ran
  · cases ran
  · cases ran
    exact ⟨rfl, rfl⟩

/-- A run of registrations writes their numbers and leaves the last handler of each. -/
theorem registerAll_spec {table after : Table} {registrations : List (BitVec 16 × Handler)}
    (ran : registerAll table registrations = some after) :
    after.writes = (registrations.map Prod.fst).reverse ++ table.writes ∧ ∀ id, after.words id =
        ((registrations.reverse.find? fun registration => registration.1 = id).map Prod.snd).getD (table.words id) := by
  induction registrations generalizing table with
  | nil =>
    cases ran
    exact ⟨rfl, fun _ => rfl⟩
  | cons registration rest ih =>
    obtain ⟨middle, first, onward⟩ := Option.bind_eq_some_iff.mp ran
    obtain ⟨words, writes⟩ := registerHandler_some first
    obtain ⟨written, final⟩ := ih onward
    refine ⟨?_, fun id => ?_⟩
    · simp [written, writes]
    · rw [final id, words, List.reverse_cons, List.find?_append]
      cases found : rest.reverse.find? fun registration => registration.1 = id with
      | some later => simp
      | none =>
        by_cases here : registration.1 = id
        · simp [here]
        · simp [here, Function.update_of_ne (Ne.symm here)]

section Registered
variable (ran : registerAll (cleared beyond) registrations = some after)
include ran

theorem registerAll_writes : InTable after ↔ ∀ registration ∈ registrations, registration.1.toNat < tableSize := by
  simp [InTable, (registerAll_spec ran).1, cleared]

/-! ## Dispatch -/

/-- Below 2 ^ 16 the word that is called was registered last under the number. -/
theorem handle_registered (found : lastUnder registrations rax = some handler) : handle after rax = some handler := by
  obtain ⟨registration, first, rfl⟩ := Option.map_eq_some_iff.mp found
  have exact : registration.1.toNat = rax.toNat := by simpa using List.find?_some first
  have index : rax.setWidth 16 = registration.1 := by
    apply BitVec.eq_of_toNat_eq
    rw [BitVec.toNat_setWidth, ← exact, Nat.mod_eq_of_lt registration.1.isLt]
  have same : (fun other : BitVec 16 × Handler => decide (other.1.toNat = rax.toNat)) =
      fun other => decide (other.1 = registration.1) := by
    funext other
    simp only [← exact, BitVec.toNat_inj]
  rw [same] at first
  simp [handle, index, (registerAll_spec ran).2, first]

theorem confined_iff :
    Confined registrations rax (handle after rax) ↔ ∃ handler, handler ≠ 0 ∧ lastUnder registrations rax = some handler := by
  constructor
  · intro confined
    obtain ⟨present, id, exact, member⟩ := confined _ rfl
    obtain ⟨handler, found⟩ : ∃ handler, lastUnder registrations rax = some handler := by
      cases missing : lastUnder registrations rax with
      | some handler => exact ⟨handler, rfl⟩
      | none =>
        rw [lastUnder, Option.map_eq_none_iff, List.find?_eq_none] at missing
        exact absurd (decide_eq_true exact) (missing _ (List.mem_reverse.mpr member))
    refine ⟨handler, ?_, found⟩
    have called := Option.some.inj (handle_registered ran found)
    rwa [called] at present
  · rintro ⟨handler, present, found⟩ called same
    rw [handle_registered ran found] at same
    cases same
    obtain ⟨registration, first, rfl⟩ := Option.map_eq_some_iff.mp found
    refine ⟨present, registration.1, ?_, List.mem_reverse.mp (List.mem_of_find?_eq_some first)⟩
    simpa using List.find?_some first

end Registered

/-- After registrations that do not panic, the table is respected and a call is confined
exactly when all numbers are below 100 and `rax` is one whose last handler is there. -/
theorem dispatch_confined_iff (beyond : BitVec 16 → Handler) (registrations : List (BitVec 16 × Handler))
    (after : Table) (ran : registerAll (cleared beyond) registrations = some after) (rax : BitVec 64) :
    InTable after ∧ Confined registrations rax (handle after rax) ↔
      (∀ registration ∈ registrations, registration.1.toNat < tableSize) ∧
        ∃ handler, handler ≠ 0 ∧ lastUnder registrations rax = some handler :=
  and_congr (registerAll_writes ran) (confined_iff ran)

/-- Three registrations, one of them of a number that is taken, and the call that reaches the last. -/
theorem dispatch_confined_iff_again : ∃ after,
    registerAll (cleared fun _ => 0) [(4, 0x1000), (7, 0x2000), (4, 0x3000)] = some after ∧ InTable after ∧
      handle after 4 = some 0x3000 ∧ Confined [(4, 0x1000), (7, 0x2000), (4, 0x3000)] 4 (handle after 4) :=
  have confined := (dispatch_confined_iff (fun _ => 0) [(4, 0x1000), (7, 0x2000), (4, 0x3000)] _ rfl 4).mpr
    ⟨by simp [tableSize], 0x3000, by decide, rfl⟩
  ⟨_, rfl, confined.1, rfl, confined.2⟩

/-- The kernel's own registrations write past the table, a number nobody registered calls
`NULL`, and one above 2 ^ 16 calls the handler of another. -/
theorem kernel_registrations_leave_table : ∃ after, initializeCalls (fun _ => 0x1000) (fun _ => 0) = some after ∧
    255 ∈ after.writes ∧ ¬ InTable after ∧ handle after 38 = some 0 ∧ handle after 0x10004 = some 0x1000 := by
  refine ⟨_, rfl, by decide, ?_, by decide, by decide⟩
  intro inside
  exact absurd (inside 255 (by decide)) (by decide)

end LunaOS.SyscallTable
