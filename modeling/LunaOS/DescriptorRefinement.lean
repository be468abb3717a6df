import LunaOS.FileDescriptors

/-! The calls on descriptors against the table a program expects. Every reachable
machine represents a table; in it each call keeps the table's contract exactly under
a condition on the call, because the kernel neither checks a number against the list
nor forgets a descriptor that was closed, and takes every close and read for good. -/
namespace LunaOS.DescriptorRefinement
open ByteMemory FatFs FileDescriptors

inductive Call where
  | open_ (name : String) (flags : BitVec 32)
  | close (fd : BitVec 32)
  | read (fd count : BitVec 32)
  | write (fd : BitVec 32) (buf : Nat → Byte) (btw : BitVec 64)

def Call.fd : Call → Option (BitVec 32)
  | open_ _ _ => none
  | close fd | read fd _ | write fd _ _ => some fd

variable {Volume : Type} (fs : Library Volume)

def serve (stray : Int → Option Fil) (machine : Machine Volume) : Call → Option (Reply × Machine Volume)
  | .open_ name flags => sysOpen fs machine name flags
  | .close fd => some (sysClose fs stray machine fd)
  | .read fd count => some (sysRead fs stray machine fd count)
  | .write fd buf btw => some (sysWrite fs stray machine fd buf btw)

/-- The descriptors opens have returned and no close has ended. -/
abbrev Table := Finset (BitVec 32)

/-- An open that succeeded adds what it returned; a close ends a descriptor when
FatFs closed its file. -/
def Table.after (table : Table) (reply : Reply) : Call → Table
  | .open_ _ _ => if reply.result then reply.fd.elim table (insert · table) else table
  | .close fd => if reply.fresult = some .ok then table.erase fd else table
  | .read _ _ | .write _ _ _ => table

/-- A standard stream or a descriptor of the table. -/
def Live (table : Table) (fd : BitVec 32) : Prop := fd = 0 ∨ fd = 1 ∨ fd = 2 ∨ fd ∈ table

/-- What the table promises about one call. -/
def Conforms (table : Table) (machine : Machine Volume) (call : Call) (reply : Reply)
    (after : Machine Volume) : Prop :=
  (reply.result = true → reply.fresult = some .ok) ∧
  ∀ fd, call.fd = some fd → (reply.result = true → Live table fd) ∧
    (¬ Live table fd → reply.result = false ∧ after = machine ∧
      ∀ index ∈ reply.accessed, 0 ≤ index ∧ index < machine.proc.fileDescriptors.size)

/-- The calls for which it is kept. -/
def Meets (table : Table) (machine : Machine Volume) (reply : Reply) : Call → Prop
  | .open_ _ _ => True
  | .close fd | .read fd _ => Live table fd ∧ reply.fresult = some .ok
  | .write fd _ _ => machine.proc.fileDescriptors.Inside fd

/-- The machine's list and volume against the table. A descriptor that is not in the
table stands for a closed file. -/
structure Represents (machine : Machine Volume) (table : Table) : Prop where
  standard : 3 ≤ machine.proc.fileDescriptors.size
  known : ∀ fil ∈ machine.proc.fileDescriptors.buffer, fil < machine.nextFil
  unused : ∀ fil : Nat, machine.nextFil ≤ fil → fs.isOpen machine.volume fil = false
  listed : ∀ fd ∈ table, fd.toNat < machine.proc.fileDescriptors.size
  closed : ∀ fd : BitVec 32, 3 ≤ fd.toNat → fd ∉ table →
    ∀ fil, machine.proc.fileDescriptors.buffer[fd.toNat]? = some fil → fs.isOpen machine.volume fil = false

variable {fs} {machine after : Machine Volume} {table : Table}

theorem Represents.live_inside (represents : Represents fs machine table) (live : Live table fd) :
    machine.proc.fileDescriptors.Inside fd := by
  have standard := represents.standard
  rw [DescriptorList.inside_iff]
  rcases live with rfl | rfl | rfl | member
  · exact Nat.lt_of_lt_of_le (by decide) standard
  · exact Nat.lt_of_lt_of_le (by decide) standard
  · exact Nat.lt_of_lt_of_le (by decide) standard
  · exact represents.listed fd member

theorem Represents.element (inside : machine.proc.fileDescriptors.Inside fd) :
    ∃ fil, machine.proc.fileDescriptors.buffer[fd.toNat]? = some fil := by
  have below := DescriptorList.inside_iff.mp inside
  exact ⟨_, List.getElem?_eq_getElem below⟩

/-- An element of the list that is not live is closed. -/
theorem Represents.dead_closed (represents : Represents fs machine table) (dead : ¬ Live table fd)
    (element : machine.proc.fileDescriptors.buffer[fd.toNat]? = some fil) : fs.isOpen machine.volume fil = false := by
  simp only [Live, not_or] at dead
  obtain ⟨notIn, notOut, notErr, absent⟩ := dead
  refine represents.closed fd ?_ absent fil element
  by_contra small
  have cases : fd.toNat = 0 ∨ fd.toNat = 1 ∨ fd.toNat = 2 := by omega
  rcases cases with zero | one | two
  · exact notIn (BitVec.eq_of_toNat_eq zero)
  · exact notOut (BitVec.eq_of_toNat_eq one)
  · exact notErr (BitVec.eq_of_toNat_eq two)

section Opening
variable (opened : sysOpen fs machine name flags = some (reply, after))
include opened

/-- What an open can do. -/
theorem sysOpen_cases : ((fs.fOpen machine.volume machine.nextFil name (flags.setWidth 8)).1 ≠ .ok ∧
      reply.result = false ∧ after.proc = machine.proc) ∨
    ((fs.fOpen machine.volume machine.nextFil name (flags.setWidth 8)).1 = .ok ∧
      reply.result = true ∧ reply.fresult = some .ok ∧
      reply.fd = some (BitVec.ofNat 32 machine.proc.fileDescriptors.size) ∧
      after.proc.fileDescriptors.buffer = machine.proc.fileDescriptors.buffer ++ [machine.nextFil]) := by
  unfold sysOpen at opened
  dsimp only at opened
  split at opened
  · rename_i failed
    cases opened
    exact .inl ⟨failed, rfl, rfl⟩
  · rename_i succeeded
    obtain ⟨longer, added, same⟩ := Option.bind_eq_some_iff.mp opened
    have longerBuffer := DescriptorList.add_buffer added
    have last : ((longer.size : Int) - 1) = machine.proc.fileDescriptors.size := by
      simp [DescriptorList.size, longerBuffer]
    cases same
    rw [not_not] at succeeded
    exact .inr ⟨succeeded, rfl, congrArg some succeeded, by rw [last]; rfl, longerBuffer⟩

theorem sysOpen_volume : after.volume = (fs.fOpen machine.volume machine.nextFil name (flags.setWidth 8)).2 ∧
      after.nextFil = machine.nextFil + 1 := by
  unfold sysOpen at opened
  dsimp only at opened
  split at opened
  · cases opened
    exact ⟨rfl, rfl⟩
  · obtain ⟨longer, -, same⟩ := Option.bind_eq_some_iff.mp opened
    cases same
    exact ⟨rfl, rfl⟩

/-- Files other than the new one stay as they were, and the new one is open when the open succeeded. -/
theorem sysOpen_isOpen (fil : Fil) : fs.isOpen after.volume fil = if fil = machine.nextFil
      then decide ((fs.fOpen machine.volume machine.nextFil name (flags.setWidth 8)).1 = .ok)
      else fs.isOpen machine.volume fil := by
  rw [(sysOpen_volume opened).1, fs.isOpen_fOpen]

end Opening

theorem Represents.opened (represents : Represents fs machine table)
    (opened : sysOpen fs machine name flags = some (reply, after)) :
    Represents fs after (table.after reply (.open_ name flags)) := by
  obtain ⟨standard, known, unused, listed, closed⟩ := represents
  have isOpen := sysOpen_isOpen opened
  have nextFil := (sysOpen_volume opened).2
  have stillUnused : ∀ fil : Nat, after.nextFil ≤ fil → fs.isOpen after.volume fil = false := by
    intro fil above
    have later : machine.nextFil < fil := by omega
    rw [isOpen, if_neg (Nat.ne_of_gt later)]
    exact unused fil (Nat.le_of_lt later)
  have same : ∀ fil ∈ machine.proc.fileDescriptors.buffer,
      fs.isOpen after.volume fil = fs.isOpen machine.volume fil := by
    intro fil member
    rw [isOpen, if_neg (Nat.ne_of_lt (known fil member))]
  rcases sysOpen_cases opened with ⟨-, failed, proc⟩ | ⟨-, succeeded, -, returned, buffer⟩
  · simp only [Table.after, failed, Bool.false_eq_true, if_false]
    constructor
    · rwa [proc]
    · rw [proc, nextFil]
      exact fun fil member => Nat.lt_succ_of_lt (known fil member)
    · exact stillUnused
    · rwa [proc]
    · rw [proc]
      intro fd high absent fil element
      rw [same fil (List.mem_of_getElem? element)]
      exact closed fd high absent fil element
  · have size : after.proc.fileDescriptors.size = machine.proc.fileDescriptors.size + 1 := by
      simp [DescriptorList.size, buffer]
    have small := machine.proc.fileDescriptors.size_lt
    simp only [Table.after, succeeded, if_true, returned, Option.elim_some]
    constructor
    · omega
    · rw [buffer, nextFil]
      intro fil member
      rcases List.mem_append.mp member with old | new
      · exact Nat.lt_succ_of_lt (known fil old)
      · rw [List.mem_singleton.mp new]
        exact Nat.lt_succ_self _
    · exact stillUnused
    · intro fd member
      rcases Finset.mem_insert.mp member with rfl | old
      · rw [size, BitVec.toNat_ofNat, Nat.mod_eq_of_lt (by omega)]
        omega
      · have below := listed fd old
        omega
    · intro fd high absent fil element
      obtain ⟨notNew, notOld⟩ := not_or.mp (mt Finset.mem_insert.mpr absent)
      rw [buffer] at element
      have old : fd.toNat < machine.proc.fileDescriptors.size := by
        have below := (List.getElem?_eq_some_iff.mp element).1
        rw [List.length_append, List.length_singleton] at below
        refine Nat.lt_of_le_of_ne (Nat.le_of_lt_succ below) ?_
        intro last
        apply notNew
        rw [← last, BitVec.ofNat_toNat, BitVec.setWidth_eq]
      rw [List.getElem?_append_left old] at element
      rw [same fil (List.mem_of_getElem? element)]
      exact closed fd high notOld fil element

/-- A call that opens nothing and leaves the process alone keeps what is represented. -/
theorem Represents.fewer_open (represents : Represents fs machine table)
    (proc : after.proc = machine.proc) (nextFil : after.nextFil = machine.nextFil)
    (fewer : ∀ fil, fs.isOpen machine.volume fil = false → fs.isOpen after.volume fil = false) :
    Represents fs after table := by
  obtain ⟨standard, known, unused, listed, closed⟩ := represents
  constructor
  · rwa [proc]
  · rwa [proc, nextFil]
  · rw [nextFil]
    exact fun fil above => fewer fil (unused fil above)
  · rwa [proc]
  · rw [proc]
    exact fun fd high absent fil element => fewer fil (closed fd high absent fil element)

theorem sysClose_frame {stray : Int → Option Fil} (result : sysClose fs stray machine fd = (reply, after)) :
    after.proc = machine.proc ∧ after.nextFil = machine.nextFil ∧
      ∀ fil, fs.isOpen machine.volume fil = false → fs.isOpen after.volume fil = false := by
  unfold sysClose at result
  split at result
  · cases result
    exact ⟨rfl, rfl, fun _ shut => shut⟩
  · cases result
    refine ⟨rfl, rfl, fun fil shut => ?_⟩
    rw [fs.isOpen_fClose, shut, Bool.false_and]

theorem sysRead_frame {stray : Int → Option Fil} (result : sysRead fs stray machine fd count = (reply, after)) :
    after.proc = machine.proc ∧ after.nextFil = machine.nextFil ∧
      ∀ fil, fs.isOpen after.volume fil = fs.isOpen machine.volume fil := by
  unfold sysRead at result
  split at result
  · cases result
    exact ⟨rfl, rfl, fun _ => rfl⟩
  · cases result
    exact ⟨rfl, rfl, fs.isOpen_fRead _ _ _⟩

theorem sysWrite_frame {stray : Int → Option Fil} {btw : BitVec 64}
    (result : sysWrite fs stray machine fd buf btw = (reply, after)) :
    after.proc = machine.proc ∧ after.nextFil = machine.nextFil ∧
      ∀ fil, fs.isOpen after.volume fil = fs.isOpen machine.volume fil := by
  unfold sysWrite at result
  split at result
  · cases result
    exact ⟨rfl, rfl, fun _ => rfl⟩
  · cases result
    exact ⟨rfl, rfl, fs.isOpen_fWrite _ _ _⟩

/-- A close of an element of the list that FatFs carried out leaves its file closed. -/
theorem sysClose_closes {stray : Int → Option Fil} (result : sysClose fs stray machine fd = (reply, after))
    (element : machine.proc.fileDescriptors.buffer[fd.toNat]? = some fil)
    (ended : reply.fresult = some .ok) : fs.isOpen after.volume fil = false := by
  have inside : machine.proc.fileDescriptors.Inside fd :=
    DescriptorList.inside_iff.mpr (List.getElem?_eq_some_iff.mp element).1
  simp only [sysClose, DescriptorList.get_inside inside, element, Prod.mk.injEq] at result
  obtain ⟨rfl, rfl⟩ := result
  have carried : (fs.fClose machine.volume fil).1 = .ok := Option.some.inj ended
  rw [fs.isOpen_fClose, carried]
  simp

theorem Represents.closes {stray : Int → Option Fil} (represents : Represents fs machine table)
    (result : sysClose fs stray machine fd = (reply, after)) :
    Represents fs after (table.after reply (.close fd)) := by
  obtain ⟨proc, nextFil, fewer⟩ := sysClose_frame result
  have kept := represents.fewer_open proc nextFil fewer
  by_cases ended : reply.fresult = some .ok
  · simp only [Table.after, ended, if_true]
    refine ⟨kept.standard, kept.known, kept.unused, ?_, ?_⟩
    · exact fun other member => kept.listed other (Finset.mem_of_mem_erase member)
    · intro other high absent fil element
      by_cases same : other = fd
      · subst same
        rw [proc] at element
        exact sysClose_closes result element ended
      · refine kept.closed other high ?_ fil element
        exact fun member => absent (Finset.mem_erase.mpr ⟨same, member⟩)
  · simpa only [Table.after, ended, if_false] using kept

/-- One call takes a machine that represents a table to one that represents the next. -/
theorem Represents.serve {stray : Int → Option Fil} (represents : Represents fs machine table)
    (served : serve fs stray machine call = some (reply, after)) : Represents fs after (table.after reply call) := by
  cases call with
  | open_ name flags => exact represents.opened served
  | close fd => exact represents.closes (Option.some.inj served)
  | read fd count =>
    obtain ⟨proc, nextFil, same⟩ := sysRead_frame (Option.some.inj served)
    exact represents.fewer_open proc nextFil fun fil shut => (same fil).trans shut
  | write fd buf btw =>
    obtain ⟨proc, nextFil, same⟩ := sysWrite_frame (Option.some.inj served)
    exact represents.fewer_open proc nextFil fun fil shut => (same fil).trans shut

/-- A new process has its standard streams and an empty table. -/
theorem represents_created {volume : Volume} {nextFil : Nat}
    (unused : ∀ fil : Nat, nextFil ≤ fil → fs.isOpen volume fil = false)
    (created : createStreams fs volume nextFil = some machine) : Represents fs machine ∅ := by
  obtain ⟨-, -, -, volumeEq, nextFilEq, -, -, -, -, buffer⟩ := created_machine created
  have size : machine.proc.fileDescriptors.size = 3 := by simp [DescriptorList.size, buffer]
  constructor
  · omega
  · rw [buffer, nextFilEq]
    intro fil member
    simp only [List.mem_cons, List.not_mem_nil, or_false] at member
    rcases member with rfl | rfl | rfl
    · exact Nat.lt_add_of_pos_right (by decide)
    · exact Nat.add_lt_add_left (by decide) nextFil
    · exact Nat.add_lt_add_left (by decide) nextFil
  · rw [nextFilEq, volumeEq]
    intro fil above
    have notIn : fil ≠ nextFil := by omega
    have notOut : fil ≠ nextFil + 1 := by omega
    have notErr : fil ≠ nextFil + 2 := by omega
    rw [streamsOpened, fs.isOpen_fOpen, if_neg notErr, fs.isOpen_fOpen, if_neg notOut, fs.isOpen_fOpen, if_neg notIn]
    exact unused fil (by omega)
  · simp
  · intro fd high _ fil element
    have below := (List.getElem?_eq_some_iff.mp element).1
    rw [buffer] at below
    exact absurd below (Nat.not_lt.mpr high)

variable (fs) in
/-- The machines calls lead to from a new process, with the table each of them should have. -/
inductive Reached : Machine Volume → Table → Prop
  | created {volume : Volume} {nextFil : Nat} {machine : Machine Volume} :
      (∀ fil : Nat, nextFil ≤ fil → fs.isOpen volume fil = false) →
      createStreams fs volume nextFil = some machine → Reached machine ∅
  | served (stray : Int → Option Fil) (call : Call) {machine after : Machine Volume} {table : Table}
      {reply : Reply} : Reached machine table → serve fs stray machine call = some (reply, after) →
      Reached after (table.after reply call)

theorem Reached.represents (reached : Reached fs machine table) : Represents fs machine table := by
  induction reached with
  | created unused created => exact represents_created unused created
  | served _ _ _ served ih => exact ih.serve served

/-- A call that looks at the element its number names, and reports success whenever
that is an element of the list. -/
structure Unchecked (machine : Machine Volume) (fd : BitVec 32) (reply : Reply) : Prop where
  accessed : reply.accessed = [fd.toInt]
  reports : machine.proc.fileDescriptors.Inside fd → reply.result = true

theorem sysClose_unchecked {stray : Int → Option Fil}
    (result : sysClose fs stray machine fd = (reply, after)) : Unchecked machine fd reply := by
  unfold sysClose at result
  constructor
  · split at result <;> cases result <;> rfl
  · intro inside
    obtain ⟨fil, element⟩ := Represents.element inside
    simp only [DescriptorList.get_inside inside, element, Prod.mk.injEq] at result
    rw [← result.1]

theorem sysRead_unchecked {stray : Int → Option Fil}
    (result : sysRead fs stray machine fd count = (reply, after)) : Unchecked machine fd reply := by
  unfold sysRead at result
  constructor
  · split at result <;> cases result <;> rfl
  · intro inside
    obtain ⟨fil, element⟩ := Represents.element inside
    simp only [DescriptorList.get_inside inside, element, Prod.mk.injEq] at result
    rw [← result.1]

theorem Unchecked.conforms_iff (unchecked : Unchecked machine fd reply)
    (represents : Represents fs machine table) (names : call.fd = some fd) :
    Conforms table machine call reply after ↔ Live table fd ∧ reply.fresult = some .ok := by
  constructor
  · rintro ⟨carried, promised⟩
    have live : Live table fd := by
      by_contra dead
      obtain ⟨denied, -, within⟩ := (promised fd names).2 dead
      have inside : machine.proc.fileDescriptors.Inside fd :=
        within fd.toInt (by simp [unchecked.accessed])
      rw [unchecked.reports inside] at denied
      cases denied
    exact ⟨live, carried (unchecked.reports (represents.live_inside live))⟩
  · rintro ⟨live, carried⟩
    refine ⟨fun _ => carried, fun other same => ?_⟩
    cases names.symm.trans same
    exact ⟨fun _ => live, fun dead => absurd live dead⟩

/-- A write hands on what FatFs said, so it only has to find an element of the list. -/
theorem sysWrite_conforms_iff {stray : Int → Option Fil} {btw : BitVec 64} (represents : Represents fs machine table)
    (result : sysWrite fs stray machine fd buf btw = (reply, after)) :
    Conforms table machine (.write fd buf btw) reply after ↔ machine.proc.fileDescriptors.Inside fd := by
  constructor
  · rintro ⟨-, promised⟩
    by_cases live : Live table fd
    · exact represents.live_inside live
    · have within := ((promised fd rfl).2 live).2.2
      have accessed : reply.accessed = [fd.toInt] := by
        unfold sysWrite at result
        split at result <;> cases result <;> rfl
      exact within fd.toInt (by simp [accessed])
  · intro inside
    obtain ⟨fil, element⟩ := Represents.element inside
    simp only [sysWrite, DescriptorList.get_inside inside, element, Prod.mk.injEq] at result
    obtain ⟨rfl, rfl⟩ := result
    refine ⟨fun succeeded => congrArg some (beq_iff_eq.mp succeeded), fun other same => ?_⟩
    cases same
    have refusal : ¬ Live table fd → _ := fun dead =>
      fs.refused_fWrite machine.volume fil (written buf btw) (represents.dead_closed dead element)
    constructor
    · intro succeeded
      by_contra dead
      exact (refusal dead).1 (beq_iff_eq.mp succeeded)
    · intro dead
      obtain ⟨denied, unchanged⟩ := refusal dead
      refine ⟨beq_eq_false_iff_ne.mpr denied, by rw [unchanged], ?_⟩
      intro index accessed
      cases List.mem_singleton.mp accessed
      exact inside

/-- A call keeps the table's promise exactly when it is an open, a close or read of a
live descriptor that FatFs carries out, or a write whose number names an element of the list. -/
theorem descriptor_call_conforms_iff {Volume : Type} {fs : Library Volume} {stray : Int → Option Fil}
    {machine after : Machine Volume} {table : Table} {call : Call} {reply : Reply}
    (reached : Reached fs machine table) (served : serve fs stray machine call = some (reply, after)) :
    Conforms table machine call reply after ↔ Meets table machine reply call := by
  have represents := reached.represents
  cases call with
  | open_ name flags =>
    refine iff_of_true ⟨fun succeeded => ?_, fun fd names => nomatch names⟩ trivial
    rcases sysOpen_cases served with ⟨-, failed, -⟩ | ⟨-, -, carried, -⟩
    · rw [failed] at succeeded
      cases succeeded
    · exact carried
  | close fd => exact (sysClose_unchecked (Option.some.inj served)).conforms_iff represents rfl
  | read fd count => exact (sysRead_unchecked (Option.some.inj served)).conforms_iff represents rfl
  | write fd buf btw => exact sysWrite_conforms_iff represents (Option.some.inj served)

theorem fresh_reached : ∃ machine, createStreams memory (fun _ => none) 0 = some machine ∧ Reached memory machine ∅ :=
  ⟨_, rfl, .created (fun _ _ => rfl) rfl⟩

theorem descriptor_call_conforms_iff_stdout : ∃ machine after : Machine (Fil → Option (String × ByteFile)), ∃ reply,
      Reached memory machine ∅ ∧
      serve memory (fun _ => none) machine (.write 1 (fun _ => 65) 1) = some (reply, after) ∧ reply.result = true ∧
      Conforms ∅ machine (.write 1 (fun _ => 65) 1) reply after := by
  obtain ⟨machine, created, reached⟩ := fresh_reached
  cases created
  refine ⟨_, _, _, reached, rfl, rfl, ?_⟩
  refine (@descriptor_call_conforms_iff _ _ (fun _ => none) _ _ _ _ _ reached rfl).mpr ?_
  exact DescriptorList.inside_iff.mpr (by decide)

/-- A program opens a file, closes it and reads from it: the read reports success, though
the descriptor is gone and FatFs has refused it. -/
theorem read_after_close_reports_success :
    ∃ machine after : Machine (Fil → Option (String × ByteFile)), ∃ table reply, Reached memory machine table ∧
      serve memory (fun _ => none) machine (.read 3 1) = some (reply, after) ∧
      reply.result = true ∧ reply.fresult = some .invalidObject ∧ ¬ Live table 3 := by
  obtain ⟨machine, created, reached⟩ := fresh_reached
  cases created
  have opened := reached.served (fun _ => none) (.open_ "notes" 1) rfl
  have closed := opened.served (fun _ => none) (.close 3) rfl
  refine ⟨_, _, _, _, closed, rfl, rfl, rfl, ?_⟩
  unfold Live
  decide

end LunaOS.DescriptorRefinement
