import Mathlib.Logic.Basic

/-! The flags of `open` on their way to the FAT library: `sys_open` of
`sysdeps/luna/generic/luna.cpp` turns them into a mode, and `f_open` acts on it. -/
namespace LunaOS.OpenFlags

/-- The access mode: `O_ACCMODE`, `O_RDONLY`, `O_RDWR`, `O_WRONLY`. -/
def oAccmode : BitVec 32 := 7
def oRdonly : BitVec 32 := 2
def oRdwr : BitVec 32 := 3
def oWronly : BitVec 32 := 5

def oAppend : BitVec 32 := 0x8
def oCreat : BitVec 32 := 0x10
def oExcl : BitVec 32 := 0x40
def oTrunc : BitVec 32 := 0x200

/-- The modes of `f_open`: `FA_READ`, `FA_WRITE`, and so on. -/
def faRead : BitVec 32 := 0x01
def faWrite : BitVec 32 := 0x02
def faOpenExisting : BitVec 32 := 0x00
def faCreateNew : BitVec 32 := 0x04
def faCreateAlways : BitVec 32 := 0x08
def faOpenAlways : BitVec 32 := 0x10
def faOpenAppend : BitVec 32 := 0x30

/-- A flag tested as `flags & mask`. -/
def has (flags mask : BitVec 32) : Bool := flags &&& mask != 0

/-- The access part of the mode. -/
def accessMode (flags : BitVec 32) : BitVec 32 :=
  if has flags oRdonly then faRead
  else if has flags oWronly then faWrite
  else if has flags oRdwr then faRead ||| faWrite
  else 0

/-- The mode `sys_open` asks for. -/
def sysOpenMode (flags : BitVec 32) : BitVec 32 :=
  let kFlags := accessMode flags
  let kFlags := if has flags oAppend then kFlags ||| faOpenAppend else kFlags
  let kFlags :=
    if has flags oCreat && !has flags oExcl then kFlags ||| faOpenAlways
    else if has flags oCreat && has flags oExcl then kFlags ||| faCreateNew
    else kFlags ||| faOpenExisting
  if has flags oTrunc then kFlags ||| faCreateAlways else kFlags

/-- What a file object can do, and what opening it did. -/
structure Opened where
  reads : Bool
  writes : Bool
  created : Bool
  truncated : Bool
  deriving DecidableEq, Repr

/-- `f_open` of a plain file that may be written, as far as the mode decides; its
mode is one byte. `none` is `FR_NO_FILE` or `FR_EXIST`. -/
def fOpen (mode : BitVec 8) (existing : Bool) : Option Opened :=
  let mode := mode.setWidth 32
  let opened := ⟨has mode faRead, has mode faWrite, !existing, existing && has mode faCreateAlways⟩
  if has mode (faCreateAlways ||| faOpenAlways ||| faCreateNew) then
    if existing && has mode faCreateNew then none else some opened
  else if existing then some opened else none

/-- `sys_open` of a file that is there or not. -/
def sysOpen (flags : BitVec 32) (existing : Bool) : Option Opened :=
  fOpen ((sysOpenMode flags).setWidth 8) existing

/-! ## The meaning of the flags -/

/-- What the flags ask for is what `f_open` does. -/
structure Faithful (flags : BitVec 32) : Prop where
  reads : ∀ existing opened, sysOpen flags existing = some opened →
    (opened.reads = true ↔ flags &&& oAccmode = oRdonly ∨ flags &&& oAccmode = oRdwr)
  writes : ∀ existing opened, sysOpen flags existing = some opened →
    (opened.writes = true ↔ flags &&& oAccmode = oWronly ∨ flags &&& oAccmode = oRdwr)
  creates : (sysOpen flags false).isSome = true ↔ has flags oCreat = true
  refuses : sysOpen flags true = none ↔ has flags oCreat = true ∧ has flags oExcl = true
  truncates : ∀ opened, sysOpen flags true = some opened → (opened.truncated = true ↔ has flags oTrunc = true)

/-- The access mode is one of the three. -/
def Accessing (flags : BitVec 32) : Prop :=
  flags &&& oAccmode = oRdonly ∨ flags &&& oAccmode = oWronly ∨ flags &&& oAccmode = oRdwr

theorem has_access (within : oAccmode &&& mask = mask) (flags : BitVec 32) :
    has flags mask = has (flags &&& oAccmode) mask := by
  rw [has, has, BitVec.and_assoc, within]

section Accesses
variable (accessing : Accessing flags)
include accessing

/-- Only `O_WRONLY` has no bit in common with `O_RDONLY`. -/
theorem accessMode_eq : accessMode flags = if flags &&& oAccmode = oWronly then faWrite else faRead := by
  have mode : accessMode flags = accessMode (flags &&& oAccmode) := by
    simp only [accessMode]
    rw [has_access (rfl : oAccmode &&& oRdonly = oRdonly), has_access (rfl : oAccmode &&& oWronly = oWronly),
      has_access (rfl : oAccmode &&& oRdwr = oRdwr)]
  rw [mode]
  rcases accessing with access | access | access <;> rw [access] <;> decide

/-- The bits of the mode `f_open` tests. -/
theorem mode_bits : let mode := ((sysOpenMode flags).setWidth 8).setWidth 32
    has mode faRead = !decide (flags &&& oAccmode = oWronly) ∧
      has mode faWrite = decide (flags &&& oAccmode = oWronly) ∧
      has mode (faCreateAlways ||| faOpenAlways ||| faCreateNew) =
        (has flags oAppend || has flags oCreat || has flags oTrunc) ∧
      has mode faCreateNew = (has flags oCreat && has flags oExcl) ∧
      has mode faCreateAlways = has flags oTrunc := by
  simp only [sysOpenMode, accessMode_eq accessing]
  generalize has flags oAppend = append, has flags oCreat = creat, has flags oExcl = excl, has flags oTrunc = trunc
  by_cases write : flags &&& oAccmode = oWronly
  · simp only [write, if_true]
    revert append creat excl trunc
    decide
  · simp only [write, if_false]
    revert append creat excl trunc
    decide

/-- What becomes of the flags, without the modes between. -/
theorem sysOpen_eq (existing : Bool) : sysOpen flags existing =
      if existing && has flags oCreat && has flags oExcl then none
      else if existing || has flags oAppend || has flags oCreat || has flags oTrunc then
        some ⟨!decide (flags &&& oAccmode = oWronly), decide (flags &&& oAccmode = oWronly), !existing,
          existing && has flags oTrunc⟩ else none := by
  obtain ⟨read, write, create, new, always⟩ := mode_bits accessing
  simp only [sysOpen, fOpen, read, write, create, new, always]
  generalize has flags oAppend = append, has flags oCreat = creat, has flags oExcl = excl, has flags oTrunc = trunc
  cases existing <;> cases append <;> cases creat <;> cases excl <;> cases trunc <;> rfl

theorem sysOpen_grants (found : sysOpen flags existing = some opened) :
    opened.reads = !decide (flags &&& oAccmode = oWronly) ∧ opened.writes = decide (flags &&& oAccmode = oWronly) ∧
      opened.truncated = (existing && has flags oTrunc) := by
  rw [sysOpen_eq accessing] at found
  split at found
  · cases found
  · split at found
    · cases found
      exact ⟨rfl, rfl, rfl⟩
    · cases found

theorem sysOpen_missing :
    (sysOpen flags false).isSome = (has flags oAppend || has flags oCreat || has flags oTrunc) := by
  rw [sysOpen_eq accessing]
  cases has flags oAppend <;> cases has flags oCreat <;> cases has flags oTrunc <;> rfl

theorem sysOpen_existing : sysOpen flags true = none ↔ has flags oCreat = true ∧ has flags oExcl = true := by
  rw [sysOpen_eq accessing]
  cases has flags oCreat <;> cases has flags oExcl <;> simp

/-- Either the file is opened when it is there, or when it is not. -/
theorem sysOpen_some : ∃ existing opened, sysOpen flags existing = some opened := by
  cases found : sysOpen flags true with
  | some opened => exact ⟨true, opened, found⟩
  | none =>
    have creat := ((sysOpen_existing accessing).mp found).1
    have missing := sysOpen_missing accessing
    rw [creat, Bool.or_true, Bool.true_or, Option.isSome_iff_exists] at missing
    obtain ⟨opened, found⟩ := missing
    exact ⟨false, opened, found⟩

end Accesses

/-- The flags arrive as they are meant unless both reading and writing is asked
for, or a missing file is not to be created but appended to or truncated. -/
theorem mode_faithful_iff (flags : BitVec 32) (accessing : Accessing flags) :
    Faithful flags ↔ flags &&& oAccmode ≠ oRdwr ∧
      (has flags oCreat = true ∨ has flags oAppend = false ∧ has flags oTrunc = false) := by
  have missing := sysOpen_missing accessing
  constructor
  · intro faithful
    refine ⟨?_, ?_⟩
    · intro both
      obtain ⟨existing, opened, found⟩ := sysOpen_some accessing
      have writes := (faithful.writes existing opened found).mpr (.inr both)
      rw [(sysOpen_grants accessing found).2.1, both] at writes
      cases writes
    · have creates := faithful.creates
      rw [missing] at creates
      revert creates
      cases has flags oAppend <;> cases has flags oCreat <;> cases has flags oTrunc <;> simp
  · rintro ⟨single, creation⟩
    refine ⟨?_, ?_, ?_, sysOpen_existing accessing, ?_⟩
    · intro existing opened found
      rw [(sysOpen_grants accessing found).1]
      rcases accessing with access | access | access
      · simp [access, oRdonly, oWronly]
      · simp [access, oRdonly, oWronly, oRdwr]
      · exact absurd access single
    · intro existing opened found
      rw [(sysOpen_grants accessing found).2.1]
      rcases accessing with access | access | access
      · simp [access, oRdonly, oWronly, oRdwr]
      · simp [access]
      · exact absurd access single
    · rw [missing]
      rcases creation with creat | ⟨append, trunc⟩
      · simp [creat]
      · simp [append, trunc]
    · intro opened found
      rw [(sysOpen_grants accessing found).2.2, Bool.true_and]

/-- `O_WRONLY | O_CREAT | O_TRUNC`, as `fopen` passes for `"w"`. -/
theorem mode_faithful_iff_write : Faithful 0x215 :=
  (mode_faithful_iff 0x215 (.inr (.inl rfl))).mpr ⟨by decide, .inl rfl⟩

/-- `O_RDWR` opens a file that cannot be written, and `O_WRONLY | O_APPEND`
creates one that was not there. -/
theorem flags_changed : ¬ Faithful 3 ∧ ¬ Faithful 0xd ∧
    sysOpen 3 true = some ⟨true, false, false, false⟩ ∧ sysOpen 0xd false = some ⟨false, true, true, false⟩ := by
  have readOnly : sysOpen 3 true = some ⟨true, false, false, false⟩ := by decide
  have made : sysOpen 0xd false = some ⟨false, true, true, false⟩ := by decide
  refine ⟨?_, ?_, readOnly, made⟩
  · intro faithful
    exact absurd ((faithful.writes true _ readOnly).mpr (.inr rfl)) (by decide)
  · intro faithful
    exact absurd (faithful.creates.mp (by rw [made]; rfl)) (by decide)

end LunaOS.OpenFlags
