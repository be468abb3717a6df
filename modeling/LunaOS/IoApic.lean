import LunaOS.PageTables
import LunaOS.RangeAllocator
import Mathlib.Data.List.Pairwise

/-! The I/O APICs (`interrupts/ioapic.cpp`). Each serves a range of the interrupts of the
machine and has a redirection table with an entry for every interrupt of its range. The
table is indexed with the number of the interrupt on the machine instead of its number in
the range, which is the same for a controller whose range begins at 0 only. -/
namespace LunaOS.IoApic
open ByteMemory PageArithmetic PageTables RangeAllocator BitVec

/-- `k_ioapic_entry` -/
structure IoapicEntry where
  id : Byte
  address : Addr
  globalSystemInterruptBase : BitVec 32
  redtblSize : BitVec 32
  deriving DecidableEq, Repr

/-- A controller: the register that is selected, all registers, and the writes to them so
far, newest first. -/
structure Controller where
  regsel : BitVec 32
  registers : BitVec 32 → BitVec 32
  written : List (BitVec 32 × BitVec 32)

/-- The controllers, by the address they are mapped at. -/
abbrev Controllers := Addr → Controller

/-- `IOAPIC_ID` -/
def ioapicID : BitVec 32 := 0x00
/-- `IOAPIC_VER` -/
def ioapicVer : BitVec 32 := 0x01
/-- `IOAPIC_REDTBL` -/
def ioapicRedtbl : BitVec 32 := 0x10

/-- The store to `IOAPIC_REGSEL`. -/
def Controller.select (controller : Controller) (reg : BitVec 32) : Controller := { controller with regsel := reg }

/-- The store to `IOAPIC_REGWIN`, which goes to the selected register. -/
def Controller.store (controller : Controller) (value : BitVec 32) : Controller :=
  { controller with
    registers := Function.update controller.registers controller.regsel value
    written := (controller.regsel, value) :: controller.written }

def ioapicWrite (controllers : Controllers) (ioapic : IoapicEntry) (reg value : BitVec 32) : Controllers :=
  Function.update controllers ioapic.address (((controllers ioapic.address).select reg).store value)

def ioapicRead (controllers : Controllers) (ioapic : IoapicEntry) (reg : BitVec 32) : BitVec 32 × Controllers :=
  let controller := (controllers ioapic.address).select reg
  (controller.registers controller.regsel, Function.update controllers ioapic.address controller)

def ioapicGetResponsible (ioapicHead : List IoapicEntry) (source : BitVec 32) : Option IoapicEntry :=
  ioapicHead.find? fun curr =>
    curr.globalSystemInterruptBase ≤ source && source ≤ curr.globalSystemInterruptBase + curr.redtblSize

def ioapicSetRedirection (controllers : Controllers) (ioapic : IoapicEntry) (index : BitVec 32) (value : BitVec 64) :
    Controllers :=
  let controllers := ioapicWrite controllers ioapic (ioapicRedtbl + index * 2) ((value &&& 0xFFFFFFFF).setWidth 32)
  ioapicWrite controllers ioapic (ioapicRedtbl + index * 2 + 1) ((value >>> 32).setWidth 32)

/-- `IOAPIC_REDTBL_INTVEC_MAKE` -/
def intvecMake (i : BitVec 32) : BitVec 32 := i &&& 0xFF

/-- `IOAPIC_REDTBL_DESTINATION_MAKE` -/
def destinationMake (i : BitVec 32) (f : BitVec 64) : BitVec 64 := ((i.setWidth 64 &&& 0xFF) ||| f) <<< 56

/-- Fixed delivery to a physical destination, active high, edge triggered and not masked:
the flags of all of these are 0. -/
def redirectionTableEntry (irq lapicId : BitVec 32) : BitVec 64 :=
  0 ||| (intvecMake (0x20 + irq)).setWidth 64 ||| 0 ||| 0 ||| 0 ||| 0 ||| 0 ||| destinationMake lapicId 0

def ioapicCreateISARedirection (ioapicHead : List IoapicEntry) (controllers : Controllers)
    (source irq lapicId : BitVec 32) : Bool × Controllers :=
  match ioapicGetResponsible ioapicHead source with
  | none => (false, controllers)
  | some ioapic => (true, ioapicSetRedirection controllers ioapic source (redirectionTableEntry irq lapicId))

/-! ## Registration -/

/-- What `ioapicAdd` works on. -/
structure Interrupts (σ : Type) where
  physical : Physical σ
  ranges : List AddressRange
  ioapicHead : List IoapicEntry
  controllers : Controllers

/-- The arguments of a call of `ioapicAdd`. -/
structure IoapicCall where
  id : Byte
  physicalAddress : Addr
  globalSystemInterruptBase : BitVec 32
  deriving DecidableEq, Repr

/-- `ioapicAdd`; `none` is the panic of a kernel without addresses. -/
def ioapicAdd {σ : Type} (alloc : FrameAllocator σ) (pml4Addr : Addr) (state : Interrupts σ) (call : IoapicCall) :
    Option (Interrupts σ) :=
  let (virt, ranges) := allocateRange state.ranges 2
  if virt = 0 then none
  else
    let start := alignPageDown call.physicalAddress
    let st := pagingMapPageInSpace alloc state.physical virt start pml4Addr pagingDefaultFlags false
    let st := pagingMapPageInSpace alloc st (virt + pageSize) (start + pageSize) pml4Addr
      pagingDefaultFlags false
    let ioapic : IoapicEntry := ⟨call.id, virt + (call.physicalAddress - start), call.globalSystemInterruptBase, 0⟩
    let (id, controllers) := ioapicRead state.controllers ioapic ioapicID
    let controllers := if call.id.setWidth 32 ≠ id then ioapicWrite controllers ioapic ioapicID (call.id.setWidth 32)
      else controllers
    let (verValue, controllers) := ioapicRead controllers ioapic ioapicVer
    let ioapic := { ioapic with redtblSize := (verValue >>> 16) &&& 0xFF }
    some ⟨st, ranges, ioapic :: state.ioapicHead, controllers⟩

/-- The new controller comes first, with the id and the interrupts it was registered with. -/
theorem ioapicAdd_head {alloc : FrameAllocator σ} {state : Interrupts σ}
    (added : ioapicAdd alloc pml4Addr state call = some next) :
    ∃ ioapic, next.ioapicHead = ioapic :: state.ioapicHead ∧ ioapic.id = call.id ∧
      ioapic.globalSystemInterruptBase = call.globalSystemInterruptBase := by
  simp only [ioapicAdd] at added
  split at added
  · cases added
  · cases added
    exact ⟨_, rfl, rfl, rfl⟩

/-- Registering calls one after the other, the last one ends up first. -/
theorem ioapicAdd_all {alloc : FrameAllocator σ} {state : Interrupts σ} {calls : List IoapicCall}
    (added : calls.foldlM (ioapicAdd alloc pml4Addr) state = some next) :
    next.ioapicHead.map (fun ioapic => (ioapic.id, ioapic.globalSystemInterruptBase)) =
      (calls.map fun call => (call.id, call.globalSystemInterruptBase)).reverse ++
        state.ioapicHead.map fun ioapic => (ioapic.id, ioapic.globalSystemInterruptBase) := by
  induction calls generalizing state with
  | nil =>
    cases added
    rfl
  | cons call rest ih =>
    obtain ⟨between, first, later⟩ := Option.bind_eq_some_iff.mp added
    obtain ⟨ioapic, head, id, interrupts⟩ := ioapicAdd_head first
    rw [ih later, head, List.map_cons, List.map_cons, List.reverse_cons, List.append_assoc, id, interrupts]
    rfl

/-! ## Redirection -/

/-- The interrupt is in the range of the controller. -/
def Covers (ioapic : IoapicEntry) (source : BitVec 32) : Prop :=
  ioapic.globalSystemInterruptBase.toNat ≤ source.toNat ∧
    source.toNat ≤ ioapic.globalSystemInterruptBase.toNat + ioapic.redtblSize.toNat

/-- The destination in the high byte and the vector in the low one. -/
def wantedEntry (irq lapicId : BitVec 32) : BitVec 64 := lapicId.setWidth 8 ++ (0 : BitVec 48) ++ (0x20 + irq).setWidth 8

/-- The two writes that program an entry of a redirection table, the last one first. -/
def entryWrites (index : BitVec 32) (value : BitVec 64) : List (BitVec 32 × BitVec 32) :=
  [(ioapicRedtbl + index * 2 + 1, value.extractLsb' 32 32), (ioapicRedtbl + index * 2, value.extractLsb' 0 32)]

/-- The responsible controller gets its own entry for the interrupt, and nothing else is
written; without such a controller nothing is. -/
structure Programmed (ioapicHead : List IoapicEntry) (controllers : Controllers) (source irq lapicId : BitVec 32)
    (result : Bool × Controllers) : Prop where
  covered : ∀ ioapic ∈ ioapicHead, Covers ioapic source → result.1 = true ∧ ∀ address,
    (result.2 address).written = (if address = ioapic.address then
      entryWrites (source - ioapic.globalSystemInterruptBase) (wantedEntry irq lapicId) else []) ++
        (controllers address).written
  refused : (∀ ioapic ∈ ioapicHead, ¬ Covers ioapic source) → result = (false, controllers)

theorem redirectionTableEntry_eq (irq lapicId : BitVec 32) :
    redirectionTableEntry irq lapicId = wantedEntry irq lapicId := by
  have vector : ((intvecMake (0x20 + irq)).setWidth 64).toNat = (0x20 + irq).toNat % 256 := by
    rw [intvecMake, toNat_setWidth, toNat_and]
    change ((0x20 + irq).toNat &&& (2 ^ 8 - 1)) % 2 ^ 64 = _
    rw [Nat.and_two_pow_sub_one_eq_mod]
    omega
  have destination : (destinationMake lapicId 0).toNat = lapicId.toNat % 256 * 2 ^ 56 := by
    rw [destinationMake, toNat_shiftLeft, toNat_or, toNat_and, toNat_setWidth]
    change (lapicId.toNat % 2 ^ 64 &&& (2 ^ 8 - 1) ||| 0) <<< 56 % 2 ^ 64 = _
    rw [Nat.or_zero, Nat.and_two_pow_sub_one_eq_mod, Nat.shiftLeft_eq]
    omega
  apply eq_of_toNat_eq
  have joined : (redirectionTableEntry irq lapicId).toNat =
      (0x20 + irq).toNat % 256 ||| lapicId.toNat % 256 * 2 ^ 56 := by
    rw [← vector, ← destination]
    simp [redirectionTableEntry]
  rw [joined, wantedEntry, toNat_append, toNat_append, toNat_setWidth, toNat_setWidth,
    Nat.or_comm, Nat.shiftLeft_eq, Nat.shiftLeft_eq]
  change _ = (lapicId.toNat % 2 ^ 8 * 2 ^ 48 ||| 0) * 2 ^ 8 ||| _
  rw [Nat.or_zero, Nat.mul_assoc, ← Nat.pow_add]

theorem responds_iff (ioapic : IoapicEntry) (source : BitVec 32) :
    (decide (ioapic.globalSystemInterruptBase ≤ source) &&
      decide (source ≤ ioapic.globalSystemInterruptBase + ioapic.redtblSize)) = true ↔
    Covers ioapic source ∧ ioapic.globalSystemInterruptBase.toNat + ioapic.redtblSize.toNat < 2 ^ 32 := by
  rw [Bool.and_eq_true, decide_eq_true_eq, decide_eq_true_eq, le_def, le_def, toNat_add, Covers]
  omega

/-- Of ranges that are apart at most one has the interrupt. -/
theorem covers_unique {ioapicHead : List IoapicEntry}
    (apart : ioapicHead.Pairwise fun first second => ∀ source, ¬ (Covers first source ∧ Covers second source))
    (left : first ∈ ioapicHead) (right : second ∈ ioapicHead) (one : Covers first source)
    (other : Covers second source) : first = second := by
  by_contra differ
  have : Std.Symm fun first second => ∀ source, ¬ (Covers first source ∧ Covers second source) :=
    ⟨fun _ _ never source both => never source both.symm⟩
  exact apart.forall left right differ source ⟨one, other⟩

theorem responsible_some (found : ioapicGetResponsible ioapicHead source = some ioapic) :
    ioapic ∈ ioapicHead ∧ Covers ioapic source ∧
      ioapic.globalSystemInterruptBase.toNat + ioapic.redtblSize.toNat < 2 ^ 32 := by
  have responds := List.find?_some found
  exact ⟨List.mem_of_find?_eq_some found, (responds_iff ioapic source).mp responds⟩

theorem responsible_none (missed : ioapicGetResponsible ioapicHead source = none) (member : ioapic ∈ ioapicHead)
    (covers : Covers ioapic source) : 2 ^ 32 ≤ ioapic.globalSystemInterruptBase.toNat + ioapic.redtblSize.toNat := by
  by_contra below
  exact List.find?_eq_none.mp missed ioapic member ((responds_iff ioapic source).mpr ⟨covers, Nat.not_le.mp below⟩)

theorem setRedirection_written (controllers : Controllers) (ioapic : IoapicEntry) (index : BitVec 32)
    (value : BitVec 64) (address : Addr) : (ioapicSetRedirection controllers ioapic index value address).written =
      (if address = ioapic.address then entryWrites index value else []) ++ (controllers address).written := by
  have low : (value &&& 0xFFFFFFFF).setWidth 32 = value.extractLsb' 0 32 := by
    apply eq_of_toNat_eq
    rw [toNat_setWidth, toNat_and, BitVec.extractLsb'_toNat]
    change (value.toNat &&& (2 ^ 32 - 1)) % 2 ^ 32 = _
    rw [Nat.and_two_pow_sub_one_eq_mod, Nat.mod_mod, Nat.shiftRight_zero]
  have high : (value >>> 32).setWidth 32 = value.extractLsb' 32 32 := by
    apply eq_of_toNat_eq
    rw [toNat_setWidth, toNat_ushiftRight, BitVec.extractLsb'_toNat]
  by_cases here : address = ioapic.address
  · subst here
    simp only [ioapicSetRedirection, ioapicWrite, low, high, Function.update_self, Controller.select, Controller.store,
      entryWrites, if_true, List.cons_append, List.nil_append]
  · simp only [ioapicSetRedirection, ioapicWrite, Function.update_of_ne here, if_neg here, List.nil_append]

theorem create_none (missed : ioapicGetResponsible ioapicHead source = none) :
    ioapicCreateISARedirection ioapicHead controllers source irq lapicId = (false, controllers) := by
  simp only [ioapicCreateISARedirection, missed]

theorem create_some (found : ioapicGetResponsible ioapicHead source = some ioapic) :
    ioapicCreateISARedirection ioapicHead controllers source irq lapicId =
      (true, ioapicSetRedirection controllers ioapic source (wantedEntry irq lapicId)) := by
  simp only [ioapicCreateISARedirection, found, redirectionTableEntry_eq]

/-- The entry of the machine is that of the controller when the doubled base wraps to 0. -/
theorem entryWrites_iff (source base : BitVec 32) (value : BitVec 64) :
    entryWrites source value = entryWrites (source - base) value ↔ base = 0 ∨ base = 0x80000000 := by
  have doubled : source * 2 = (source - base) * 2 ↔ base = 0 ∨ base = 0x80000000 := by
    bv_omega
  rw [← doubled]
  constructor
  · intro same
    have registers := congrArg (fun writes => (writes.map Prod.fst).getLast?) same
    simpa [entryWrites] using registers
  · intro same
    rw [entryWrites, entryWrites, same]

/-- The right line is programmed exactly when the range of the responsible controller does
not wrap around and begins at 0 or at 2^31. -/
theorem redirection_right_iff (ioapicHead : List IoapicEntry) (controllers : Controllers)
    (source irq lapicId : BitVec 32)
    (apart : ioapicHead.Pairwise fun first second => ∀ source, ¬ (Covers first source ∧ Covers second source)) :
    Programmed ioapicHead controllers source irq lapicId
        (ioapicCreateISARedirection ioapicHead controllers source irq lapicId) ↔
      ∀ ioapic ∈ ioapicHead, Covers ioapic source →
        ioapic.globalSystemInterruptBase.toNat + ioapic.redtblSize.toNat < 2 ^ 32 ∧
          (ioapic.globalSystemInterruptBase = 0 ∨ ioapic.globalSystemInterruptBase = 0x80000000) := by
  cases found : ioapicGetResponsible ioapicHead source with
  | none =>
    rw [create_none found]
    constructor
    · intro programmed ioapic member covers
      cases (programmed.covered ioapic member covers).1
    · intro right
      refine ⟨fun ioapic member covers => ?_, fun _ => rfl⟩
      have wraps := responsible_none found member covers
      have fits := (right ioapic member covers).1
      omega
  | some ioapic =>
    obtain ⟨member, covers, fits⟩ := responsible_some found
    rw [create_some found]
    constructor
    · intro programmed other listed here
      obtain rfl := covers_unique apart member listed covers here
      refine ⟨fits, (entryWrites_iff source _ (wantedEntry irq lapicId)).mp ?_⟩
      have written := (programmed.covered ioapic member covers).2 ioapic.address
      simpa only [setRedirection_written, if_true, List.append_cancel_right_eq] using written
    · intro right
      refine ⟨fun other listed here => ⟨rfl, fun address => ?_⟩, fun none => absurd covers (none ioapic member)⟩
      obtain rfl := covers_unique apart member listed covers here
      rw [setRedirection_written, (entryWrites_iff source _ _).mpr (right ioapic member covers).2]

/-- Two controllers of 24 interrupts each, one after the other. -/
def twoControllers : List IoapicEntry := [⟨1, 0xFEC01000, 24, 23⟩, ⟨0, 0xFEC00000, 0, 23⟩]

theorem twoControllers_apart :
    twoControllers.Pairwise fun first second => ∀ source, ¬ (Covers first source ∧ Covers second source) := by
  refine .cons (fun second member source both => ?_) (List.pairwise_singleton _ _)
  obtain rfl := List.mem_singleton.mp member
  have low : 24 ≤ source.toNat := both.1.1
  have high : source.toNat ≤ 0 + 23 := both.2.2
  omega

/-- Controllers nothing was written to. -/
def idle : Controllers := fun _ => ⟨0, fun _ => 0, []⟩

theorem redirection_right_iff_first :
    Programmed twoControllers idle 2 0 1 (ioapicCreateISARedirection twoControllers idle 2 0 1) ∧
      ¬ Programmed twoControllers idle 26 2 1 (ioapicCreateISARedirection twoControllers idle 26 2 1) := by
  constructor
  · refine (redirection_right_iff twoControllers idle 2 0 1 twoControllers_apart).mpr ?_
    simp [twoControllers, Covers]
  · rw [redirection_right_iff twoControllers idle 26 2 1 twoControllers_apart]
    simp [twoControllers, Covers]

/-- The third interrupt of the second controller is programmed into the registers of its
27th entry. -/
theorem second_controller_missed : ∃ ioapicHead controllers source irq lapicId,
      (ioapicHead.Pairwise fun first second => ∀ source, ¬ (Covers first source ∧ Covers second source)) ∧
      ¬ Programmed ioapicHead controllers source irq lapicId
        (ioapicCreateISARedirection ioapicHead controllers source irq lapicId) := by
  refine ⟨twoControllers, idle, 26, 2, 1, twoControllers_apart, fun programmed => ?_⟩
  have written := (programmed.covered ⟨1, 0xFEC01000, 24, 23⟩ (by decide) (by unfold Covers; decide)).2 0xFEC01000
  revert written
  decide

end LunaOS.IoApic
