import LunaOS.AhciTransfer
import Mathlib.Data.Nat.Find

/-! The search for a free command slot (`k_ahci_port::findCMDslot`,
`storage/ahci/ahci.cpp`). The capabilities of a controller name its last slot. The
driver takes the number of slots out of the wrong bits of them, and there is no
controller for which that number is right. -/
namespace LunaOS.CommandSlots
open AhciPort AhciTransfer

/-- `this->cmdSlots`, from `ABAR->cap` -/
def cmdSlots (cap : BitVec 32) : Nat := ((cap >>> 8) &&& 0xF0).toNat

/-- A port as `probePorts` sets it up. -/
def probedPort (cap : BitVec 32) (port : Port) : Port :=
  { port with cmdSlots := cmdSlots cap, initialized := false, inWrite := false }

/-- `NCS`: the last slot of the controller, bits 12 to 8. -/
def lastSlot (cap : BitVec 32) : Nat := (cap.extractLsb' 8 5).toNat

def Busy (hba : HbaPort) (slot : Nat) : Prop := (hba.sact ||| hba.ci).getLsbD slot = true

instance (hba : HbaPort) (slot : Nat) : Decidable (Busy hba slot) := inferInstanceAs (Decidable (_ = true))

/-- The answer is a free slot of the controller, or all its slots are busy. -/
structure Right (cap : BitVec 32) (hba : HbaPort) (answer : Option Nat) : Prop where
  free : ∀ slot, answer = some slot → slot ≤ lastSlot cap ∧ ¬ Busy hba slot
  full : answer = none → ∀ slot ≤ lastSlot cap, Busy hba slot

/-- The lowest slot that is not busy; 32 when all are. -/
def FirstFree (hba : HbaPort) (slot : Nat) : Prop := ¬ Busy hba slot ∧ ∀ lower < slot, Busy hba lower

theorem firstFree_exists (hba : HbaPort) : ∃ slot ≤ 32, FirstFree hba slot := by
  have free : ¬ Busy hba 32 := by
    rw [Busy, BitVec.getLsbD_of_ge _ _ (by decide)]
    decide
  have some : ∃ slot, ¬ Busy hba slot := ⟨32, free⟩
  exact ⟨Nat.find some, Nat.find_min' some free, Nat.find_spec some, fun lower below => not_not.mp (Nat.find_min some below)⟩

/-- The loop shifts the word once a turn; its lowest bit is then that of the slot. -/
theorem slot_bit (hba : HbaPort) (slot : Nat) :
    (((hba.sact ||| hba.ci) >>> slot) &&& 1 == 0) = true ↔ ¬ Busy hba slot := by
  change (((hba.sact ||| hba.ci) >>> slot) &&& 1#32 == 0#32) = true ↔ _
  rw [BitVec.and_one_eq_setWidth_ofBool_getLsbD, BitVec.getLsbD_ushiftRight, Nat.add_zero, Busy]
  cases (hba.sact ||| hba.ci).getLsbD slot <;> decide

theorem findCMDslot_eq (port : Port) (first : FirstFree hba slot) :
    findCMDslot port hba = if slot < port.cmdSlots then some slot else none := by
  split
  · rename_i listed
    refine List.find?_range_eq_some.mpr ⟨(slot_bit hba slot).mpr first.1, List.mem_range.mpr listed, ?_⟩
    intro lower below
    rw [Bool.not_eq_true', ← Bool.not_eq_true, slot_bit, not_not]
    exact first.2 lower below
  · rename_i behind
    refine List.find?_eq_none.mpr fun lower inside => ?_
    rw [slot_bit, not_not]
    exact first.2 lower (by rw [List.mem_range] at inside; omega)

theorem right_iff (cap : BitVec 32) (port : Port) (first : FirstFree hba slot) :
    Right cap hba (findCMDslot (probedPort cap port) hba) ↔ (slot ≤ lastSlot cap ↔ slot < cmdSlots cap) := by
  rw [findCMDslot_eq _ first]
  split
  · rename_i listed
    refine ⟨fun right => iff_of_true (right.free slot rfl).1 listed, fun same => ⟨?_, nofun⟩⟩
    rintro _ ⟨⟩
    exact ⟨same.mpr listed, first.1⟩
  · rename_i behind
    constructor
    · intro right
      exact iff_of_false (fun below => first.1 (right.full rfl slot below)) behind
    · intro same
      refine ⟨nofun, fun _ other below => first.2 other ?_⟩
      have above : ¬ slot ≤ lastSlot cap := fun within => behind (same.mp within)
      omega

/-- The two numbers come from overlapping bits, and never agree. -/
theorem cmdSlots_ne (cap : BitVec 32) : cmdSlots cap ≠ lastSlot cap + 1 := by
  have bytes : ∀ byte : Fin 256, byte.val &&& 240 ≠ byte.val % 32 + 1 := by decide +kernel
  have low : (cap.toNat / 256) &&& 240 = (cap.toNat / 256 % 256) &&& 240 := by
    have masked : ((cap.toNat / 256) &&& 240) % 2 ^ 8 = _ := Nat.and_mod_two_pow
    rwa [Nat.mod_eq_of_lt (Nat.lt_of_le_of_lt Nat.and_le_right (by decide))] at masked
  have differ := bytes ⟨cap.toNat / 256 % 256, Nat.mod_lt _ (by decide)⟩
  rw [cmdSlots, lastSlot, BitVec.toNat_and, BitVec.toNat_ushiftRight, BitVec.extractLsb'_toNat,
    Nat.shiftRight_eq_div_pow]
  change (cap.toNat / 256) &&& 240 ≠ cap.toNat / 256 % 32 + 1
  rw [low]
  rwa [Nat.mod_mod_of_dvd _ (by decide : 32 ∣ 256)] at differ

/-- The first slots up to one are busy. -/
def busyBelow (slot : Nat) : HbaPort := ⟨BitVec.ofNat 32 (2 ^ slot - 1), 0#32, fun _ => 0, fun _ => (0, 0)⟩

theorem busyBelow_first (small : slot ≤ 32) : FirstFree (busyBelow slot) slot := by
  have bit : ∀ other, Busy (busyBelow slot) other ↔ other < slot := by
    intro other
    simp only [Busy, busyBelow, BitVec.or_zero, BitVec.getLsbD_ofNat, Nat.testBit_two_pow_sub_one, Bool.and_eq_true,
      decide_eq_true_eq]
    omega
  exact ⟨fun busy => Nat.lt_irrefl _ ((bit slot).mp busy), fun lower below => (bit lower).mpr below⟩

/-- The search is right when the first slot that is not busy is one of the controller
exactly if it is one of those looked at. Every controller has registers for which it
is not. -/
theorem slot_right_iff (cap : BitVec 32) (port : Port) : (∀ hba, ∃ slot ≤ 32, FirstFree hba slot) ∧
    (∀ hba slot, FirstFree hba slot → (Right cap hba (findCMDslot (probedPort cap port) hba) ↔
      (slot ≤ lastSlot cap ↔ slot < cmdSlots cap))) ∧
    ∃ hba, ¬ Right cap hba (findCMDslot (probedPort cap port) hba) := by
  refine ⟨firstFree_exists, fun hba slot first => right_iff cap port first, ?_⟩
  have last : lastSlot cap < 32 := (cap.extractLsb' 8 5).isLt
  have differ := cmdSlots_ne cap
  refine ⟨busyBelow (min (cmdSlots cap) (lastSlot cap + 1)), ?_⟩
  rw [right_iff cap port (busyBelow_first (by omega))]
  omega

/-- With eight slots none is ever found; with 32 and all of them busy, slot 32 is. -/
theorem slots_misjudged :
    findCMDslot (probedPort 0x0700 readyPort) idleHba = none ∧ lastSlot 0x0700 = 7 ∧ ¬ Busy idleHba 0 ∧
      findCMDslot (probedPort 0xff00 readyPort) (busyBelow 32) = some 32 ∧ lastSlot 0xff00 = 31 := by
  decide +kernel

end LunaOS.CommandSlots
