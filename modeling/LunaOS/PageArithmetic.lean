import Mathlib.Algebra.Group.Nat.Defs
import Mathlib.Data.Fintype.Basic

/-! Pages of 4096 bytes in 64-bit arithmetic, as `memory/paging.hpp` rounds and
masks addresses. -/
namespace LunaOS.PageArithmetic

open BitVec

/-- `PAGE_SIZE` -/
def pageSize : BitVec 64 := 4096

@[simp] theorem pageSize_toNat : pageSize.toNat = 4096 := rfl

/-- `PAGING_ALIGN_PAGE_DOWN` -/
def alignPageDown (address : BitVec 64) : BitVec 64 := address &&& ~~~(pageSize - 1)

/-- `PAGING_ALIGN_PAGE_UP` -/
def alignPageUp (address : BitVec 64) : BitVec 64 :=
  if address &&& (pageSize - 1) = 0 then address else alignPageDown address + pageSize

theorem alignPageDown_toNat (address : BitVec 64) : (alignPageDown address).toNat = address.toNat / 4096 * 4096 := by
  have mask : ∀ index : Fin 64, (~~~(pageSize - 1)).getLsbD index = decide (12 ≤ index.val) := by
    decide
  have shifted : alignPageDown address = (address >>> 12) <<< 12 := by
    apply eq_of_getLsbD_eq
    intro index bound
    rw [alignPageDown, getLsbD_and, mask ⟨index, bound⟩, getLsbD_shiftLeft, getLsbD_ushiftRight]
    by_cases high : 12 ≤ index
    · simp [high, bound, Nat.add_sub_cancel' high]
    · simp [high]
  rw [shifted, toNat_shiftLeft, toNat_ushiftRight]
  omega

/-- In the last page the rounding wraps around to zero. -/
theorem alignPageUp_mod (address : BitVec 64) :
    (alignPageUp address).toNat = (address.toNat + 4095) / 4096 * 4096 % 2 ^ 64 := by
  have low : (address &&& (pageSize - 1)).toNat = address.toNat % 4096 := by
    exact Nat.and_two_pow_sub_one_eq_mod address.toNat 12
  have down := alignPageDown_toNat address
  unfold alignPageUp
  split
  · rename_i zero
    rw [zero, show (0 : BitVec 64).toNat = 0 from rfl] at low
    omega
  · rename_i uneven
    have rest : address.toNat % 4096 ≠ 0 := by
      intro zero
      exact uneven (eq_of_toNat_eq (low.trans zero))
    rw [toNat_add, down, pageSize_toNat]
    omega

theorem alignPageUp_toNat {address : BitVec 64} (fits : address.toNat + 4095 < 2 ^ 64) :
    (alignPageUp address).toNat = (address.toNat + 4095) / 4096 * 4096 := by
  rw [alignPageUp_mod]
  omega

theorem pages_bytes {pages : BitVec 64} (fits : pages.toNat * 4096 < 2 ^ 64) :
    (pages * pageSize).toNat = pages.toNat * 4096 := by
  exact Nat.mod_eq_of_lt fits

theorem pages_end {start pages : BitVec 64} (fits : start.toNat + pages.toNat * 4096 < 2 ^ 64) :
    (start + pages * pageSize).toNat = start.toNat + pages.toNat * 4096 := by
  rw [toNat_add, pages_bytes (by omega)]
  omega

end LunaOS.PageArithmetic
