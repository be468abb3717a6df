import LunaOS.ByteMemory

/-! The interval timer (`system/pit.cpp`) and the sleep by which the clock is calibrated
(`lapicStartTimer`, `interrupts/lapic.cpp`). A sleep is turned into a count by two truncating
divisions and handed to the timer as two bytes; nothing keeps it in their range. -/
namespace LunaOS.IntervalTimer
open ByteMemory BitVec Option

/-- The ports: what is read from them at each read, and what was written. -/
structure Io where
  input : BitVec 16 → Nat → Byte
  reads : Nat
  writes : List (BitVec 16 × Byte)

def ioInByte (io : Io) (port : BitVec 16) : Byte × Io :=
  (io.input port io.reads, { io with reads := io.reads + 1 })

def ioOutByte (io : Io) (port : BitVec 16) (value : Byte) : Io :=
  { io with writes := io.writes ++ [(port, value)] }

/-- `PIT_FREQUENCY` -/
def pitFrequency : BitVec 32 := 1193180

/-- `PIT_CHANNEL_2 | PIT_OPMODE_0_IOTC | PIT_ACCESS_LOHIBYTE` -/
def pitCommand : Byte := 0x80 ||| 0x00 ||| 0x30

/-- A division, which faults on zero. -/
def divide (dividend divisor : BitVec 32) : Option (BitVec 32) :=
  if divisor = 0 then none else some (dividend / divisor)

/-- `pitPrepareSleep`, with the value of `sleepDivisor`; the check of the argument is commented
out in the source. -/
def pitPrepareSleep (io : Io) (microseconds : BitVec 32) : Option (Io × BitVec 32) := do
  let (speakerControlByte, io) := ioInByte io 0x61
  let io := ioOutByte io 0x61 (speakerControlByte &&& ~~~2)
  let io := ioOutByte io 0x43 pitCommand
  let rate ← divide 1000000 microseconds
  let sleepDivisor ← divide pitFrequency rate
  pure (io, sleepDivisor)

/-- The part of `pitPerformSleep` before it waits: the count and the start of the counter. -/
def pitStart (io : Io) (sleepDivisor : BitVec 32) : Io :=
  let io := ioOutByte io 0x42 ((sleepDivisor &&& 0xFF).setWidth 8)
  let io := ioOutByte io 0x42 ((sleepDivisor >>> 8).setWidth 8)
  let (pitControlByte, io) := ioInByte io 0x61
  let io := ioOutByte io 0x61 (pitControlByte &&& ~~~1)
  ioOutByte io 0x61 (pitControlByte ||| 1)

/-- The argument of `pitPrepareSleep` in `lapicStartTimer` -/
def calibrationSleep : BitVec 32 := 1000000

/-! ## What is loaded -/

/-- The bytes written to the channel of the timer. -/
def Io.loaded (io : Io) : List Byte := (io.writes.filter fun written => written.1 = 0x42).map Prod.snd

/-- The count of two bytes is the divisor. -/
def Loads (before after : Io) (sleepDivisor : BitVec 32) : Prop :=
  ∃ low high : Byte, after.loaded = before.loaded ++ [low, high] ∧ (high ++ low).toNat = sleepDivisor.toNat

/-- A count within one of the exact one, `PIT_FREQUENCY * microseconds / 1000000`. -/
def Near (microseconds sleepDivisor : BitVec 32) : Prop :=
  pitFrequency.toNat * microseconds.toNat ≤ 1000000 * (sleepDivisor.toNat + 1) ∧
    1000000 * sleepDivisor.toNat ≤ pitFrequency.toNat * microseconds.toNat + 1000000

/-- A sleep is programmed as it is asked for. -/
def Programs (io : Io) (microseconds : BitVec 32) : Prop :=
  ∃ prepared sleepDivisor, pitPrepareSleep io microseconds = some (prepared, sleepDivisor) ∧
    Loads prepared (pitStart prepared sleepDivisor) sleepDivisor ∧ Near microseconds sleepDivisor

theorem pitStart_loaded (io : Io) (sleepDivisor : BitVec 32) : (pitStart io sleepDivisor).loaded =
    io.loaded ++ [(sleepDivisor &&& 0xFF).setWidth 8, (sleepDivisor >>> 8).setWidth 8] := by
  simp [pitStart, ioOutByte, ioInByte, Io.loaded]

/-- Two bytes hold the divisor modulo their range. -/
theorem count_toNat (sleepDivisor : BitVec 32) :
    ((sleepDivisor >>> 8).setWidth 8 ++ (sleepDivisor &&& 0xFF).setWidth 8 : BitVec 16).toNat =
      sleepDivisor.toNat % 2 ^ 16 := by
  have low : ((sleepDivisor &&& 0xFF).setWidth 8).toNat = sleepDivisor.toNat % 2 ^ 8 := by
    rw [toNat_setWidth, toNat_and]
    have masked := Nat.and_two_pow_sub_one_eq_mod sleepDivisor.toNat 8
    rw [show BitVec.toNat (0xFF : BitVec 32) = 2 ^ 8 - 1 from rfl, masked, Nat.mod_mod]
  have high : ((sleepDivisor >>> 8).setWidth 8).toNat = sleepDivisor.toNat / 2 ^ 8 % 2 ^ 8 := by
    rw [toNat_setWidth, toNat_ushiftRight, Nat.shiftRight_eq_div_pow]
  rw [toNat_append, Nat.shiftLeft_eq, Nat.mul_comm, ← Nat.two_pow_add_eq_or_of_lt (BitVec.isLt _), low, high]
  omega

theorem loads_iff (io : Io) (sleepDivisor : BitVec 32) :
    Loads io (pitStart io sleepDivisor) sleepDivisor ↔ sleepDivisor.toNat < 2 ^ 16 := by
  have count := count_toNat sleepDivisor
  unfold Loads
  rw [pitStart_loaded]
  constructor
  · rintro ⟨low, high, written, same⟩
    have bytes := List.append_cancel_left written
    simp only [List.cons.injEq, and_true] at bytes
    omega
  · intro small
    refine ⟨_, _, rfl, count.trans (Nat.mod_eq_of_lt small)⟩

/-! ## The divisions -/

section Division
variable {microseconds : Nat}

/-- The divisor is never more than one below the exact count. -/
theorem exact_le (pos : 0 < 1000000 / microseconds) :
    1193180 * microseconds ≤ 1000000 * (1193180 / (1000000 / microseconds) + 1) := by
  have within := Nat.div_mul_le_self 1000000 microseconds
  have above := Nat.lt_mul_div_succ 1193180 pos
  generalize 1000000 / microseconds = rate at *
  generalize 1193180 / rate = divisor at *
  refine Nat.le_of_mul_le_mul_left (c := rate) ?_ pos
  calc rate * (1193180 * microseconds) = 1193180 * (rate * microseconds) := Nat.mul_left_comm ..
    _ ≤ 1193180 * 1000000 := Nat.mul_le_mul_left _ within
    _ ≤ rate * (divisor + 1) * 1000000 := Nat.mul_le_mul_right _ (Nat.le_of_lt above)
    _ = rate * (1000000 * (divisor + 1)) := by rw [Nat.mul_assoc, Nat.mul_comm 1000000]

/-- It is at most one above when the first division leaves little. -/
theorem le_exact_iff (pos : 0 < 1000000 / microseconds) :
    1000000 * (1193180 / (1000000 / microseconds)) ≤ 1193180 * microseconds + 1000000 ↔
      1193180 * (1000000 % microseconds) ≤ 1000000 * (1000000 / microseconds + 1193180 % (1000000 / microseconds)) := by
  have first := Nat.div_add_mod 1000000 microseconds
  have second := Nat.div_add_mod 1193180 (1000000 / microseconds)
  generalize 1000000 / microseconds = rate at *
  generalize 1193180 / rate = divisor at *
  generalize 1193180 % rate = rest at *
  generalize 1000000 % microseconds = left at *
  have scaled : rate * (1000000 * divisor) + 1000000 * rest = 1000000 * 1193180 := by
    rw [← second, Nat.mul_left_comm, Nat.mul_add]
  have asked : rate * (1193180 * microseconds) + 1193180 * left = 1193180 * 1000000 := by
    rw [← first, Nat.mul_left_comm, Nat.mul_comm rate, Nat.mul_add]
  rw [← Nat.mul_le_mul_left_iff pos, Nat.mul_add, Nat.mul_add, Nat.mul_comm 1000000 rate]
  omega

end Division

/-- The ports after `pitPrepareSleep`. -/
def silenced (io : Io) : Io :=
  let (speakerControlByte, io) := ioInByte io 0x61
  ioOutByte (ioOutByte io 0x61 (speakerControlByte &&& ~~~2)) 0x43 pitCommand

theorem pitPrepareSleep_eq (io : Io) (microseconds : BitVec 32) : pitPrepareSleep io microseconds =
    if 0 < 1000000 / microseconds.toNat then
      some (silenced io, BitVec.ofNat 32 (1193180 / (1000000 / microseconds.toNat))) else none := by
  have rate : (1000000 / microseconds).toNat = 1000000 / microseconds.toNat := toNat_udiv
  by_cases zero : microseconds = 0
  · subst zero
    rfl
  · have first : divide 1000000 microseconds = some (1000000 / microseconds) := if_neg zero
    by_cases pos : 0 < 1000000 / microseconds.toNat
    · have some : 1000000 / microseconds ≠ 0 := by
        intro none
        rw [none] at rate
        exact absurd pos (by rw [← rate]; decide)
      have second : divide pitFrequency (1000000 / microseconds) =
          Option.some (BitVec.ofNat 32 (1193180 / (1000000 / microseconds.toNat))) := by
        rw [divide, if_neg some, ← rate]
        refine congrArg Option.some (eq_of_toNat_eq ?_)
        exact (Nat.mod_eq_of_lt (Nat.lt_of_le_of_lt (Nat.div_le_self _ _) (by decide))).symm
      simp only [pitPrepareSleep, first, second, bind_eq_bind, bind_some, if_pos pos]
      rfl
    · have none : 1000000 / microseconds = 0 := eq_of_toNat_eq (rate.trans (Nat.eq_zero_of_not_pos pos))
      have second : divide pitFrequency (1000000 / microseconds) = Option.none := if_pos none
      simp only [pitPrepareSleep, first, second, bind_eq_bind, bind_some, bind_none, if_neg pos]

/-- A sleep is programmed exactly if its count has two bytes and the first division leaves
little. -/
theorem sleep_programmed_iff (io : Io) (microseconds : BitVec 32) :
    Programs io microseconds ↔ 19 ≤ 1000000 / microseconds.toNat ∧ 1193180 * (1000000 % microseconds.toNat) ≤
        1000000 * (1000000 / microseconds.toNat + 1193180 % (1000000 / microseconds.toNat)) := by
  unfold Programs
  rw [pitPrepareSleep_eq]
  by_cases pos : 0 < 1000000 / microseconds.toNat
  · have value : (BitVec.ofNat 32 (1193180 / (1000000 / microseconds.toNat))).toNat =
        1193180 / (1000000 / microseconds.toNat) :=
      Nat.mod_eq_of_lt (Nat.lt_of_le_of_lt (Nat.div_le_self _ _) (by decide))
    have small : 1193180 / (1000000 / microseconds.toNat) < 2 ^ 16 ↔ 19 ≤ 1000000 / microseconds.toNat := by
      rw [Nat.div_lt_iff_lt_mul pos]
      omega
    rw [if_pos pos, ← small, ← le_exact_iff pos]
    constructor
    · rintro ⟨prepared, sleepDivisor, returned, loads, near⟩
      cases returned
      rw [loads_iff, value] at loads
      rw [Near, value] at near
      exact ⟨loads, near.2⟩
    · rintro ⟨loads, near⟩
      refine ⟨_, _, rfl, (loads_iff _ _).mpr (by rwa [value]), ?_⟩
      rw [Near, value]
      exact ⟨exact_le pos, near⟩
  · rw [if_neg pos]
    refine iff_of_false ?_ fun right => absurd right.1 (by omega)
    rintro ⟨prepared, sleepDivisor, returned, _⟩
    cases returned

/-- What the calibration asks for is too long for two bytes. -/
theorem calibration_truncated : ¬ Programs ⟨fun _ _ => 0, 0, []⟩ calibrationSleep := by
  rintro ⟨prepared, sleepDivisor, returned, loads, _⟩
  rw [pitPrepareSleep_eq] at returned
  cases returned
  exact absurd ((loads_iff _ _).mp loads) (by decide)

end LunaOS.IntervalTimer
