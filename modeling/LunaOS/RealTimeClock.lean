import LunaOS.BoundedLoop
import LunaOS.ByteMemory

/-! The clock of the machine (`system/cmos.cpp`) and the time stamps files get from it
(`get_fattime`, `fatfs/diskio.cpp`). The clock shows a time in one of four formats;
decoding them goes wrong at noon and at midnight of a 12-hour clock. -/
namespace LunaOS.RealTimeClock
open BoundedLoop ByteMemory
open BitVec hiding or_self

/-- `k_datetime` -/
structure Datetime where
  second : Byte
  minute : Byte
  hour : Byte
  day : Byte
  month : Byte
  year : Byte
  deriving DecidableEq, Repr

/-- What each register holds at each read of the data port. -/
abbrev Cmos := Nat → Byte → Byte

section Model
variable (cmos : Cmos)

/-- `while (cmosGetUpdateInProgressFlags());` from one read on, to the read after it. -/
def waitTurn (now : Nat) : Turn Nat Nat :=
  if cmos now 0x0A &&& 0x80 ≠ 0 then .again (now + 1) else .leave (now + 1)

/-- The six reads of the time. -/
def readTime (now : Nat) : Datetime :=
  ⟨cmos now 0x00, cmos (now + 1) 0x02, cmos (now + 2) 0x04, cmos (now + 3) 0x07, cmos (now + 4) 0x08,
    cmos (now + 5) 0x09⟩

/-- The time is read again until it is the one read before. -/
def settleTurn (turns : Nat) : Datetime × Nat → Turn (Datetime × Nat) (Option (Datetime × Nat))
  | (last, now) =>
    match iterate (waitTurn cmos) turns now with
    | none => .leave none
    | some now =>
      if readTime cmos now = last then .leave (some (last, now + 6)) else .again (readTime cmos now, now + 6)

def fromBcd (value : Byte) : Byte := (value &&& 0x0F) + value / 16 * 10

/-- The hour keeps the flag for the afternoon in its highest bit. -/
def hourFromBcd (hour : Byte) : Byte := ((hour &&& 0x0F) + (hour &&& 0x70) / 16 * 10) ||| (hour &&& 0x80)

/-- The conversion of a 12-hour clock. -/
def to24Hours (registerB hour : Byte) : Byte :=
  if registerB &&& 0x02 = 0 ∧ hour &&& 0x80 ≠ 0 then ((hour &&& 0x7F) + 12) % 24 else hour

def decode (registerB : Byte) (time : Datetime) : Datetime :=
  let time := if registerB &&& 0x04 = 0 then
    ⟨fromBcd time.second, fromBcd time.minute, hourFromBcd time.hour, fromBcd time.day, fromBcd time.month,
      fromBcd time.year⟩ else time
  { time with hour := to24Hours registerB time.hour }

def cmosGetDatetime (turns : Nat) : Option Datetime := do
  let now ← iterate (waitTurn cmos) turns 0
  let (time, now) ← (← iterate (settleTurn cmos turns) turns (readTime cmos now, now + 6))
  some (decode (cmos now 0x0B) time)

def packFattime (datetime : Datetime) : BitVec 32 :=
  (datetime.year.setWidth 32 - 80) <<< 25 ||| (datetime.month.setWidth 32 + 1) <<< 21 |||
    datetime.day.setWidth 32 <<< 16 |||
    datetime.hour.setWidth 32 <<< 11 |||
    datetime.minute.setWidth 32 <<< 5 |||
    datetime.second.setWidth 32 >>> 1

/-- `get_fattime` -/
def getFattime (turns : Nat) : Option (BitVec 32) := (cmosGetDatetime cmos turns).map packFattime

end Model

/-! ## The formats of the clock -/

/-- A date with a year of this century, and a time of day. -/
structure Moment where
  second : Nat
  minute : Nat
  hour : Nat
  day : Nat
  month : Nat
  year : Nat
  valid : second < 60 ∧ minute < 60 ∧ hour < 24 ∧ (1 ≤ day ∧ day ≤ 31) ∧ (1 ≤ month ∧ month ≤ 12) ∧ year < 100

def Moment.datetime (moment : Moment) : Datetime :=
  ⟨.ofNat 8 moment.second, .ofNat 8 moment.minute, .ofNat 8 moment.hour, .ofNat 8 moment.day,
    .ofNat 8 moment.month, .ofNat 8 moment.year⟩

def toBcd (value : Nat) : Byte := .ofNat 8 (value / 10 * 16 + value % 10)

/-- A number as the clock shows it: in binary when bit 2 of register B is set. -/
def shownNumber (registerB : Byte) (value : Nat) : Byte :=
  if registerB &&& 0x04 = 0 then toBcd value else .ofNat 8 value

/-- Twelve is the first hour of either half of the day. -/
def twelveHour (hour : Nat) : Nat := if hour % 12 = 0 then 12 else hour % 12

/-- The hour: with bit 1 of register B clear, the hour of a half day with a flag for the
afternoon. -/
def shownHour (registerB : Byte) (hour : Nat) : Byte :=
  if registerB &&& 0x02 = 0 then
    shownNumber registerB (twelveHour hour) ||| (if 12 ≤ hour then 0x80 else 0)
  else shownNumber registerB hour

def Moment.shown (moment : Moment) (registerB : Byte) : Datetime :=
  ⟨shownNumber registerB moment.second, shownNumber registerB moment.minute, shownHour registerB moment.hour,
    shownNumber registerB moment.day, shownNumber registerB moment.month, shownNumber registerB moment.year⟩

/-- The clock shows one moment at every read, in the format of register B, and no update
of it lasts forever. -/
structure Shows (cmos : Cmos) (registerB : Byte) (moment : Moment) : Prop where
  time : ∀ now, readTime cmos now = moment.shown registerB
  format : ∀ now, cmos now 0x0B = registerB
  updates : ∀ now, ∃ later ≥ now, cmos later 0x0A &&& 0x80 = 0

theorem fromBcd_toBcd : ∀ value : Fin 100, fromBcd (toBcd value) = .ofNat 8 value := by decide +kernel

/-- The hour the decoder ends up with. -/
def decodedHour (registerB : Byte) (hour : Nat) : Nat :=
  if registerB &&& 0x02 = 0 ∧ hour % 12 = 0 then (hour + 12) % 24 else hour

theorem hour_decoded (registerB : Byte) (small : hour < 24) :
    to24Hours registerB (if registerB &&& 0x04 = 0 then hourFromBcd (shownHour registerB hour)
      else shownHour registerB hour) = .ofNat 8 (decodedHour registerB hour) := by
  have formats : ∀ hour : Fin 24, hourFromBcd (toBcd hour) = .ofNat 8 hour ∧
      to24Hours 0 (hourFromBcd (toBcd (twelveHour hour) ||| if 12 ≤ hour.val then 0x80 else 0)) =
        .ofNat 8 (decodedHour 0 hour) ∧
      to24Hours 0 (.ofNat 8 (twelveHour hour) ||| if 12 ≤ hour.val then 0x80 else 0) =
        .ofNat 8 (decodedHour 0 hour) := by
    decide +kernel
  obtain ⟨bcd, bcdHalves, halves⟩ := formats ⟨hour, small⟩
  have zero : (0 : Byte) &&& 0x02 = 0 := rfl
  simp only [to24Hours, decodedHour, zero, true_and] at bcdHalves halves
  simp only [to24Hours, decodedHour, shownHour, shownNumber]
  by_cases binary : registerB &&& 0x04 = 0 <;> by_cases twelve : registerB &&& 0x02 = 0
  · simpa only [binary, twelve, if_true, true_and] using bcdHalves
  · simpa only [binary, twelve, if_true, if_false, false_and] using bcd
  · simpa only [binary, twelve, if_true, if_false, true_and] using halves
  · simp only [binary, twelve, if_false, false_and]

theorem number_decoded (registerB : Byte) (small : value < 100) :
    (if registerB &&& 0x04 = 0 then fromBcd (shownNumber registerB value) else shownNumber registerB value) =
      .ofNat 8 value := by
  unfold shownNumber
  split
  · exact fromBcd_toBcd ⟨value, small⟩
  · rfl

/-- Every field but the hour comes out as it was. -/
theorem moment_decoded (moment : Moment) (registerB : Byte) : decode registerB (moment.shown registerB) =
    { moment.datetime with hour := .ofNat 8 (decodedHour registerB moment.hour) } := by
  have valid := moment.valid
  have second : moment.second < 100 := by omega
  have minute : moment.minute < 100 := by omega
  have day : moment.day < 100 := by omega
  have month : moment.month < 100 := by omega
  rw [Datetime.mk.injEq]
  simp only [decode, Moment.shown, apply_ite Datetime.second, apply_ite Datetime.minute, apply_ite Datetime.hour,
    apply_ite Datetime.day, apply_ite Datetime.month, apply_ite Datetime.year, Moment.datetime]
  exact ⟨number_decoded registerB second, number_decoded registerB minute, hour_decoded registerB valid.2.2.1,
    number_decoded registerB day, number_decoded registerB month, number_decoded registerB valid.2.2.2.2.2⟩

theorem decodedHour_iff (registerB : Byte) (hour : Nat) :
    BitVec.ofNat 8 (decodedHour registerB hour) = BitVec.ofNat 8 hour ↔ registerB &&& 0x02 ≠ 0 ∨ hour % 12 ≠ 0 := by
  rw [← toNat_inj, toNat_ofNat, toNat_ofNat, decodedHour]
  split <;> rename_i wrong
  · simp only [wrong, ne_eq, not_true_eq_false, or_self, iff_false]
    omega
  · simp only [true_iff]
    by_cases twelve : registerB &&& 0x02 = 0
    · exact .inr fun first => wrong ⟨twelve, first⟩
    · exact .inl twelve

/-! ## Reading the clock -/

section Reading
variable {cmos : Cmos} {registerB : Byte} {moment : Moment}

/-- A clock whose updates end is waited for. -/
theorem wait_returns (updates : ∀ now, ∃ later ≥ now, cmos later 0x0A &&& 0x80 = 0) (now : Nat) :
    ∃ next enough, ∀ turns ≥ enough, iterate (waitTurn cmos) turns now = some next := by
  obtain ⟨later, after, clear⟩ := updates now
  -- by induction on how far away the end of the update is
  obtain ⟨distance, rfl⟩ := Nat.exists_eq_add_of_le after
  induction distance generalizing now with
  | zero =>
    refine ⟨now + 1, 1, fun turns fuel => iterate_leave ?_ fuel⟩
    simpa [waitTurn] using clear
  | succ distance ih =>
    by_cases here : cmos now 0x0A &&& 0x80 = 0
    · refine ⟨now + 1, 1, fun turns fuel => iterate_leave ?_ fuel⟩
      simp only [waitTurn, here, ne_eq, not_true_eq_false, if_false]
    · obtain ⟨next, enough, returns⟩ := ih (now + 1) (by omega) (by rwa [Nat.add_assoc, Nat.add_comm 1])
      refine ⟨next, enough + 1, fun turns fuel => ?_⟩
      obtain ⟨rest, rfl⟩ : ∃ rest, turns = rest + 1 := ⟨turns - 1, by omega⟩
      rw [iterate_again (show waitTurn cmos now = .again (now + 1) from if_pos here)]
      exact returns rest (by omega)

theorem cmosGetDatetime_returns (shows : Shows cmos registerB moment) :
    ∃ enough, ∀ turns ≥ enough, cmosGetDatetime cmos turns = some (decode registerB (moment.shown registerB)) := by
  obtain ⟨first, enough, waits⟩ := wait_returns shows.updates 0
  obtain ⟨second, enough', waits'⟩ := wait_returns shows.updates (first + 6)
  refine ⟨max (max enough enough') 1, fun turns fuel => ?_⟩
  have settled : settleTurn cmos turns (moment.shown registerB, first + 6) =
      .leave (some (moment.shown registerB, second + 6)) := by
    simp only [settleTurn, waits' turns (by omega), shows.time, if_true]
  simp only [cmosGetDatetime, waits turns (by omega), Option.bind_eq_bind, Option.bind_some, shows.time,
    iterate_leave settled (show 0 < turns by omega), shows.format]

end Reading

/-- The clock is read back exactly, except for the first hour of each half of the day
on a 12-hour clock. -/
theorem clock_exact_iff (cmos : Cmos) (registerB : Byte) (moment : Moment) (shows : Shows cmos registerB moment) :
    ∃ time, (∃ enough, ∀ turns ≥ enough, cmosGetDatetime cmos turns = some time) ∧
      (time = moment.datetime ↔ registerB &&& 0x02 ≠ 0 ∨ moment.hour % 12 ≠ 0) := by
  refine ⟨_, cmosGetDatetime_returns shows, ?_⟩
  rw [moment_decoded, ← decodedHour_iff registerB moment.hour]
  constructor
  · intro same
    exact congrArg Datetime.hour same
  · intro same
    rw [same]
    rfl

/-- A clock that stands still. -/
def stoppedClock (registerB : Byte) (shown : Datetime) : Cmos := fun _ cmosRegister =>
  if cmosRegister = 0x00 then shown.second
  else if cmosRegister = 0x02 then shown.minute
  else if cmosRegister = 0x04 then shown.hour
  else if cmosRegister = 0x07 then shown.day
  else if cmosRegister = 0x08 then shown.month
  else if cmosRegister = 0x09 then shown.year
  else if cmosRegister = 0x0B then registerB else 0

theorem stopped_shows (registerB : Byte) (moment : Moment) :
    Shows (stoppedClock registerB (moment.shown registerB)) registerB moment :=
  ⟨fun _ => rfl, fun _ => rfl, fun now => ⟨now, Nat.le_refl now, by simp [stoppedClock]⟩⟩

def noon : Moment := ⟨7, 30, 12, 17, 11, 26, by decide⟩
def midnight : Moment := ⟨7, 30, 0, 17, 11, 26, by decide⟩
def evening : Moment := ⟨7, 30, 21, 17, 11, 26, by decide⟩

/-- Nine in the evening in BCD on a 12-hour clock. -/
theorem clock_exact_iff_evening : (evening.shown 0x00).hour = 0x89 ∧
    ∃ time, (∃ enough, ∀ turns ≥ enough, cmosGetDatetime (stoppedClock 0x00 (evening.shown 0x00)) turns = some time) ∧
      time = evening.datetime := by
  obtain ⟨time, returns, exact⟩ := clock_exact_iff _ 0x00 evening (stopped_shows 0x00 evening)
  exact ⟨by decide, time, returns, exact.mpr (.inr (by decide))⟩

/-- Half past noon is taken for half past midnight, and the other way round. -/
theorem half_days_swapped : cmosGetDatetime (stoppedClock 0x00 (noon.shown 0x00)) 2 = some midnight.datetime ∧
      cmosGetDatetime (stoppedClock 0x00 (midnight.shown 0x00)) 2 = some noon.datetime := by
  decide +kernel

/-! ## The time stamps of files -/

/-- The fields of a FAT time stamp; the seconds are counted in twos. -/
structure Stamp where
  year : Nat
  month : Nat
  day : Nat
  hour : Nat
  minute : Nat
  second : Nat
  deriving DecidableEq, Repr

def unpackFattime (stamp : BitVec 32) : Stamp where
  year := 1980 + (stamp.extractLsb' 25 7).toNat
  month := (stamp.extractLsb' 21 4).toNat
  day := (stamp.extractLsb' 16 5).toNat
  hour := (stamp.extractLsb' 11 5).toNat
  minute := (stamp.extractLsb' 5 6).toNat
  second := (stamp.extractLsb' 0 5).toNat

def Moment.stamp (moment : Moment) : Stamp :=
  ⟨2000 + moment.year, moment.month, moment.day, moment.hour, moment.minute, moment.second / 2⟩

/-- The packed fields lie beside each other. -/
theorem packFattime_toNat (moment : Moment) : (packFattime moment.datetime).toNat =
    (moment.year + 48) % 128 * 2 ^ 25 + (moment.month + 1) * 2 ^ 21 + moment.day * 2 ^ 16 +
      moment.hour * 2 ^ 11 + moment.minute * 2 ^ 5 + moment.second / 2 := by
  obtain ⟨second, minute, hour, day, month, year⟩ := moment.valid
  have widened : ∀ value < 256, ((BitVec.ofNat 8 value).setWidth 32).toNat = value := by
    intro value small
    rw [toNat_setWidth, toNat_ofNat]
    omega
  have yearField : (((BitVec.ofNat 8 moment.year).setWidth 32 - 80) <<< 25).toNat =
      (moment.year + 48) % 128 * 2 ^ 25 := by
    rw [toNat_shiftLeft, toNat_sub, widened _ (by omega), Nat.shiftLeft_eq]
    change (2 ^ 32 - 80 + moment.year) % 2 ^ 32 * 2 ^ 25 % 2 ^ 32 = _
    omega
  have monthField : (((BitVec.ofNat 8 moment.month).setWidth 32 + 1) <<< 21).toNat = (moment.month + 1) * 2 ^ 21 := by
    rw [toNat_shiftLeft, toNat_add, widened _ (by omega), Nat.shiftLeft_eq]
    change (moment.month + 1) % 2 ^ 32 * 2 ^ 21 % 2 ^ 32 = _
    omega
  have field : ∀ value shift, value * 2 ^ shift < 2 ^ 32 → value < 256 →
      ((BitVec.ofNat 8 value).setWidth 32 <<< shift).toNat = value * 2 ^ shift := by
    intro value shift fits small
    have same : (BitVec.ofNat 8 value).toNat = value := Nat.mod_eq_of_lt small
    rw [byte_field (by rwa [same]), same]
  simp only [packFattime, Moment.datetime, toNat_or, yearField, monthField, toNat_ushiftRight]
  rw [field _ 16 (by omega) (by omega), field _ 11 (by omega) (by omega), field _ 5 (by omega) (by omega),
    widened _ (by omega), Nat.shiftRight_eq_div_pow, or_of_low 25 ((moment.month + 1) * 2 ^ 21) (by omega) (by omega),
    or_of_low 21 (moment.day * 2 ^ 16) (by omega) (by omega), or_of_low 16 (moment.hour * 2 ^ 11) (by omega) (by omega),
    or_of_low 11 (moment.minute * 2 ^ 5) (by omega) (by omega), or_of_low 5 (moment.second / 2 ^ 1) (by omega) (by omega)]

/-- Day and time of day are packed as they are. The month is one too high, and the year is
taken to count from 1900: neither is ever right. -/
theorem fattime_fields (cmos : Cmos) (turns : Nat) (moment : Moment)
    (read : cmosGetDatetime cmos turns = some moment.datetime) : ∃ stamp, getFattime cmos turns = some stamp ∧
      unpackFattime stamp = { moment.stamp with
        month := moment.month + 1
        year := 1980 + (moment.year + 48) % 128 } ∧
      (unpackFattime stamp).month ≠ moment.stamp.month ∧ (unpackFattime stamp).year ≠ moment.stamp.year := by
  obtain ⟨second, minute, hour, day, month, year⟩ := moment.valid
  refine ⟨packFattime moment.datetime, by rw [getFattime, read, Option.map_some], ?_⟩
  simp only [unpackFattime, Moment.stamp, BitVec.extractLsb'_toNat, packFattime_toNat, Nat.shiftRight_eq_div_pow,
    Stamp.mk.injEq]
  refine ⟨⟨?_, ?_, ?_, ?_, ?_, ?_⟩, ?_, ?_⟩ <;> omega

theorem evening_read : cmosGetDatetime (stoppedClock 0x02 (evening.shown 0x02)) 2 = some evening.datetime := by
  decide +kernel

theorem fattime_fields_evening : ∃ stamp, getFattime (stoppedClock 0x02 (evening.shown 0x02)) 2 = some stamp ∧
    (unpackFattime stamp).day = 17 ∧ (unpackFattime stamp).hour = 21 := by
  obtain ⟨stamp, packed, fields, _⟩ := fattime_fields _ 2 evening evening_read
  exact ⟨stamp, packed, congrArg Stamp.day fields, congrArg Stamp.hour fields⟩

/-- A file written in November 2026 is dated December 2054. -/
theorem november_stamped_december :
    (getFattime (stoppedClock 0x02 (evening.shown 0x02)) 2).map unpackFattime = some ⟨2054, 12, 17, 21, 30, 3⟩ ∧
      evening.stamp = ⟨2026, 11, 17, 21, 30, 3⟩ := by
  decide +kernel

end LunaOS.RealTimeClock
