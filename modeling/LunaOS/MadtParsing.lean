import LunaOS.BoundedLoop
import LunaOS.ByteMemory

/-! The record loop of `madtParse` (`system/acpi/madt.cpp`). Each record says how
long it is, and the loop believes it: it ends, and stays inside the table, exactly
for the tables whose records follow each other up to the end. -/
namespace LunaOS.MadtParsing
open ByteMemory BoundedLoop BitVec

/-- `sizeof(k_madt_hdr)` -/
def madtHdrSize : Nat := 44

def load32 (mem : Memory) (base : Addr) : BitVec 32 :=
  mem (base + 3) ++ mem (base + 2) ++ mem (base + 1) ++ mem base

/-- `madtHeader->length` -/
def headerLength (mem : Memory) (madt : Addr) : BitVec 32 := load32 mem (madt + 4)

/-- The lists of the records found, newest first. -/
structure Entries where
  lapicList : List Addr
  ioapicList : List Addr
  ioapicInterruptSrcOverrideList : List Addr
  deriving DecidableEq, Repr

/-- What the switch does with a record of a type. -/
def Entries.add (entries : Entries) (entryType : Byte) (record : Addr) : Entries :=
  if entryType = 0 then { entries with lapicList := record :: entries.lapicList }
  else if entryType = 1 then { entries with ioapicList := record :: entries.ioapicList }
  else if entryType = 2 then
    { entries with ioapicInterruptSrcOverrideList := record :: entries.ioapicInterruptSrcOverrideList }
  else entries

section Table
variable (mem : Memory) (madt : Addr)

/-- The length of the records, as the loop computes it. -/
def madtLength : BitVec 32 := headerLength mem madt - BitVec.ofNat 32 madtHdrSize

/-- A byte of the records: `madtData[i + offset]`. -/
def recordAddr (i : BitVec 32) : Addr := madt + BitVec.ofNat 64 madtHdrSize + i.setWidth 64

def recordLength (i : BitVec 32) : Byte := mem (recordAddr madt i + 1)

def parseTurn : Entries × BitVec 32 → Turn (Entries × BitVec 32) Entries
  | (entries, i) =>
    if i < madtLength mem madt then
      .again (entries.add (mem (recordAddr madt i)) (recordAddr madt i), i + (recordLength mem madt i).setWidth 32)
    else .leave entries

/-- The places in the table a turn reads: the type and the length of a record. -/
def turnReads (i : BitVec 32) : List Nat :=
  if i < madtLength mem madt then [madtHdrSize + i.toNat, madtHdrSize + i.toNat + 1] else []

/-- The loop ends, and reads no byte at or beyond the end of the table. -/
structure EndsInside (entries : Entries) : Prop where
  ends : ∃ turns found, iterate (parseTurn mem madt) turns (entries, 0) = some found
  inside : ∀ turns, ∀ visited ∈ visits (parseTurn mem madt) turns (entries, 0),
    ∀ place ∈ turnReads mem madt visited.2, place < (headerLength mem madt).toNat

/-- Records of these lengths follow each other from `i` on, each with its type and
its length inside the table, and the last one reaches the end. -/
def Follow (i : BitVec 32) : List Byte → Prop
  | [] => (headerLength mem madt).toNat ≤ madtHdrSize + i.toNat
  | length :: rest =>
    madtHdrSize + i.toNat + 1 < (headerLength mem madt).toNat ∧ recordLength mem madt i = length ∧
      Follow (i + length.setWidth 32) rest

variable {mem madt}

theorem madtLength_toNat (room : madtHdrSize ≤ (headerLength mem madt).toNat) :
    (madtLength mem madt).toNat = (headerLength mem madt).toNat - madtHdrSize := by
  rw [madtLength, toNat_sub_of_le]
  · rfl
  · exact room

theorem turn_again (room : madtHdrSize ≤ (headerLength mem madt).toNat) (i : BitVec 32) :
    i < madtLength mem madt ↔ madtHdrSize + i.toNat < (headerLength mem madt).toNat := by
  rw [lt_def, madtLength_toNat room]
  omega

theorem parseTurn_again (here : i < madtLength mem madt) : parseTurn mem madt (entries, i) =
    .again (entries.add (mem (recordAddr madt i)) (recordAddr madt i),
      i + (recordLength mem madt i).setWidth 32) := if_pos here

theorem parseTurn_leave (past : ¬ i < madtLength mem madt) : parseTurn mem madt (entries, i) = .leave entries :=
  if_neg past

theorem follow_ends (room : madtHdrSize ≤ (headerLength mem madt).toNat) (follow : Follow mem madt i lengths)
    (entries : Entries) : (∃ found, iterate (parseTurn mem madt) (lengths.length + 1) (entries, i) = some found) ∧
      ∀ turns, ∀ visited ∈ visits (parseTurn mem madt) turns (entries, i),
        ∀ place ∈ turnReads mem madt visited.2, place < (headerLength mem madt).toNat := by
  induction lengths generalizing i entries with
  | nil =>
    have past : ¬ i < madtLength mem madt := by
      rw [turn_again room]
      exact Nat.not_lt.mpr follow
    have left : parseTurn mem madt (entries, i) = .leave entries := parseTurn_leave past
    refine ⟨⟨entries, iterate_leave left (Nat.succ_pos _)⟩, ?_⟩
    intro turns visited member
    cases turns with
    | zero => cases member
    | succ turns =>
      rw [visits_leave left (Nat.succ_pos turns), List.mem_singleton] at member
      rw [member, turnReads, if_neg past]
      simp
  | cons length rest ih =>
    obtain ⟨inside, rfl, later⟩ := follow
    have here : i < madtLength mem madt := (turn_again room i).mpr (by omega)
    have asked : parseTurn mem madt (entries, i) = .again (_, _) := parseTurn_again here
    obtain ⟨ended, within⟩ := ih later (entries.add (mem (recordAddr madt i)) (recordAddr madt i))
    refine ⟨?_, ?_⟩
    · rw [List.length_cons, iterate_again asked]
      exact ended
    · intro turns visited member
      cases turns with
      | zero => cases member
      | succ turns =>
        simp only [visits, asked, List.mem_cons] at member
        rcases member with rfl | member
        · simp only [turnReads, if_pos here, List.mem_cons, List.not_mem_nil, or_false, forall_eq_or_imp, forall_eq]
          exact ⟨Nat.lt_of_succ_lt inside, inside⟩
        · exact within turns visited member

theorem ends_follow (room : madtHdrSize ≤ (headerLength mem madt).toNat)
    (returned : iterate (parseTurn mem madt) turns (entries, i) = some found)
    (inside : ∀ visited ∈ visits (parseTurn mem madt) turns (entries, i),
      ∀ place ∈ turnReads mem madt visited.2, place < (headerLength mem madt).toNat) :
    ∃ lengths, Follow mem madt i lengths := by
  induction turns generalizing i entries with
  | zero => cases returned
  | succ turns ih =>
    by_cases here : i < madtLength mem madt
    · have asked : parseTurn mem madt (entries, i) = .again (_, _) := parseTurn_again here
      rw [iterate_again asked] at returned
      simp only [visits, asked, List.mem_cons, forall_eq_or_imp, turnReads, if_pos here] at inside
      obtain ⟨lengths, follow⟩ := ih returned inside.2
      exact ⟨recordLength mem madt i :: lengths, inside.1.2.1, rfl, follow⟩
    · refine ⟨[], ?_⟩
      rw [turn_again room] at here
      exact Nat.not_lt.mp here

/-- A length below the header's wraps around to a very long table. -/
theorem short_reads (short : (headerLength mem madt).toNat < madtHdrSize) :
    turnReads mem madt 0 = [madtHdrSize, madtHdrSize + 1] := by
  refine if_pos ?_
  rw [lt_def, madtLength, toNat_sub, toNat_ofNat]
  have zero : (0 : BitVec 32).toNat = 0 := rfl
  unfold madtHdrSize at *
  omega

end Table

/-- The loop is safe exactly on tables of at least a header whose records follow
each other up to the end. -/
theorem madtParse_safe_iff (mem : Memory) (madt : Addr) (entries : Entries) : EndsInside mem madt entries ↔
      madtHdrSize ≤ (headerLength mem madt).toNat ∧ ∃ lengths, Follow mem madt 0 lengths := by
  constructor
  · rintro ⟨⟨turns, found, returned⟩, inside⟩
    have room : madtHdrSize ≤ (headerLength mem madt).toNat := by
      by_contra short
      have first : (entries, 0) ∈ visits (parseTurn mem madt) 1 (entries, 0) := List.mem_cons_self
      have within := inside 1 _ first
      rw [short_reads (Nat.not_le.mp short)] at within
      exact short (Nat.le_of_lt (within madtHdrSize List.mem_cons_self))
    exact ⟨room, ends_follow room returned (inside turns)⟩
  · rintro ⟨room, lengths, follow⟩
    obtain ⟨ended, inside⟩ := follow_ends room follow entries
    exact ⟨⟨_, ended⟩, inside⟩

/-- A table with one record of a length. -/
def oneRecord (header length : Byte) : Memory :=
  write (fun _ => 0) 0x1000 64 fun i => if i = 4 then header else if i = 45 then length else 0

/-- A record of length zero is parsed forever, and a header length of ten lets the
loop begin behind the end of the table. -/
theorem malformed_tables :
    ¬ EndsInside (oneRecord 52 0) 0x1000 ⟨[], [], []⟩ ∧ ¬ EndsInside (oneRecord 10 8) 0x1000 ⟨[], [], []⟩ := by
  have stays : 0 + (recordLength (oneRecord 52 0) 0x1000 0).setWidth 32 = 0 := by decide
  refine ⟨?_, ?_⟩
  · rintro ⟨⟨turns, found, returned⟩, _⟩
    have never : iterate (parseTurn (oneRecord 52 0) 0x1000) turns (⟨[], [], []⟩, 0) = none := by
      apply iterate_never (fun state => state.2 = 0) rfl
      rintro ⟨entries, i⟩ rfl
      exact ⟨_, parseTurn_again (by decide), stays⟩
    cases never.symm.trans returned
  · intro safe
    exact absurd (safe.inside 1 (⟨[], [], []⟩, 0) List.mem_cons_self 44 (by decide)) (by decide)

end LunaOS.MadtParsing
