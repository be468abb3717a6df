import LunaOS.BoundedLoop

/-! The growing list of the kernel (`utils/list.hpp`). Elements are added behind the last one;
a full buffer is replaced by one of twice its size, into which they are copied. An access
outside of a buffer ends a call without a result. -/
namespace LunaOS.GrowableList
open BoundedLoop BitVec Option

/-- An array on the heap; elements that were not written are `none`. -/
abbrev Buffer (T : Type) := List (Option T)

/-- `List<T>` -/
structure Growable (T : Type) where
  buffer : Option (Buffer T)
  cnt : BitVec 32
  totalSize : BitVec 32

section Model
variable {T : Type}

/-- `new T[newSize]` -/
def newArray (newSize : BitVec 32) : Option (Buffer T) :=
  if newSize.slt 0 then none else some (List.replicate newSize.toNat none)

/-- `buffer[index]`; a negative index is outside of every buffer. -/
def readAt (buffer : Buffer T) (index : BitVec 32) : Option (Option T) := buffer[index.toNat]?

/-- `buffer[index] = value` -/
def writeAt (buffer : Buffer T) (index : BitVec 32) (value : Option T) : Option (Buffer T) :=
  if index.toNat < buffer.length then some (buffer.set index.toNat value) else none

/-- `for (int i = 0; i < cnt; i++) temp[i] = buffer[i]` -/
def copyTurn (buffer : Buffer T) (cnt : BitVec 32) :
    BitVec 32 × Buffer T → Turn (BitVec 32 × Buffer T) (Option (Buffer T))
  | (i, temp) =>
    if i.slt cnt then
      match (readAt buffer i).bind (writeAt temp i) with
      | some temp => .again (i + 1, temp)
      | none => .leave none
    else .leave (some temp)

def copy (buffer : Buffer T) (cnt : BitVec 32) (temp : Buffer T) : Option (Buffer T) :=
  (iterate (copyTurn buffer cnt) (2 ^ 32) (0, temp)).join

def resize (list : Growable T) (newSize : BitVec 32) : Option (Growable T) := do
  let temp ← newArray newSize
  let temp ← match list.buffer with
    | some buffer => copy buffer list.cnt temp
    | none => some temp
  pure { list with buffer := some temp, totalSize := newSize }

/-- `List(int initSize)` -/
def construct (initSize : BitVec 32) : Option (Growable T) :=
  resize ⟨none, 0, 0⟩ (if initSize = 0 then 1 else initSize)

/-- The first statement of `add`. -/
def makeRoom (list : Growable T) : Option (Growable T) :=
  if list.cnt = list.totalSize then resize list (list.totalSize * 2) else some list

def add (list : Growable T) (t : T) : Option (Growable T) := do
  let list ← makeRoom list
  let buffer ← list.buffer
  let buffer ← writeAt buffer list.cnt (some t)
  pure { list with buffer := some buffer, cnt := list.cnt + 1 }

def size (list : Growable T) : BitVec 32 := list.cnt

/-- `get`; it has no result outside of the buffer, or for an element that was not written. -/
def get (list : Growable T) (index : BitVec 32) : Option T := do
  let buffer ← list.buffer
  (← readAt buffer index)

/-- A list after a sequence of calls of `add`. -/
def added (initSize : BitVec 32) (elements : List T) : Option (Growable T) :=
  (construct initSize).bind fun list => elements.foldlM add list

/-! ## Copies -/

/-- The buffers of the copying loop. -/
def copied (buffer temp : Buffer T) (i : Nat) : Buffer T := buffer.take i ++ temp.drop i

theorem copied_step {buffer temp : Buffer T} (small : i < 2 ^ 32) (inside : i < buffer.length)
    (fits : i < temp.length) :
    (readAt buffer (BitVec.ofNat 32 i)).bind (writeAt (copied buffer temp i) (BitVec.ofNat 32 i)) =
      some (copied buffer temp (i + 1)) := by
  have index : (BitVec.ofNat 32 i).toNat = i := Nat.mod_eq_of_lt small
  have front : (buffer.take i).length = i := List.length_take_of_le (Nat.le_of_lt inside)
  have room : i < (copied buffer temp i).length := by
    rw [copied, List.length_append, front, List.length_drop]
    omega
  rw [readAt, index, List.getElem?_eq_getElem inside, bind_some, writeAt, index, if_pos room, copied, copied,
    List.set_append_right _ _ (Nat.le_of_eq front), front, Nat.sub_self, List.drop_eq_getElem_cons fits,
    List.set_cons_zero, List.take_succ_eq_append_getElem inside, List.append_assoc, List.singleton_append]

/-- The loop copies what it counts. -/
theorem copy_eq {buffer temp : Buffer T} {cnt : BitVec 32} (pos : 0 ≤ cnt.toInt)
    (inside : cnt.toNat ≤ buffer.length) (fits : cnt.toNat ≤ temp.length) :
    copy buffer cnt temp = some (copied buffer temp cnt.toNat) := by
  have value : cnt.toInt = cnt.toNat := by
    rw [toInt_eq_toNat_cond] at pos ⊢
    omega
  have bound : cnt.toNat < 2 ^ 31 := by
    have high := toInt_lt (x := cnt)
    omega
  have test (i : Nat) (small : i ≤ cnt.toNat) : (BitVec.ofNat 32 i).slt cnt = true ↔ i < cnt.toNat := by
    have index : (BitVec.ofNat 32 i).toNat = i := Nat.mod_eq_of_lt (by omega)
    rw [slt_iff_toInt_lt, toInt_eq_toNat_of_lt (by omega), index, value]
    omega
  have goes : ∀ i < cnt.toNat, copyTurn buffer cnt (BitVec.ofNat 32 i, copied buffer temp i) =
      .again (BitVec.ofNat 32 (i + 1), copied buffer temp (i + 1)) := by
    intro i early
    have step := copied_step (show i < 2 ^ 32 by omega) (Nat.lt_of_lt_of_le early inside) (Nat.lt_of_lt_of_le early fits)
    rw [copyTurn, if_pos ((test i (Nat.le_of_lt early)).mpr early), step, ofNat_add]
    rfl
  have stops : copyTurn buffer cnt (BitVec.ofNat 32 cnt.toNat, copied buffer temp cnt.toNat) =
      .leave (some (copied buffer temp cnt.toNat)) :=
    if_neg (mt (test _ (Nat.le_refl _)).mp (Nat.lt_irrefl _))
  have run := (iterate_ends (fun i => (BitVec.ofNat 32 i, copied buffer temp i)) goes stops
    (show cnt.toNat < 2 ^ 32 by omega)).1
  exact (congrArg Option.join run).trans join_some

/-! ## The sequence -/

/-- The buffer holds the elements and then what was not written. -/
structure Holds (list : Growable T) (elements : List T) : Prop where
  stored : ∃ rest, list.buffer = some (elements.map some ++ rest) ∧
    elements.length + rest.length = list.totalSize.toNat
  count : list.cnt.toNat = elements.length
  pos : 0 < list.totalSize.toNat
  bounded : list.totalSize.toNat < 2 ^ 31

theorem toInt_natural {value : BitVec 32} (small : value.toNat < 2 ^ 31) : value.toInt = value.toNat :=
  toInt_eq_toNat_of_lt (by omega)

theorem newArray_natural (small : newSize.toNat < 2 ^ 31) :
    newArray newSize = some (List.replicate newSize.toNat (none : Option T)) := by
  refine if_neg fun negative => ?_
  rw [slt_iff_toInt_lt, toInt_natural small, show (0 : BitVec 32).toInt = 0 from rfl] at negative
  omega

section Steps
variable {list : Growable T} {elements : List T}

section Held
variable (holds : Holds list elements)
include holds

theorem Holds.cnt_small : elements.length < 2 ^ 31 := by
  obtain ⟨rest, _, extent⟩ := holds.stored
  have bounded := holds.bounded
  omega

/-- A larger buffer holds the same elements. -/
theorem resize_holds (newSize : BitVec 32) (room : elements.length ≤ newSize.toNat)
    (pos : 0 < newSize.toNat) (small : newSize.toNat < 2 ^ 31) :
    ∃ grown, resize list newSize = some grown ∧ Holds grown elements ∧ grown.cnt = list.cnt ∧
      grown.totalSize = newSize := by
  obtain ⟨rest, buffer, extent⟩ := holds.stored
  have count := holds.count
  have front : (elements.map some ++ rest).take list.cnt.toNat = elements.map some := by
    rw [count]
    exact List.take_left' (List.length_map _)
  have moved : copy (elements.map some ++ rest) list.cnt (List.replicate newSize.toNat none) = _ :=
    copy_eq (by rw [toInt_natural (by omega)]; omega) (by simp [count]) (by simp [count, room])
  rw [copied, front] at moved
  refine ⟨⟨some (elements.map some ++ (List.replicate newSize.toNat none).drop list.cnt.toNat), list.cnt, newSize⟩, ?_,
    ⟨⟨_, rfl, ?_⟩, count, pos, small⟩, rfl, rfl⟩
  · simp only [resize, newArray_natural small, buffer, moved, bind_eq_bind, bind_some]
    rfl
  · rw [List.length_drop, List.length_replicate, count]
    exact Nat.add_sub_cancel' room

/-- An element goes behind the others. -/
theorem write_holds (room : elements.length < list.totalSize.toNat) (t : T) :
    ∃ buffer after, list.buffer = some buffer ∧ writeAt buffer list.cnt (some t) = some after ∧
      Holds ⟨some after, list.cnt + 1, list.totalSize⟩ (elements ++ [t]) := by
  obtain ⟨rest, buffer, extent⟩ := holds.stored
  have count := holds.count
  obtain ⟨first, rest, rfl⟩ : ∃ first tail, rest = first :: tail := by
    cases rest with
    | nil => simp only [List.length_nil] at extent; omega
    | cons first tail => exact ⟨first, tail, rfl⟩
  have inside : list.cnt.toNat < (elements.map some ++ first :: rest).length := by
    rw [List.length_append, List.length_map, count, List.length_cons]
    omega
  have next : (list.cnt + 1).toNat = (elements ++ [t]).length := by
    rw [toNat_add, count, List.length_append, List.length_singleton, show (1 : BitVec 32).toNat = 1 from rfl]
    omega
  refine ⟨_, _, buffer, if_pos inside, ⟨rest, ?_, ?_⟩, next, holds.pos, holds.bounded⟩
  · rw [count, List.set_append_right _ _ (Nat.le_of_eq (List.length_map _)), List.length_map, Nat.sub_self,
      List.set_cons_zero,
      List.map_append, List.append_assoc]
    rfl
  · rw [← extent, List.length_append, List.length_singleton, List.length_cons, Nat.add_assoc, Nat.add_comm 1]

/-- A list that is full becomes twice as large before an element is added. -/
theorem makeRoom_holds (few : elements.length < 2 ^ 30) :
    ∃ roomy, makeRoom list = some roomy ∧ Holds roomy elements ∧ elements.length < roomy.totalSize.toNat := by
  obtain ⟨rest, _, extent⟩ := holds.stored
  have count := holds.count
  have pos := holds.pos
  by_cases full : list.cnt = list.totalSize
  · have twice : (list.totalSize * 2).toNat = elements.length * 2 := by
      rw [toNat_mul, ← full, count, show (2 : BitVec 32).toNat = 2 from rfl]
      omega
    have some : 0 < elements.length := by rwa [← full, count] at pos
    obtain ⟨grown, ran, kept, _, size⟩ := resize_holds holds (list.totalSize * 2) (by omega) (by omega) (by omega)
    exact ⟨grown, (if_pos full).trans ran, kept, by rw [size, twice]; omega⟩
  · refine ⟨list, if_neg full, holds, ?_⟩
    have other : list.cnt.toNat ≠ list.totalSize.toNat := fun same => full (eq_of_toNat_eq same)
    omega

theorem add_holds (few : elements.length < 2 ^ 30) (t : T) :
    ∃ after, add list t = some after ∧ Holds after (elements ++ [t]) := by
  obtain ⟨roomy, prepared, kept, room⟩ := makeRoom_holds holds few
  obtain ⟨buffer, after, held, written, result⟩ := write_holds kept room t
  refine ⟨_, ?_, result⟩
  simp only [add, prepared, held, written, bind_eq_bind, bind_some]
  rfl

end Held

theorem construct_holds (pos : 0 ≤ initSize.toInt) :
    ∃ list : Growable T, construct initSize = some list ∧ Holds list [] := by
  have bound := toInt_lt (x := initSize)
  have value : initSize.toNat < 2 ^ 31 := by
    rw [toInt_eq_toNat_cond] at pos bound
    omega
  have chosen : ∃ newSize, (if initSize = 0 then 1 else initSize) = newSize ∧ 0 < newSize.toNat ∧
      newSize.toNat < 2 ^ 31 := by
    by_cases zero : initSize = 0
    · exact ⟨1, if_pos zero, by decide, by decide⟩
    · have nonzero : initSize.toNat ≠ 0 := fun none => zero (eq_of_toNat_eq none)
      exact ⟨initSize, if_neg zero, by omega, value⟩
  obtain ⟨newSize, chosen, some, small⟩ := chosen
  refine ⟨⟨Option.some (List.replicate newSize.toNat none), 0, newSize⟩, ?_, ⟨⟨_, rfl, ?_⟩, rfl, some, small⟩⟩
  · rw [construct, chosen]
    simp only [resize, newArray_natural small, bind_eq_bind, bind_some]
    rfl
  · rw [List.length_replicate, List.length_nil, Nat.zero_add]

/-- Elements added one after the other. -/
theorem adds_hold (holds : Holds list elements) (more : List T) (few : (elements ++ more).length < 2 ^ 30) :
    ∃ after, more.foldlM add list = some after ∧ Holds after (elements ++ more) := by
  induction more generalizing list elements with
  | nil => exact ⟨list, rfl, by rwa [List.append_nil]⟩
  | cons t more ih =>
    rw [List.length_append] at few
    obtain ⟨next, ran, kept⟩ := add_holds holds (by omega) t
    obtain ⟨after, rest, result⟩ := ih kept (by rw [List.append_assoc, List.length_append]; exact few)
    refine ⟨after, ?_, by rwa [List.append_assoc] at result⟩
    rw [List.foldlM_cons, ran]
    exact rest

theorem Holds.get_eq (holds : Holds list elements) (inside : i < elements.length) :
    get list (BitVec.ofNat 32 i) = elements[i]? := by
  obtain ⟨rest, buffer, _⟩ := holds.stored
  have index : (BitVec.ofNat 32 i).toNat = i := Nat.mod_eq_of_lt (by omega)
  have here : (elements.map some ++ rest)[i]? = some (some elements[i]) := by
    rw [List.getElem?_append_left (by rwa [List.length_map]), List.getElem?_map, List.getElem?_eq_getElem inside]
    rfl
  simp only [get, buffer, readAt, index, here, bind_eq_bind, bind_some, List.getElem?_eq_getElem inside]

end Steps

end Model

/-- **A list is the sequence of what was added to it.** No access leaves the buffer. -/
theorem list_refines_sequence (T : Type) (initSize : BitVec 32) (elements : List T) (natural : 0 ≤ initSize.toInt)
    (few : elements.length < 2 ^ 30) :
    ∃ list, added initSize elements = some list ∧ (size list).toInt = elements.length ∧
      (∀ i < elements.length, get list (BitVec.ofNat 32 i) = elements[i]?) ∧ list.cnt.toInt ≤ list.totalSize.toInt := by
  obtain ⟨empty, constructed, start⟩ := construct_holds (T := T) natural
  obtain ⟨list, ran, holds⟩ := adds_hold start elements few
  have short := holds.cnt_small
  have count := holds.count
  obtain ⟨rest, _, extent⟩ := holds.stored
  rw [List.nil_append] at holds short count extent
  refine ⟨list, ?_, ?_, fun i inside => holds.get_eq inside, ?_⟩
  · rw [added, constructed, Option.bind_some, ran]
  · rw [size, toInt_natural (by omega), count]
  · rw [toInt_natural (by omega), toInt_natural holds.bounded]
    omega

theorem list_refines_sequence_grown :
    ∃ list, added 0 ["stdin", "stdout", "stderr"] = some list ∧ (size list).toInt = 3 ∧
      (∀ i < 3, get list (BitVec.ofNat 32 i) = ["stdin", "stdout", "stderr"][i]?) ∧
      list.cnt.toInt ≤ list.totalSize.toInt :=
  list_refines_sequence String 0 ["stdin", "stdout", "stderr"] (by decide) (by decide)

end LunaOS.GrowableList
