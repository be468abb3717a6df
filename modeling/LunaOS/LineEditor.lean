import LunaOS.ByteMemory
import Mathlib.Data.List.Infix

/-! The line editor of the shell (`getCMD`, `applications/testapp/main.c`). A backspace
moves the index of the next character back, also from the start of the line; an index
below 0 then keeps every later character out. -/
namespace LunaOS.LineEditor
open Function ByteMemory

def newline : Byte := 0x0A
def backspace : Byte := 0x08
/-- `EOF`, as the `char` it is compared with -/
def eof : Byte := 0xFF

/-- The index and the buffer of `getCMD`, with the indices written and the characters
echoed so far. -/
structure Editor where
  i : Int
  cmdHolder : Int → Byte
  written : List Int
  echoed : List Byte

def Editor.store (editor : Editor) (byte : Byte) : Editor :=
  { editor with
    cmdHolder := Function.update editor.cmdHolder editor.i byte
    written := editor.i :: editor.written }

def Editor.putchar (editor : Editor) (c : Byte) : Editor := { editor with echoed := editor.echoed ++ [c] }

/-- A character that does not end the line. -/
def typeTurn (editor : Editor) (c : Byte) : Editor :=
  if c ≠ eof ∧ 0 ≤ editor.i then
    let typed := if c = backspace then { editor with i := editor.i - 1 }
      else { editor.store c with i := editor.i + 1 }
    typed.putchar c
  else editor

/-- The loop, with the input it leaves; `none` while it waits for more. -/
def typeLine (editor : Editor) : List Byte → Option (Editor × List Byte)
  | [] => none
  | c :: rest =>
    if c = newline then some ((editor.putchar c).store 0, rest) else typeLine (typeTurn editor c) rest

def getCMD (cmdHolder : Int → Byte) (input : List Byte) : Option (Editor × List Byte) :=
  typeLine ⟨0, cmdHolder, [], []⟩ input

/-! ## What is typed -/

def edit (line : List Byte) (c : Byte) : List Byte := if c = backspace then line.dropLast else line ++ [c]

/-- The line after some characters. -/
def edited (typed : List Byte) : List Byte := typed.foldl edit []

/-- The buffer holds the line, the index is behind it, and nothing outside of the buffer was
written. -/
structure Holds (editor : Editor) (line : List Byte) : Prop where
  inside : ∀ index ∈ editor.written, 0 ≤ index ∧ index ≤ 255
  held : ∀ k (short : k < line.length), editor.cmdHolder k = (line)[k]
  ended : editor.i = line.length

structure Faithful (editor : Editor) (line : List Byte) : Prop extends Holds editor line where
  terminated : editor.cmdHolder line.length = 0

/-- No backspace meets an empty line, and no character is taken for the end of the input. -/
structure Plain (typed : List Byte) : Prop where
  shown : eof ∉ typed
  kept : ∀ front, front ++ [backspace] <+: typed → edited front ≠ []

theorem edited_snoc (typed : List Byte) (c : Byte) : edited (typed ++ [c]) = edit (edited typed) c := by
  rw [edited, List.foldl_append]
  rfl

theorem edited_length_le (typed : List Byte) : (edited typed).length ≤ typed.length := by
  induction typed using List.reverseRecOn with
  | nil => exact Nat.le_refl _
  | append_singleton typed c ih =>
    rw [edited_snoc, edit, List.length_append, List.length_singleton]
    split
    · rw [List.length_dropLast]
      omega
    · rw [List.length_append, List.length_singleton]
      omega

theorem plain_nil : Plain [] := ⟨by simp, by simp⟩

theorem plain_snoc : Plain (typed ++ [c]) ↔ Plain typed ∧ c ≠ eof ∧ (c = backspace → edited typed ≠ []) := by
  constructor
  · rintro ⟨shown, kept⟩
    refine ⟨⟨fun member => shown (by simp [member]), fun front early => kept front (early.trans ⟨[c], rfl⟩)⟩, ?_, ?_⟩
    · rintro rfl
      exact shown (by simp)
    · rintro rfl
      exact kept typed (List.prefix_refl _)
  · rintro ⟨⟨shown, kept⟩, other, last⟩
    refine ⟨by simp [shown, other.symm], fun front early => ?_⟩
    rcases List.prefix_concat_iff.mp early with same | before
    · obtain ⟨rfl, rfl⟩ : front = typed ∧ backspace = c := by simpa using same
      exact last rfl
    · exact kept front before

/-! ## The index and the line -/

section Run
variable {editor : Editor} {typed line : List Byte} {c : Byte}

theorem typeTurn_index (editor : Editor) (c : Byte) : (typeTurn editor c).i =
    if c ≠ eof ∧ 0 ≤ editor.i then (if c = backspace then editor.i - 1 else editor.i + 1) else editor.i := by
  unfold typeTurn
  split
  · split <;> rfl
  · rfl

theorem edit_length (line : List Byte) (c : Byte) :
    (edit line c).length = if c = backspace then line.length - 1 else line.length + 1 := by
  unfold edit
  split <;> simp

/-- Once below 0 the index stays there. Until then it falls behind the length of the
line by one for every character taken for the end of the input. -/
theorem index_spec (start : editor.i = 0) (typed : List Byte) : (typed.foldl typeTurn editor).i = -1 ∨
      0 ≤ (typed.foldl typeTurn editor).i ∧
        (typed.foldl typeTurn editor).i + typed.count eof = (edited typed).length := by
  induction typed using List.reverseRecOn with
  | nil => exact .inr ⟨by simp [start], by simp [start, edited]⟩
  | append_singleton typed c ih =>
    rw [List.foldl_append, List.foldl_cons, List.foldl_nil, typeTurn_index, edited_snoc, edit_length,
      List.count_append, List.count_singleton]
    rcases ih with lost | ⟨inside, behind⟩
    · exact .inl (by rw [lost, if_neg (by omega)])
    · by_cases ends : c = eof
      · subst ends
        refine .inr ⟨by simpa using inside, ?_⟩
        rw [if_neg (by simp), beq_self_eq_true, if_pos rfl, if_neg (by decide)]
        omega
      · rw [if_pos ⟨ends, inside⟩, beq_eq_false_iff_ne.mpr ends]
        split
        · by_cases empty : (typed.foldl typeTurn editor).i = 0
          · exact .inl (by omega)
          · exact .inr ⟨by omega, by simp; omega⟩
        · exact .inr ⟨by omega, by simp; omega⟩

/-- The index ends at the end of the line exactly for what is plain. -/
theorem index_iff (start : editor.i = 0) (typed : List Byte) :
    (typed.foldl typeTurn editor).i = (edited typed).length ↔ Plain typed := by
  induction typed using List.reverseRecOn with
  | nil => exact iff_of_true (by simp [start, edited]) plain_nil
  | append_singleton typed c ih =>
    rw [plain_snoc, ← ih, List.foldl_append, List.foldl_cons, List.foldl_nil, typeTurn_index, edited_snoc, edit_length,
      ← List.length_pos_iff]
    rcases index_spec start typed with lost | ⟨inside, behind⟩
    · rw [lost, if_neg (by omega)]
      split <;> omega
    · by_cases ends : c = eof
      · subst ends
        rw [if_neg (by simp), if_neg (by decide)]
        simp
        omega
      · rw [if_pos ⟨ends, inside⟩]
        by_cases back : c = backspace
        · have other : backspace ≠ eof := by decide
          simp only [back, other, if_true, forall_true_left, ne_eq, not_false_eq_true, true_and]
          omega
        · simp only [back, ends, if_false, false_implies, and_true, ne_eq, not_false_eq_true]
          omega

theorem Holds.erase (holds : Holds editor line) (some : line ≠ []) :
    Holds (typeTurn editor backspace) (edit line backspace) := by
  have pos := List.length_pos_iff.mpr some
  have ended := holds.ended
  have turn : typeTurn editor backspace = { editor with i := editor.i - 1 }.putchar backspace := by
    rw [typeTurn, if_pos ⟨by decide, by omega⟩, if_pos rfl]
  rw [turn, edit, if_pos rfl]
  refine ⟨holds.inside, fun k short => ?_, ?_⟩
  · rw [List.length_dropLast] at short
    rw [List.getElem_dropLast]
    exact holds.held k (by omega)
  · rw [List.length_dropLast]
    change editor.i - 1 = _
    omega

theorem Holds.append (holds : Holds editor line) (ends : c ≠ eof) (back : c ≠ backspace) (room : line.length ≤ 254) :
    Holds (typeTurn editor c) (edit line c) := by
  have ended := holds.ended
  have turn : typeTurn editor c = { editor.store c with i := editor.i + 1 }.putchar c := by
    rw [typeTurn, if_pos ⟨ends, by omega⟩, if_neg back]
  rw [turn, edit, if_neg back]
  refine ⟨?_, fun k short => ?_, ?_⟩
  · exact List.forall_mem_cons.mpr ⟨by omega, holds.inside⟩
  · change update editor.cmdHolder editor.i c k = _
    rw [List.length_append, List.length_singleton] at short
    by_cases last : k = line.length
    · subst last
      rw [ended, update_self]
      simp
    · rw [update_of_ne (by omega), List.getElem_append_left (by omega)]
      exact holds.held k (by omega)
  · rw [List.length_append, List.length_singleton]
    change editor.i + 1 = _
    omega

theorem plain_holds (start : Holds editor []) (short : ∀ front, front <+: typed → (edited front).length ≤ 255)
    (plain : Plain typed) : Holds (typed.foldl typeTurn editor) (edited typed) := by
  induction typed using List.reverseRecOn with
  | nil => exact start
  | append_singleton typed c ih =>
    obtain ⟨earlier, ends, back⟩ := plain_snoc.mp plain
    have holds := ih (fun front early => short front (early.trans ⟨[c], rfl⟩)) earlier
    rw [List.foldl_append, List.foldl_cons, List.foldl_nil, edited_snoc]
    by_cases erase : c = backspace
    · subst erase
      exact holds.erase (back rfl)
    · have room := short _ (List.prefix_refl _)
      rw [edited_snoc, edit_length, if_neg erase] at room
      exact holds.append ends erase (by omega)

theorem typeLine_newline (line : newline ∉ typed) (rest : List Byte) : typeLine editor (typed ++ newline :: rest) =
    some ((((typed.foldl typeTurn editor)).putchar newline).store 0, rest) := by
  induction typed generalizing editor with
  | nil => rw [List.nil_append, typeLine, if_pos rfl, List.foldl_nil]
  | cons c typed ih =>
    rw [List.mem_cons, not_or] at line
    rw [List.cons_append, typeLine, if_neg (Ne.symm line.1), ih line.2, List.foldl_cons]

end Run

/-- For a line that always fits, the editor is faithful exactly when no backspace meets an
empty line and no character is taken for the end of the input. -/
theorem getCMD_faithful_iff (cmdHolder : Int → Byte) (typed rest : List Byte) (line : newline ∉ typed)
    (short : ∀ front, front <+: typed → (edited front).length ≤ 255) :
    ∃ editor, getCMD cmdHolder (typed ++ newline :: rest) = some (editor, rest) ∧
      (Faithful editor (edited typed) ↔ Plain typed) := by
  refine ⟨_, typeLine_newline line rest, ?_⟩
  constructor
  · intro faithful
    exact (index_iff rfl typed).mp faithful.ended
  · intro plain
    have empty : Holds ⟨0, cmdHolder, [], []⟩ [] := ⟨by simp, by simp, rfl⟩
    have holds := plain_holds empty short plain
    have room := short typed (List.prefix_refl _)
    generalize typed.foldl typeTurn _ = editor at holds ⊢
    have ended := holds.ended
    refine ⟨⟨?_, fun k inside => ?_, ended⟩, ?_⟩
    · intro index member
      rcases List.mem_cons.mp member with rfl | earlier
      · change 0 ≤ editor.i ∧ editor.i ≤ 255
        omega
      · exact holds.inside index earlier
    · change update editor.cmdHolder editor.i 0 k = _
      rw [update_of_ne (by omega)]
      exact holds.held k inside
    · change update editor.cmdHolder editor.i 0 _ = _
      rw [ended, update_self]

/-- A wrong letter is taken back. -/
theorem getCMD_faithful_iff_corrected : edited [0x6c, 0x78, 0x08, 0x73] = [0x6c, 0x73] ∧
    ∃ editor, getCMD (fun _ => 0x55) [0x6c, 0x78, 0x08, 0x73, 0x0A] = some (editor, []) ∧
      Faithful editor [0x6c, 0x73] := by
  have plain : Plain (([] ++ [0x6c] ++ [0x78] ++ [0x08]) ++ [0x73]) :=
    plain_snoc.mpr ⟨plain_snoc.mpr ⟨plain_snoc.mpr ⟨plain_snoc.mpr ⟨plain_nil, by decide, by decide⟩,
      by decide, by decide⟩, by decide, by decide⟩, by decide, by decide⟩
  obtain ⟨editor, ran, faithful⟩ := getCMD_faithful_iff (fun _ => 0x55) [0x6c, 0x78, 0x08, 0x73] [] (by decide)
    fun front early => Nat.le_trans (edited_length_le front) (Nat.le_trans early.length_le (by decide))
  exact ⟨rfl, editor, ran, faithful.mpr plain⟩

/-- One backspace too many: the letters after it are lost, and the terminator is written in
front of the buffer. -/
theorem backspace_first : edited [0x08, 0x6c, 0x73] = [0x6c, 0x73] ∧
    ∃ editor, getCMD (fun _ => 0x55) [0x08, 0x6c, 0x73, 0x0A] = some (editor, []) ∧
      editor.written = [-1] ∧ editor.cmdHolder 0 = 0x55 := by
  exact ⟨rfl, _, rfl, rfl, by decide⟩

end LunaOS.LineEditor
