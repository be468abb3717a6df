import LunaOS.ElfFormat
import LunaOS.NumberText
import LunaOS.RendererBounds
import LunaOS.StringCompare

/-! The formatter of the kernel (`Renderer::printf`, `graphics/Renderer.cpp`). One pointer
goes over the format in three places: over literal characters, over the first character of
a directive, and over the rest of it. A percent sign at the end of the format takes the
terminator for a directive. -/
namespace LunaOS.Formatter
open ByteMemory BoundedLoop NumberText ElfFormat BitVec

/-- Why a run does not return: a byte behind the terminator is read, or the turns are used
up. -/
inductive Stop where
  | past
  | turns
  deriving DecidableEq, Repr

abbrev Run := Except Stop

/-- A turn that stops leaves its loop. -/
def settle : Run (Turn σ α) → Turn σ (Run α)
  | .error stop => .leave (.error stop)
  | .ok (.again next) => .again next
  | .ok (.leave result) => .leave (.ok result)

/-- A loop with a body that may stop. -/
def loop (body : σ → Run (Turn σ α)) (turns : Nat) (state : σ) : Run α :=
  (iterate (fun state => settle (body state)) turns state).getD (.error .turns)

def finish : Option α → Run α
  | some result => .ok result
  | none => .error .turns

/-- What the formatter does with the console. -/
inductive Call where
  | putchar (c : BitVec 16)
  | print (text : List Byte)
  | setColor (fg bg : BitVec 32)
  deriving DecidableEq, Repr

/-- `K_HEADER_FG` -/
def headerFg : BitVec 32 := 0xF85E2B
/-- `K_HEADER_BG` -/
def headerBg : BitVec 32 := 0x000000

/-- `defaultColor` -/
def defaultColor : Call := .setColor 0xFFFFFF 0x000000

/-- `GiB_unit`, and the smaller ones -/
def gibUnit : BitVec 64 := 1024 * 1024 * 1024
def mibUnit : BitVec 64 := 1024 * 1024
def kibUnit : BitVec 64 := 1024

/-- `K_MEMORY_SIZE` -/
def memorySize (mem : BitVec 64) : BitVec 64 :=
  if gibUnit ≤ mem then mem / gibUnit else if mibUnit ≤ mem then mem / mibUnit
  else if kibUnit ≤ mem then mem / kibUnit else mem

/-- `K_MEMORY_UNIT`: GiB, MiB, KiB or Bytes -/
def memoryUnit (mem : BitVec 64) : List Byte :=
  if gibUnit ≤ mem then [0x47, 0x69, 0x42] else if mibUnit ≤ mem then [0x4D, 0x69, 0x42]
  else if kibUnit ≤ mem then [0x4B, 0x69, 0x42] else [0x42, 0x79, 0x74, 0x65, 0x73]

/-- The sizes of the directives with a size. -/
inductive Size where
  | byte
  | word
  | dword
  | qword
  deriving DecidableEq, Repr

namespace Size

def bytes : Size → Nat
  | byte => 1
  | word => 2
  | dword => 4
  | qword => 8

/-- `8x`, `16x`, `32x` and `64x` -/
def text : Size → List Byte
  | byte => [0x38, 0x78]
  | word => [0x31, 0x36, 0x78]
  | dword => [0x33, 0x32, 0x78]
  | qword => [0x36, 0x34, 0x78]

end Size

/-- `printf` between two turns of its loop, with the position in the format and the number of
the next argument. -/
structure Scan where
  traverse : Nat
  arg : Nat
  toStringOut : Buffer
  calls : List Call

def printTurn (text : Nat → Byte) : Nat × List Byte → Turn (Nat × List Byte) (List Byte)
  | (i, printed) => if text i ≠ 0 then .again (i + 1, printed ++ [text i]) else .leave printed

/-- `_print` -/
def Scan.print (scan : Scan) (text : Nat → Byte) : Run Scan := do
  let printed ← finish (iterate (printTurn text) maxTurns (0, []))
  return { scan with calls := scan.calls ++ [.print printed] }

/-- `_print` of a number that was written to the buffer. -/
def Scan.printNumber (scan : Scan) (out : Option Buffer) : Run Scan := do
  let out ← finish out
  let scan := { scan with toStringOut := out }
  scan.print fun i => out i

def Scan.call (scan : Scan) (call : Call) : Scan := { scan with calls := scan.calls ++ [call] }

section Printf
variable (mem : Memory) (args : Nat → BitVec 64) (format : List Byte)

/-- A byte of the format, whose last byte is its terminator. -/
def readAt (i : Nat) : Run Byte :=
  match format[i]? with
  | some byte => .ok byte
  | none => .error .past

/-- `strncmp` of the format with a text of less than four characters -/
def strncmp : Nat → List Byte → Run Int
  | _, [] => .ok 0
  | i, c2 :: rest => do
    let c1 ← readAt format i
    if c1 = 0 ∨ c1 ≠ c2 then return c1.toNat - c2.toNat else strncmp (i + 1) rest

/-- The cases of the default branch, the first size that matches. -/
def sized (scan : Scan) (i : BitVec 64) : List Size → Run Scan
  | [] => .ok scan
  | size :: rest => do
    let order ← strncmp format scan.traverse size.text
    if order = 0 then
      let scan := { scan with traverse := scan.traverse + (size.text.length - 1) }
      scan.printNumber
        (some (toHexSized ((i.setWidth (8 * size.bytes)).setWidth 64) size.bytes scan.toStringOut))
    else sized scan i rest

/-- The switch over the character behind a percent sign. -/
def formatDirective (scan : Scan) : Run Scan := do
  let c ← readAt format scan.traverse
  let i := args scan.arg
  let int := (i.setWidth 32).signExtend 64
  let scan := { scan with arg := scan.arg + 1 }
  if c = 0x63 then return scan.call (.putchar (int.setWidth 16))
  else if c = 0x64 then scan.printNumber (NumberText.toString int scan.toStringOut)
  else if c = 0x73 then scan.print fun k => mem (i + BitVec.ofNat 64 k)
  else if c = 0x78 then scan.printNumber (toHex i scan.toStringOut)
  else if c = 0x6D then
    let scan ← scan.printNumber (NumberText.toString (memorySize i) scan.toStringOut)
    return scan.call (.print (memoryUnit i))
  else if c = 0x21 then
    let scan ← (scan.call (.setColor headerFg headerBg)).print fun k => mem (i + BitVec.ofNat 64 k)
    return scan.call defaultColor
  else sized format scan i [.byte, .word, .dword, .qword]

/-- The loop over literal characters. -/
def literalTurn : Nat × List Call → Run (Turn (Nat × List Call) (Nat × List Call))
  | (traverse, calls) => do
    let c ← readAt format traverse
    if c ≠ 0x25 ∧ c ≠ 0 then return .again (traverse + 1, calls ++ [.putchar (c.signExtend 16)])
    else return .leave (traverse, calls)

def formatTurn (turns : Nat) (scan : Scan) : Run (Turn Scan (List Call)) := do
  let c ← readAt format scan.traverse
  if c = 0 then return .leave scan.calls
  let (traverse, calls) ← loop (literalTurn format) turns (scan.traverse, scan.calls)
  let c ← readAt format traverse
  if c = 0 then return .leave calls
  let scan ← formatDirective mem args format { scan with traverse := traverse + 1, calls }
  return .again { scan with traverse := scan.traverse + 1 }

/-- The arguments are those of one call of `va_arg` after the other. -/
def printf (turns : Nat) (toStringOut : Buffer) : Run (List Call) :=
  loop (formatTurn mem args format turns) turns ⟨0, 0, toStringOut, []⟩

end Printf

/-! ## The language of formats -/

/-- The directives. -/
inductive Directive where
  | char
  | decimal
  | string
  | hex
  | mem
  | header
  | sized (size : Size)
  deriving DecidableEq, Repr

namespace Directive

/-- What stands behind the percent sign. -/
def text : Directive → List Byte
  | char => [0x63]
  | decimal => [0x64]
  | string => [0x73]
  | hex => [0x78]
  | mem => [0x6D]
  | header => [0x21]
  | sized size => size.text

def all : List Directive :=
  [char, decimal, string, hex, mem, header, sized .byte, sized .word, sized .dword, sized .qword]

/-- What a directive makes of its argument, and of the string at it. -/
def wanted (i : BitVec 64) (letters : List Byte) : Directive → List Call
  | char => [.putchar (i.setWidth 16)]
  | decimal => [.print (signedText (i.setWidth 32).toInt)]
  | string => [.print letters]
  | hex => [.print (hexText i.toNat)]
  | mem => [.print (decimalText (memorySize i).toNat), .print (memoryUnit i)]
  | header => [.setColor headerFg headerBg, .print letters, defaultColor]
  | sized size => [.print (paddedText (size.bytes * 2) (i.toNat % 2 ^ (8 * size.bytes)))]

/-- The directives whose argument is a string. -/
def TakesText (directive : Directive) : Prop := directive = string ∨ directive = header

instance : DecidablePred TakesText := fun directive => inferInstanceAs (Decidable (directive = _ ∨ directive = _))

/-- The arguments that are printed right: not negative for `%d`, and with as many
hexadecimal as decimal digits for `%x`. -/
def Right (i : BitVec 64) : Directive → Prop
  | decimal => 0 ≤ (i.setWidth 32).toInt
  | hex => i.toNat ≠ 0 ∧ (Nat.digits 10 i.toNat).length = (Nat.digits 16 i.toNat).length
  | _ => True

end Directive

/-- The parts of a format. -/
inductive Item where
  | literal (c : Byte)
  | directive (directive : Directive)
  | unknown
  | dangling
  deriving DecidableEq, Repr

/-- The directive a text begins with. -/
def directiveOf (text : List Byte) : Option Directive :=
  Directive.all.find? fun directive => directive.text.isPrefixOf text

/-- The items of a format whose first characters were read already. -/
def parseFrom : Nat → List Byte → List Item
  | _, [] => []
  | skip + 1, _ :: rest => parseFrom skip rest
  | 0, c :: rest =>
    if c = 0x25 then
      match directiveOf rest with
      | some directive => .directive directive :: parseFrom directive.text.length rest
      | none => if rest = [] then [.dangling] else .unknown :: parseFrom 1 rest
    else .literal c :: parseFrom 0 rest

def parse (format : List Byte) : List Item := parseFrom 0 format

/-- The calls for some items, the first of which has this argument; each percent sign has
one. -/
def itemCalls (directiveCalls : BitVec 64 → List Byte → Directive → List Call) (args : Nat → BitVec 64)
    (strings : Nat → List Byte) : Nat → List Item → List Call
  | _, [] => []
  | k, .literal c :: rest => .putchar (c.signExtend 16) :: itemCalls directiveCalls args strings k rest
  | k, .directive directive :: rest =>
    directiveCalls (args k) (strings k) directive ++ itemCalls directiveCalls args strings (k + 1) rest
  | k, _ :: rest => itemCalls directiveCalls args strings (k + 1) rest

/-- The directives with the numbers of their arguments. -/
def supplied : Nat → List Item → List (Nat × Directive)
  | _, [] => []
  | k, .literal _ :: rest => supplied k rest
  | k, .directive directive :: rest => (k, directive) :: supplied (k + 1) rest
  | k, _ :: rest => supplied (k + 1) rest

/-! ## Reading -/

theorem loop_again {body : σ → Run (Turn σ α)} (asked : body state = .ok (.again next)) :
    loop body (turns + 1) state = loop body turns next := by
  simp only [loop, iterate, asked, settle]

theorem loop_leave {body : σ → Run (Turn σ α)} (left : body state = .ok (.leave result)) :
    loop body (turns + 1) state = .ok result := by
  simp only [loop, iterate, left, settle, Option.getD_some]

theorem loop_stop {body : σ → Run (Turn σ α)} (stopped : body state = .error stop) :
    loop body (turns + 1) state = .error stop := by
  simp only [loop, iterate, stopped, settle, Option.getD_some]

theorem readAt_here (here : format.drop t = c :: rest) : readAt format t = .ok c := by
  have found : format[t]? = some c := by
    rw [← List.head?_drop, here, List.head?_cons]
  rw [readAt, found]

theorem drop_next {format : List Byte} (here : format.drop t = c :: rest) : format.drop (t + 1) = rest := by
  rw [← List.tail_drop, here, List.tail_cons]

/-- A comparison with the rest of the format ends at its terminator. -/
theorem strncmp_eq {rest : List Byte} (here : format.drop t = rest ++ [0]) (terminated : 0 ∉ rest) (solid : 0 ∉ text) :
    ∃ order, strncmp format t text = .ok order ∧ (order = 0 ↔ text <+: rest) := by
  induction text generalizing t rest with
  | nil => exact ⟨0, rfl, iff_of_true rfl (List.nil_prefix)⟩
  | cons c2 text ih =>
    have letter : c2 ≠ 0 := (List.ne_of_not_mem_cons solid).symm
    cases rest with
    | nil =>
      refine ⟨(0 : Byte).toNat - c2.toNat, ?_, ?_⟩
      · simp only [strncmp, readAt_here here]
        rfl
      · refine iff_of_false (fun zero => letter (eq_of_toNat_eq ?_)) (by simp)
        omega
    | cons c1 rest =>
      have first : c1 ≠ 0 := (List.ne_of_not_mem_cons terminated).symm
      by_cases same : c1 = c2
      · subst same
        obtain ⟨order, compared, equal⟩ := ih (drop_next here) (List.not_mem_of_not_mem_cons terminated)
          (List.not_mem_of_not_mem_cons solid)
        refine ⟨order, ?_, by rw [equal, List.prefix_cons_inj]⟩
        rw [strncmp, readAt_here here]
        exact (if_neg fun either => either.elim first (· rfl)).trans compared
      · refine ⟨c1.toNat - c2.toNat, ?_, ?_⟩
        · rw [strncmp, readAt_here here]
          exact if_pos (.inr same)
        · refine iff_of_false (fun zero => same (eq_of_toNat_eq ?_)) (by simp [List.cons_prefix_cons, Ne.symm same])
          omega

theorem byteLoop_stored {mem : Memory} {scan : StringCompare.Scan} (equal : scan.c1 = scan.c2)
    (stored : ∀ i byte, format[t + i]? = some byte → mem (scan.s1 + BitVec.ofNat 64 i) = byte)
    (letters : ∀ i byte, text[i]? = some byte → mem (scan.s2 + BitVec.ofNat 64 i) = byte)
    (compared : strncmp format t text = .ok order) :
    (StringCompare.outcome (StringCompare.byteLoop mem text.length scan)).1 = order := by
  induction text generalizing t scan with
  | nil =>
    cases compared
    simp [StringCompare.byteLoop, StringCompare.outcome, StringCompare.Scan.difference, pure, Except.pure, equal]
  | cons c2 rest ih =>
    rw [strncmp, readAt] at compared
    cases found : format[t]? with
    | none => simp [found, bind, Except.bind] at compared
    | some c1 =>
      have first : mem scan.s1 = c1 := by simpa using stored 0 c1 found
      have second : mem scan.s2 = c2 := by simpa using letters 0 c2 rfl
      rw [List.length_cons, StringCompare.byteLoop, StringCompare.compareNext, first, second]
      rw [found] at compared
      by_cases stops : c1 = 0 ∨ c1 ≠ c2
      · rw [if_pos stops]
        cases (if_pos stops).symm.trans compared
        rfl
      · rw [if_neg stops]
        have same : c1 = c2 := not_ne_iff.mp (not_or.mp stops).2
        refine ih same (fun i byte listed => ?_) (fun i byte listed => ?_) ((if_neg stops).symm.trans compared)
        · rw [BitVec.add_assoc, BitVec.add_comm 1, show (1 : BitVec 64) = BitVec.ofNat 64 1 from rfl, ← BitVec.ofNat_add]
          exact stored (i + 1) byte (by rwa [Nat.add_right_comm] at listed)
        · rw [BitVec.add_assoc, BitVec.add_comm 1, show (1 : BitVec 64) = BitVec.ofNat 64 1 from rfl, ← BitVec.ofNat_add]
          exact letters (i + 1) byte listed

/-- On strings that stand in memory it is the comparison of `utils/strings.cpp`. -/
theorem strncmp_stored {mem : Memory} {s1 s2 : Addr} (short : text.length < 2 ^ 64)
    (stored : ∀ i byte, format[t + i]? = some byte → mem (s1 + BitVec.ofNat 64 i) = byte)
    (letters : ∀ i byte, text[i]? = some byte → mem (s2 + BitVec.ofNat 64 i) = byte)
    (compared : strncmp format t text = .ok order) :
    (StringCompare.strncmp mem s1 s2 (BitVec.ofNat 64 text.length)).1 = order := by
  rw [StringCompare.strncmp_eq, toNat_ofNat, Nat.mod_eq_of_lt short]
  exact byteLoop_stored rfl stored letters compared

/-! ## Printing -/

theorem iterate_print {text : Nat → Byte} (spelled : Spells text letters) (front : List Byte)
    (split : front ++ back = letters) (enough : back.length < turns) :
    iterate (printTurn text) turns (front.length, front) = some letters := by
  induction back generalizing front turns with
  | nil =>
    rw [List.append_nil] at split
    subst split
    exact iterate_leave (if_neg (not_not.mpr spelled.ended)) enough
  | cons c back ih =>
    obtain ⟨turns, rfl⟩ : ∃ before, turns = before + 1 := ⟨turns - 1, by simp at enough; omega⟩
    have letter : text front.length = c := spelled.held _ _ (by rw [← split]; simp)
    have some : c ≠ 0 := fun zero => spelled.solid (by rw [← split, zero]; simp)
    have asked : printTurn text (front.length, front) = .again (front.length + 1, front ++ [c]) := by
      rw [printTurn, letter, if_pos some]
    rw [iterate_again asked]
    have next := ih (front ++ [c]) (by simpa using split) (by simpa using enough)
    rwa [List.length_append, List.length_singleton] at next

/-- A text that ends within the memory is printed. -/
theorem print_eq (scan : Scan) {text : Nat → Byte} (spelled : Spells text letters) (short : letters.length < maxTurns) :
    scan.print text = .ok (scan.call (.print letters)) := by
  have printed : iterate (printTurn text) maxTurns (0, []) = some letters := iterate_print spelled [] rfl short
  rw [Scan.print, printed]
  rfl

theorem printNumber_eq (scan : Scan) {out : Buffer} (spelled : Spells (fun i => out i) letters)
    (short : letters.length < maxTurns) :
    scan.printNumber (some out) = .ok { scan.call (.print letters) with toStringOut := out } :=
  print_eq { scan with toStringOut := out } spelled short

theorem printString_eq (scan : Scan) (string : StringAt mem name letters) :
    scan.print (fun k => mem (name + BitVec.ofNat 64 k)) = .ok (scan.call (.print letters)) := by
  have spelled : Spells (fun k => mem (name + BitVec.ofNat 64 k)) letters :=
    ⟨string.byte, string.ended, fun zero => string.nonzero 0 zero rfl⟩
  exact print_eq scan spelled string.length_lt

/-! ## Directives -/

namespace Directive

/-- What the formatter does for a directive. -/
def written (i : BitVec 64) (letters : List Byte) : Directive → List Call
  | decimal => [.print (decimalText ((i.setWidth 32).signExtend 64).toNat)]
  | hex => [.print ((lastDigits 16 (Nat.digits 10 i.toNat).length i.toNat).map hexDigit)]
  | directive => directive.wanted i letters

theorem written_iff (directive : Directive) (i : BitVec 64) (letters : List Byte) :
    directive.written i letters = directive.wanted i letters ↔ directive.Right i := by
  cases directive with
  | decimal =>
    simp only [written, wanted, Right, List.cons.injEq, Call.print.injEq, and_true]
    exact signed_right_iff _
  | hex =>
    simp only [written, wanted, Right, List.cons.injEq, Call.print.injEq, and_true]
    exact hex_right_iff _
  | _ => exact iff_of_true rfl trivial

theorem written_length (directive : Directive) (i : BitVec 64) (letters : List Byte) :
    (directive.written i letters).length = (directive.wanted i letters).length := by
  cases directive <;> rfl

theorem text_solid (directive : Directive) : 0 ∉ directive.text := by
  cases directive with
  | sized size => cases size <;> decide
  | _ => decide

theorem text_pos (directive : Directive) : 0 < directive.text.length := by
  cases directive with
  | sized size => cases size <;> decide
  | _ => decide

theorem mem_all (directive : Directive) : directive ∈ all := by
  cases directive with
  | sized size => cases size <;> decide
  | _ => decide

end Directive

theorem directiveOf_prefix (found : directiveOf text = some directive) : directive.text <+: text := by
  have held := List.find?_some found
  exact List.isPrefixOf_iff_prefix.mp held

theorem not_prefix_of_none (missing : directiveOf text = none) (directive : Directive) : ¬ directive.text <+: text :=
  fun held => List.find?_eq_none.mp missing directive directive.mem_all (List.isPrefixOf_iff_prefix.mpr held)

theorem sized_none (scan : Scan) (here : format.drop scan.traverse = rest ++ [0]) (terminated : 0 ∉ rest)
    (missing : ∀ size : Size, ¬ size.text <+: rest) (i : BitVec 64) (sizes : List Size) :
    sized format scan i sizes = .ok scan := by
  induction sizes with
  | nil => rfl
  | cons size sizes ih =>
    obtain ⟨order, compared, equal⟩ := strncmp_eq here terminated (Directive.sized size).text_solid
    have differs : order ≠ 0 := fun zero => missing size (equal.mp zero)
    rw [sized, show strncmp format scan.traverse size.text = .ok order from compared]
    exact (if_neg differs).trans ih

theorem Size.text_injective {first second : Size} (one : first.text <+: rest) (other : second.text <+: rest) :
    first = second := by
  obtain ⟨tail, rfl⟩ := one
  cases first <;> cases second <;> simp_all [Size.text]

theorem Size.number_toNat (size : Size) (i : BitVec 64) :
    ((i.setWidth (8 * size.bytes)).setWidth 64).toNat = i.toNat % 2 ^ (8 * size.bytes) ∧
      i.toNat % 2 ^ (8 * size.bytes) < 16 ^ (size.bytes * 2) := by
  rw [toNat_setWidth, toNat_setWidth]
  cases size <;> simp only [Size.bytes] <;> omega

theorem paddedText_length (room : n < 16 ^ places) : (paddedText places n).length = places := by
  rw [paddedText, List.length_map, List.length_reverse, Nat.length_digitsAppend (by decide) _ room]

theorem sized_some (scan : Scan) (here : format.drop scan.traverse = rest ++ [0]) (terminated : 0 ∉ rest)
    (begins : Size.text size <+: rest) (member : size ∈ sizes) (i : BitVec 64) (letters : List Byte) :
    ∃ out, sized format scan i sizes = .ok ⟨scan.traverse + (size.text.length - 1), scan.arg, out,
        scan.calls ++ (Directive.sized size).wanted i letters⟩ := by
  induction sizes with
  | nil => cases member
  | cons first sizes ih =>
    obtain ⟨order, compared, equal⟩ := strncmp_eq here terminated (Directive.sized first).text_solid
    have asked : strncmp format scan.traverse first.text = .ok order := compared
    by_cases matched : first = size
    · subst matched
      obtain ⟨value, room⟩ := first.number_toNat i
      have spelled := toHexSized_spells ((i.setWidth (8 * first.bytes)).setWidth 64) first.bytes (by rwa [value])
        scan.toStringOut
      rw [value] at spelled
      have short : (paddedText (first.bytes * 2) (i.toNat % 2 ^ (8 * first.bytes))).length < maxTurns := by
        rw [paddedText_length room]
        cases first <;> decide
      refine ⟨toHexSized ((i.setWidth (8 * first.bytes)).setWidth 64) first.bytes scan.toStringOut, ?_⟩
      rw [sized, asked]
      exact (if_pos (equal.mpr begins)).trans (printNumber_eq _ spelled short)
    · have differs : order ≠ 0 := fun zero => matched (Size.text_injective (equal.mp zero) begins)
      obtain ⟨out, found⟩ := ih ((List.mem_cons.mp member).resolve_left (Ne.symm matched))
      refine ⟨out, ?_⟩
      rw [sized, asked]
      exact (if_neg differs).trans found

theorem decimalText_short (num : BitVec 64) : (decimalText num.toNat).length < maxTurns := by
  rw [decimalText]
  split
  · decide
  · rw [List.length_map, List.length_reverse]
    exact decimal_short num

theorem printDecimal_eq (scan : Scan) (num : BitVec 64) (array : Buffer) :
    ∃ out, scan.printNumber (NumberText.toString num array) =
      .ok { scan.call (.print (decimalText num.toNat)) with toStringOut := out } := by
  obtain ⟨out, written, spelled⟩ := toString_spells num array
  refine ⟨out, ?_⟩
  rw [written]
  exact printNumber_eq scan spelled (decimalText_short num)

section Format
variable {mem : Memory} {args : Nat → BitVec 64} {format rest : List Byte}

variable (mem args) in
/-- A directive takes one argument, and leaves the position at its last character. -/
theorem formatDirective_some {directive : Directive} (letters : List Byte) (scan : Scan)
    (here : format.drop scan.traverse = rest ++ [0])
    (terminated : 0 ∉ rest) (found : directiveOf rest = some directive)
    (spelled : directive.TakesText → StringAt mem (args scan.arg) letters) :
    ∃ out, formatDirective mem args format scan = .ok ⟨scan.traverse + (directive.text.length - 1), scan.arg + 1, out,
        scan.calls ++ directive.written (args scan.arg) letters⟩ := by
  have begins := directiveOf_prefix found
  obtain ⟨tail, split⟩ := begins
  rw [← split, List.append_assoc] at here
  cases directive with
  | char =>
    refine ⟨scan.toStringOut, ?_⟩
    rw [formatDirective, readAt_here here]
    have cut := setWidth_signExtend (w := 16) (by decide) ((args scan.arg).setWidth 32)
    rw [setWidth_setWidth_of_le _ (by decide)] at cut
    exact congrArg (fun c => Except.ok (({ scan with arg := scan.arg + 1 } : Scan).call (.putchar c))) cut
  | decimal =>
    obtain ⟨out, printed⟩ := printDecimal_eq { scan with arg := scan.arg + 1 }
      (((args scan.arg).setWidth 32).signExtend 64) scan.toStringOut
    refine ⟨out, ?_⟩
    rw [formatDirective, readAt_here here]
    exact printed
  | string =>
    have text := spelled (.inl rfl)
    refine ⟨scan.toStringOut, ?_⟩
    rw [formatDirective, readAt_here here]
    exact printString_eq { scan with arg := scan.arg + 1 } text
  | hex =>
    obtain ⟨out, written, text⟩ := toHex_spells (args scan.arg) scan.toStringOut
    have short : ((lastDigits 16 (Nat.digits 10 (args scan.arg).toNat).length (args scan.arg).toNat).map
        hexDigit).length < maxTurns := by
      rw [List.length_map, lastDigits_length]
      exact decimal_short _
    refine ⟨out, ?_⟩
    rw [formatDirective, readAt_here here]
    refine Eq.trans ?_ (printNumber_eq { scan with arg := scan.arg + 1 } text short)
    rw [← written]
    rfl
  | mem =>
    obtain ⟨out, printed⟩ := printDecimal_eq { scan with arg := scan.arg + 1 } (memorySize (args scan.arg))
      scan.toStringOut
    refine ⟨out, ?_⟩
    rw [formatDirective, readAt_here here]
    change (Scan.printNumber _ _).bind _ = _
    rw [printed]
    simp only [Except.bind, Scan.call, List.append_assoc]
    rfl
  | header =>
    have text := spelled (.inr rfl)
    refine ⟨scan.toStringOut, ?_⟩
    rw [formatDirective, readAt_here here]
    change (Scan.print _ _).bind _ = _
    rw [printString_eq _ text]
    simp only [Except.bind, Scan.call, List.append_assoc]
    rfl
  | sized size =>
    have listed : size ∈ [Size.byte, .word, .dword, .qword] := by cases size <;> decide
    have other : formatDirective mem args format scan =
        sized format { scan with arg := scan.arg + 1 } (args scan.arg) [.byte, .word, .dword, .qword] := by
      cases size <;> (rw [formatDirective, readAt_here here]; rfl)
    rw [other]
    rw [← List.append_assoc] at here
    exact sized_some { scan with arg := scan.arg + 1 } here (split ▸ terminated) (List.prefix_append _ _) listed _ letters

variable (mem args) in
/-- Everything else behind a percent sign takes an argument, and prints nothing. -/
theorem formatDirective_none (scan : Scan) (here : format.drop scan.traverse = rest ++ [0]) (terminated : 0 ∉ rest)
    (missing : directiveOf rest = none) :
    formatDirective mem args format scan = .ok { scan with arg := scan.arg + 1 } := by
  obtain ⟨c, tail, split⟩ : ∃ c tail, rest ++ [0] = c :: tail := by cases rest <;> exact ⟨_, _, rfl⟩
  have other {d : Byte} (directive : Directive) (letter : directive.text = [d]) (some : d ≠ 0) : c ≠ d := by
    rintro rfl
    refine not_prefix_of_none missing directive ?_
    rw [letter]
    cases rest with
    | nil => exact absurd (List.cons.inj split).1.symm some
    | cons first rest => rw [(List.cons.inj split).1, List.cons_prefix_cons]; simp
  have unsized := sized_none { scan with arg := scan.arg + 1 } here terminated
    (fun size => not_prefix_of_none missing (.sized size)) (args scan.arg) [.byte, .word, .dword, .qword]
  rw [formatDirective, readAt_here (here.trans split)]
  refine (if_neg (other .char rfl (by decide))).trans ?_
  refine (if_neg (other .decimal rfl (by decide))).trans ?_
  refine (if_neg (other .string rfl (by decide))).trans ?_
  refine (if_neg (other .hex rfl (by decide))).trans ?_
  refine (if_neg (other .mem rfl (by decide))).trans ?_
  exact (if_neg (other .header rfl (by decide))).trans unsized

/-! ## Items -/

/-- The literal characters a format begins with. -/
def literals (format : List Byte) : List Byte := format.takeWhile (· ≠ 0x25)

/-- The characters are put one after the other. -/
def putchars (letters : List Byte) : List Call := letters.map fun c => .putchar (c.signExtend 16)

theorem loop_literals (here : format.drop t = rest ++ [0]) (terminated : 0 ∉ rest) (enough : rest.length < turns)
    (calls : List Call) : loop (literalTurn format) turns (t, calls) =
      .ok (t + (literals rest).length, calls ++ putchars (literals rest)) := by
  induction rest generalizing t calls turns with
  | nil =>
    obtain ⟨turns, rfl⟩ : ∃ before, turns = before + 1 := ⟨turns - 1, by simp at enough; omega⟩
    have left : literalTurn format (t, calls) = .ok (.leave (t, calls)) := by
      rw [literalTurn, readAt_here here]
      rfl
    rw [loop_leave left]
    simp [literals, putchars]
  | cons c rest ih =>
    obtain ⟨turns, rfl⟩ : ∃ before, turns = before + 1 := ⟨turns - 1, by simp at enough; omega⟩
    have some : c ≠ 0 := (List.ne_of_not_mem_cons terminated).symm
    by_cases percent : c = 0x25
    · subst percent
      have left : literalTurn format (t, calls) = .ok (.leave (t, calls)) := by
        rw [literalTurn, readAt_here here]
        rfl
      rw [loop_leave left]
      simp [literals, putchars]
    · have asked : literalTurn format (t, calls) = .ok (.again (t + 1, calls ++ [.putchar (c.signExtend 16)])) := by
        rw [literalTurn, readAt_here here]
        exact if_pos ⟨percent, some⟩
      have longer : literals (c :: rest) = c :: literals rest := List.takeWhile_cons_of_pos (by simpa using percent)
      have shorter : 0 ∉ rest := List.not_mem_of_not_mem_cons terminated
      rw [loop_again asked, ih (drop_next here) shorter (by simpa using enough),
        longer, List.length_cons, putchars, putchars, List.map_cons, List.append_assoc, Nat.add_assoc, Nat.add_comm 1]
      rfl

theorem parseFrom_skip (skip : Nat) (text : List Byte) : parseFrom skip text = parse (text.drop skip) := by
  induction skip generalizing text with
  | zero => rfl
  | succ skip ih =>
    cases text with
    | nil => rfl
    | cons c rest => rw [parseFrom, ih, List.drop_succ_cons]

theorem parse_directive {directive : Directive} (found : directiveOf text = some directive) :
    parse (0x25 :: text) = .directive directive :: parse (text.drop directive.text.length) := by
  rw [← parseFrom_skip]
  simp only [parse, parseFrom, if_true, found]

theorem parse_unknown (missing : directiveOf text = none) (some : text ≠ []) :
    parse (0x25 :: text) = .unknown :: parse text.tail := by
  rw [← List.drop_one, ← parseFrom_skip]
  simp only [parse, parseFrom, if_true, missing, if_neg some]

theorem parse_dangling : parse [0x25] = [.dangling] := rfl

theorem parse_literals (text : List Byte) :
    parse text = (literals text).map .literal ++ parse (text.dropWhile (· ≠ 0x25)) := by
  induction text with
  | nil => rfl
  | cons c rest ih =>
    by_cases percent : c = 0x25
    · subst percent
      simp [literals]
    · have literal : parse (c :: rest) = .literal c :: parse rest := by
        simp only [parse, parseFrom, if_neg percent]
      rw [literal, literals, List.takeWhile_cons_of_pos (by simpa using percent),
        List.dropWhile_cons_of_pos (by simpa using percent), ih]
      rfl

theorem itemCalls_literals (directiveCalls : BitVec 64 → List Byte → Directive → List Call)
    (strings : Nat → List Byte) (k : Nat) (letters : List Byte) (items : List Item) :
    itemCalls directiveCalls args strings k (letters.map .literal ++ items) =
      putchars letters ++ itemCalls directiveCalls args strings k items := by
  induction letters with
  | nil => rfl
  | cons c rest ih =>
    rw [List.map_cons, List.cons_append, itemCalls, ih, putchars, putchars, List.map_cons, List.cons_append]

theorem supplied_literals (k : Nat) (letters : List Byte) (items : List Item) :
    supplied k (letters.map .literal ++ items) = supplied k items := by
  induction letters with
  | nil => rfl
  | cons c rest ih => rw [List.map_cons, List.cons_append, supplied, ih]

theorem percent_next (text : List Byte) :
    text.dropWhile (· ≠ 0x25) = [] ∨ ∃ tail, text.dropWhile (· ≠ 0x25) = 0x25 :: tail := by
  induction text with
  | nil => exact .inl rfl
  | cons c rest ih =>
    by_cases percent : c = 0x25
    · subst percent
      exact .inr ⟨rest, List.dropWhile_cons_of_neg (by decide)⟩
    · rwa [List.dropWhile_cons_of_pos (by simpa using percent)]

/-- The position behind the literal characters a format begins with. -/
def Scan.behind (scan : Scan) (letters : List Byte) : Scan :=
  { scan with traverse := scan.traverse + letters.length, calls := scan.calls ++ putchars letters }

variable (mem args) in
/-- A turn prints the literal characters up to a percent sign or the end. -/
theorem formatTurn_literals {scan : Scan} (here : format.drop scan.traverse = rest ++ [0]) (terminated : 0 ∉ rest)
    (enough : rest.length < turns) : formatTurn mem args format turns scan =
      (readAt format (scan.behind (literals rest)).traverse).bind fun c =>
        if c = 0 then .ok (.leave (scan.behind (literals rest)).calls) else
          (formatDirective mem args format { scan.behind (literals rest) with
            traverse := (scan.behind (literals rest)).traverse + 1 }).bind fun scan =>
              .ok (.again { scan with traverse := scan.traverse + 1 }) := by
  cases rest with
  | nil =>
    have ended := readAt_here here
    simp only [formatTurn, literals, List.takeWhile_nil, Scan.behind, List.length_nil, Nat.add_zero, ended, putchars,
      List.map_nil, List.append_nil]
    rfl
  | cons c tail =>
    have some : c ≠ 0 := (List.ne_of_not_mem_cons terminated).symm
    rw [formatTurn, readAt_here here, loop_literals here terminated enough]
    exact if_neg some

variable (mem args) in
theorem formatTurn_past {scan : Scan} (gone : format.drop scan.traverse = []) :
    formatTurn mem args format turns scan = .error .past := by
  have nothing : readAt format scan.traverse = .error .past := by
    rw [readAt, List.getElem?_eq_none (List.drop_eq_nil_iff.mp gone)]
  rw [formatTurn, nothing]
  rfl

theorem behind_literals {scan : Scan} (here : format.drop scan.traverse = rest ++ [0]) :
    format.drop (scan.behind (literals rest)).traverse = rest.dropWhile (· ≠ 0x25) ++ [0] := by
  have split : literals rest ++ rest.dropWhile (· ≠ 0x25) = rest := List.takeWhile_append_dropWhile
  rw [Scan.behind, ← List.drop_drop, here]
  nth_rewrite 2 [← split]
  rw [List.append_assoc, List.drop_left]

/-- The loop goes through the items. -/
theorem loop_format (scan : Scan) {strings : Nat → List Byte} (here : format.drop scan.traverse = rest ++ [0])
    (terminated : 0 ∉ rest) (inner : rest.length < turns) (enough : rest.length < fuel)
    (spelled : ∀ k directive, (k, directive) ∈ supplied scan.arg (parse rest) → directive.TakesText →
      StringAt mem (args k) (strings k)) : loop (formatTurn mem args format turns) fuel scan =
      if .dangling ∈ parse rest then .error .past
      else .ok (scan.calls ++ itemCalls Directive.written args strings scan.arg (parse rest)) := by
  -- a turn takes the literal characters and one directive at once, so it is the turns that are counted down
  induction fuel generalizing rest scan with
  | zero => cases enough
  | succ fuel ih =>
    have turn := formatTurn_literals mem args here terminated inner
    have next := behind_literals here
    have tailed : (rest.dropWhile (· ≠ 0x25)) <:+ rest := List.dropWhile_suffix _
    rw [parse_literals rest] at spelled ⊢
    rw [supplied_literals] at spelled
    rw [itemCalls_literals, ← List.append_assoc]
    have literal (items : List Item) : .dangling ∈ (literals rest).map Item.literal ++ items ↔ .dangling ∈ items := by
      simp
    simp only [literal]
    rcases percent_next rest with ended | ⟨tail, percent⟩
    · rw [ended] at next ⊢
      rw [readAt_here next] at turn
      rw [loop_leave turn]
      simp [parse, parseFrom, itemCalls, Scan.behind]
    rw [percent] at next tailed spelled ⊢
    rw [readAt_here next] at turn
    have behind : format.drop ((scan.behind (literals rest)).traverse + 1) = tail ++ [0] := drop_next next
    have shorter : 0 ∉ tail := fun zero => terminated (tailed.subset (List.mem_cons_of_mem _ zero))
    have smaller := tailed.length_le
    rw [List.length_cons] at smaller
    cases found : directiveOf tail with
    | some directive =>
      obtain ⟨more, rfl⟩ := directiveOf_prefix found
      have some := directive.text_pos
      rw [parse_directive found, List.drop_left] at spelled ⊢
      obtain ⟨out, done⟩ := formatDirective_some mem args (strings scan.arg) { scan.behind (literals rest) with
        traverse := (scan.behind (literals rest)).traverse + 1 } behind shorter found
        (spelled scan.arg directive List.mem_cons_self)
      rw [done] at turn
      have reached : format.drop ((scan.behind (literals rest)).traverse + 1 + (directive.text.length - 1) + 1) =
          more ++ [0] := by
        rw [Nat.add_assoc _ _ 1, Nat.sub_add_cancel some, ← List.drop_drop, behind, List.append_assoc, List.drop_left]
      rw [List.length_append] at smaller
      rw [loop_again turn, ih _ reached (fun zero => shorter (List.mem_append_right _ zero)) (by omega) (by omega)
        fun k later listed => spelled k later (List.mem_cons_of_mem _ listed)]
      simp [itemCalls, Scan.behind]
    | none =>
      have done := formatDirective_none mem args { scan.behind (literals rest) with
        traverse := (scan.behind (literals rest)).traverse + 1 } behind shorter found
      rw [done] at turn
      cases tail with
      | nil =>
        -- the terminator was the directive, and the next turn begins behind it
        obtain ⟨fuel, rfl⟩ : ∃ before, fuel = before + 1 := ⟨fuel - 1, by omega⟩
        rw [loop_again turn, loop_stop (formatTurn_past mem args (drop_next behind)), parse_dangling]
        rfl
      | cons c tail =>
        rw [List.length_cons] at smaller
        rw [parse_unknown found (List.cons_ne_nil c tail), List.tail_cons] at spelled ⊢
        rw [loop_again turn, ih _ (drop_next behind) (List.not_mem_of_not_mem_cons shorter) (by omega)
          (by omega) spelled]
        simp [itemCalls, Scan.behind]

end Format

/-- The calls are the wanted ones exactly if those of each directive are. -/
theorem itemCalls_iff (args : Nat → BitVec 64) (strings : Nat → List Byte) (k : Nat) (items : List Item) :
    itemCalls Directive.written args strings k items = itemCalls Directive.wanted args strings k items ↔
      ∀ j directive, (j, directive) ∈ supplied k items → directive.Right (args j) := by
  induction items generalizing k with
  | nil => exact iff_of_true rfl fun j directive listed => absurd listed List.not_mem_nil
  | cons item items ih =>
    cases item with
    | literal c => rw [itemCalls, itemCalls, supplied, List.cons_inj_right, ih]
    | directive directive =>
      have lengths := directive.written_length (args k) (strings k)
      simp only [itemCalls, supplied, List.mem_cons, Prod.mk.injEq]
      constructor
      · intro same
        obtain ⟨first, later⟩ := List.append_inj same lengths
        rintro j other (⟨rfl, rfl⟩ | listed)
        · exact (Directive.written_iff _ _ _).mp first
        · exact (ih (k + 1)).mp later j other listed
      · intro right
        rw [(directive.written_iff _ _).mpr (right k directive (.inl ⟨rfl, rfl⟩)),
          (ih (k + 1)).mpr fun j other listed => right j other (.inr listed)]
    | unknown => rw [itemCalls, itemCalls, supplied, ih] <;> simp
    | dangling => rw [itemCalls, itemCalls, supplied, ih] <;> simp

/-- What the formatter does. -/
theorem printf_eq (mem : Memory) (args : Nat → BitVec 64) (strings : Nat → List Byte) {format : List Byte}
    (toStringOut : Buffer) (terminated : 0 ∉ format) (enough : format.length < turns)
    (spelled : ∀ k directive, (k, directive) ∈ supplied 0 (parse format) → directive.TakesText →
      StringAt mem (args k) (strings k)) : printf mem args (format ++ [0]) turns toStringOut =
      if .dangling ∈ parse format then .error .past
      else .ok (itemCalls Directive.written args strings 0 (parse format)) :=
  loop_format ⟨0, 0, toStringOut, []⟩ rfl terminated enough enough spelled

/-- The formatter does what the format asks for, reading no byte behind its terminator,
exactly if no percent sign ends it and the arguments of `%d` and `%x` are printed right. -/
theorem printf_right_iff (mem : Memory) (args : Nat → BitVec 64) (strings : Nat → List Byte) (format : List Byte)
    (turns : Nat) (toStringOut : Buffer) (terminated : 0 ∉ format) (enough : format.length < turns)
    (spelled : ∀ k directive, (k, directive) ∈ supplied 0 (parse format) → directive.TakesText →
      StringAt mem (args k) (strings k)) : printf mem args (format ++ [0]) turns toStringOut =
        .ok (itemCalls Directive.wanted args strings 0 (parse format)) ↔ .dangling ∉ parse format ∧
        ∀ k directive, (k, directive) ∈ supplied 0 (parse format) → directive.Right (args k) := by
  rw [printf_eq mem args strings toStringOut terminated enough spelled, ← itemCalls_iff args strings]
  by_cases dangling : .dangling ∈ parse format
  · simp [dangling]
  · simp [dangling]

/-- The format `a%d` with 42. -/
theorem printf_right_iff_decimal : printf (fun _ => 0) (fun _ => 42) ([0x61, 0x25, 0x64] ++ [0]) 4 (fun _ => 0) =
      .ok [.putchar 0x61, .print (signedText 42)] := by
  refine (printf_right_iff (fun _ => 0) (fun _ => 42) (fun _ => []) [0x61, 0x25, 0x64] 4 (fun _ => 0) (by decide)
    (by decide) ?_).mpr ⟨by decide, ?_⟩
  · intro k directive listed takes
    cases List.mem_singleton.mp listed
    exact absurd takes (by decide)
  · intro k directive listed
    cases List.mem_singleton.mp listed
    exact (by decide : (0 : Int) ≤ ((42 : BitVec 64).setWidth 32).toInt)

/-- A format that is a single directive for a number. -/
theorem printf_number (args : Nat → BitVec 64) {format : List Byte} {directive : Directive}
    (single : parse format = [.directive directive]) (number : ¬ directive.TakesText) (terminated : 0 ∉ format)
    (enough : format.length < turns) (mem : Memory) (toStringOut : Buffer) :
    printf mem args (format ++ [0]) turns toStringOut = .ok (directive.written (args 0) []) := by
  rw [printf_eq mem args (fun _ => []) toStringOut terminated enough]
  · rw [single, if_neg (by simp), itemCalls, itemCalls, List.append_nil]
  · intro k other listed takes
    rw [single] at listed
    cases List.mem_singleton.mp listed
    exact absurd takes number

/-- The number -1 is printed as an unsigned one, 0 has no hexadecimal digits, and a percent
sign at the end leads behind the terminator. -/
theorem formats_misread :
    printf (fun _ => 0) (fun _ => 0xFFFFFFFF) ([0x25, 0x64] ++ [0]) 3 (fun _ => 0) ≠ .ok [.print [0x2D, 0x31]] ∧
    printf (fun _ => 0) (fun _ => 0) ([0x25, 0x78] ++ [0]) 3 (fun _ => 0) ≠ .ok [.print [0x30]] ∧
    printf (fun _ => 0) (fun _ => 0) ([0x25] ++ [0]) 2 (fun _ => 0) = .error .past := by
  refine ⟨fun same => ?_, fun same => ?_, rfl⟩
  · rw [printf_number _ rfl (by decide) (by decide) (by decide)] at same
    have text := Call.print.inj (List.cons.inj (Except.ok.inj same)).1
    have sign : 0x2D ∈ [(0x2D : Byte), 0x31] := List.mem_cons_self
    rw [← text] at sign
    exact (decimalText_digits _ sign).2 rfl
  · rw [printf_number _ rfl (by decide) (by decide) (by decide)] at same
    have text := Call.print.inj (List.cons.inj (Except.ok.inj same)).1
    have digits : (Nat.digits 10 (0 : BitVec 64).toNat).length = 0 := by simp
    rw [digits] at text
    cases text

/-! ## On the console -/

namespace Call
open Renderer RendererBounds

/-- The characters a call gives to `putchar`. -/
def emitted : Call → List (BitVec 16)
  | putchar c => [c]
  | print text => text.map fun c => c.signExtend 16
  | setColor _ _ => []

def perform (fb : Framebuffer) (font : Font) (screen : Screen) : Call → Screen
  | setColor fg bg => { screen with fg := fg, bg := bg }
  | call => call.emitted.foldl (Renderer.putchar fb font) screen

/-- A message whose characters fit on the screen is drawn inside of the framebuffer,
whatever its colors. -/
theorem perform_inside {fb : Framebuffer} {font : Font} {calls : List Call} (suits : Suits fb font)
    (tracks : Tracks screen place) (drawable : Drawable fb font place) (inside : Inside fb screen)
    (fits : Fits (grid fb font) place (calls.flatMap emitted)) :
    Inside fb (calls.foldl (perform fb font) screen) := by
  induction calls generalizing screen place with
  | nil => exact inside
  | cons call rest ih =>
    rw [List.flatMap_cons, fits_append] at fits
    obtain ⟨reached, free, within⟩ := text_fits suits tracks drawable inside fits.1
    cases call with
    | setColor fg bg => exact ih (tracks.of_cursor rfl) free inside fits.2
    | putchar c => exact ih reached free within fits.2
    | print text => exact ih reached free within fits.2

end Call

/-- A message that fits on the screen, from its format to its pixels. -/
theorem message_inside {fb : Renderer.Framebuffer} {font : Renderer.Font}
    (suits : RendererBounds.Suits fb font) (console : Memory) (toStringOut : Buffer)
    (terminated : 0 ∉ format) (enough : format.length < turns) (ended : .dangling ∉ parse format)
    (spelled : ∀ k directive, (k, directive) ∈ supplied 0 (parse format) → directive.TakesText →
      StringAt mem (args k) (strings k)) (fits : RendererBounds.Fits (RendererBounds.grid fb font) ⟨0, 0⟩
      ((itemCalls Directive.written args strings 0 (parse format)).flatMap Call.emitted)) :
    ∃ calls, printf mem args (format ++ [0]) turns toStringOut = .ok calls ∧ RendererBounds.Inside fb
      (calls.foldl (Call.perform fb font) (RendererBounds.initializeRenderer console)) := by
  refine ⟨itemCalls Directive.written args strings 0 (parse format), ?_, ?_⟩
  · rw [printf_eq mem args strings toStringOut terminated enough spelled, if_neg ended]
  · exact Call.perform_inside suits (RendererBounds.initialize_tracks console)
      (RendererBounds.initialize_drawable suits) (RendererBounds.initialize_inside fb console) fits

/-- A letter, and a header of one letter in its colors. -/
theorem message_inside_header : ∃ calls,
    printf (Function.update (fun _ => 0) 0x1000 0x42) (fun _ => 0x1000) ([0x41, 0x25, 0x21] ++ [0]) 4 (fun _ => 0) =
      .ok calls ∧
    RendererBounds.Inside Renderer.smallScreen (calls.foldl (Call.perform Renderer.smallScreen Renderer.font8x16)
      (RendererBounds.initializeRenderer fun _ => 0)) := by
  have fits : RendererBounds.Fits (RendererBounds.grid Renderer.smallScreen Renderer.font8x16) ⟨0, 0⟩
      ((itemCalls Directive.written (fun _ => 0x1000) (fun _ => [0x42]) 0 (parse [0x41, 0x25, 0x21])).flatMap
        Call.emitted) := ⟨⟨by decide, by decide, by decide⟩, ⟨by decide, by decide, by decide⟩, trivial⟩
  have spelled : StringAt (Function.update (fun _ => 0) 0x1000 0x42) 0x1000 [0x42] :=
    stringAt_of_get (by decide) (by decide) (by decide)
  exact message_inside RendererBounds.smallScreen_suits (fun _ => 0) (fun _ => 0) (by decide) (by decide) (by decide)
    (fun _ _ _ _ => spelled) fits

end LunaOS.Formatter
