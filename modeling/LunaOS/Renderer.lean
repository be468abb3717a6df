import LunaOS.ByteMemory
import Mathlib.Logic.Function.Iterate

/-! The text console (`graphics/Renderer.cpp`). A character is drawn at the cursor and the
cursor advances; a full line or a newline moves it to the next line, and at the bottom the
picture is scrolled. The two ways to the next line have each their own copy of that, and
the one of a full line takes the cursor back twice. -/
namespace LunaOS.Renderer
open ByteMemory

/-- `stivale2_struct_tag_framebuffer` -/
structure Framebuffer where
  addr : Addr
  width : BitVec 16
  height : BitVec 16
  bpp : BitVec 16

/-- `PSF_Font`: the fields of its header, its table of unicode characters if it has one, and
the memory of its glyphs, which is never written. -/
structure Font where
  header : Addr
  headersize : BitVec 32
  length : BitVec 32
  charsize : BitVec 32
  height : BitVec 32
  width : BitVec 32
  unicode : Option (BitVec 16 → BitVec 16)
  bitmap : Memory

/-- Bytes that are read or written. -/
structure Access where
  address : Addr
  count : Nat
  deriving DecidableEq, Repr

/-- The cursor, the colors and the memory, with the accesses to the framebuffer so far,
newest first. -/
structure Screen where
  X : BitVec 32
  Y : BitVec 32
  fg : BitVec 32
  bg : BitVec 32
  mem : Memory
  accesses : List Access

def memcpy (mem : Memory) (dest src : Addr) (n : Nat) : Memory :=
  (List.range n).foldl (fun mem i =>
    store8 mem (dest + BitVec.ofNat 64 i) (mem (src + BitVec.ofNat 64 i))) mem

section Console
variable (fb : Framebuffer) (font : Font)

/-- `WIDTH`, as the `int` it is promoted to -/
def width : BitVec 32 := fb.width.setWidth 32

/-- `HEIGHT`, as the `int` it is promoted to -/
def height : BitVec 32 := fb.height.setWidth 32

/-- `WIDTH * BPP`, in which the whole product is divided by 8 -/
def lineSize : BitVec 32 := (width fb * fb.bpp.setWidth 32).sdiv 8

/-- `ADDR + WIDTH * BPP * LINE_HEIGHT`; the height of the font makes the product unsigned. -/
def secondLine : Addr := fb.addr + (lineSize fb * font.height).setWidth 64

/-- `WIDTH * BPP * HEIGHT`, an `int` that becomes a `size_t` -/
def scrollSize : BitVec 64 := (lineSize fb * height fb).signExtend 64

def scrollUp (screen : Screen) : Screen :=
  { screen with
    mem := memcpy screen.mem fb.addr (secondLine fb font) (scrollSize fb).toNat
    accesses := ⟨secondLine fb font, (scrollSize fb).toNat⟩ ::
      ⟨fb.addr, (scrollSize fb).toNat⟩ :: screen.accesses
    Y := screen.Y - font.height }

/-- The glyph of a character, or the first one for a character without a glyph. -/
def glyphAddr (c : BitVec 16) : Addr :=
  let c := match font.unicode with
    | some unicode => unicode c
    | none => c
  let index := if 0 < c ∧ c.setWidth 32 < font.length then c.setWidth 32 else 0
  font.header + font.headersize.setWidth 64 + (index * font.charsize).setWidth 64

/-- A pixel of a row, from the bit of the mask. -/
def drawPixel (actualGlyph : BitVec 16) : Screen × BitVec 16 × BitVec 32 → Screen × BitVec 16 × BitVec 32
  | (screen, mask, currentOffset) =>
    let address := fb.addr + currentOffset.setWidth 64
    let color := if actualGlyph &&& mask ≠ 0 then screen.fg else screen.bg
    ({ screen with
        mem := write screen.mem address 4 fun i => color.extractLsb' (8 * i) 8
        accesses := ⟨address, 4⟩ :: screen.accesses },
      mask >>> 1, currentOffset + 4)

/-- A row of a glyph, whose two bytes are swapped. -/
def drawRow : Screen × Addr × BitVec 32 → Screen × Addr × BitVec 32
  | (screen, glyph, initialOffset) =>
    let bits := font.bitmap (glyph + 1) ++ font.bitmap glyph
    let actualGlyph := bits <<< 8 ||| bits >>> 8
    (((drawPixel fb actualGlyph)^[font.width.toNat] (screen, 0x8000, initialOffset)).1,
      glyph + (font.charsize / font.height).setWidth 64, initialOffset + width fb * 4)

/-- `_insert_char`; the offset of the first pixel is computed as a `size_t` and cut to 32
bits. -/
def insertChar (screen : Screen) (c : BitVec 16) (cx cy : BitVec 32) : Screen :=
  let initialOffset := ((cy * width fb + cx).signExtend 64 * 4).setWidth 32
  ((drawRow fb font)^[font.height.toNat] (screen, glyphAddr font c, initialOffset)).1

/-- `_advanceCursor`. The column is compared as an `int`, the line as an unsigned number. -/
def advanceCursor (screen : Screen) : Screen :=
  let screen := { screen with X := screen.X + font.width }
  if (width fb).sle screen.X then
    let screen := { screen with X := 0, Y := screen.Y + font.height }
    if height fb ≤ screen.Y + font.height then
      let screen := scrollUp fb font screen
      { screen with Y := screen.Y - font.height }
    else screen
  else screen

def backspace (screen : Screen) : Screen :=
  let screen := { screen with X := screen.X - font.width }
  insertChar fb font screen 0x20 screen.X screen.Y

/-- The case of `putchar` for a newline. -/
def newline (screen : Screen) : Screen :=
  let screen := { screen with Y := screen.Y + font.height, X := 0 }
  if height fb ≤ screen.Y + font.height then scrollUp fb font screen else screen

/-- `TABSIZE` -/
def tabsize : Nat := 4

def putchar (screen : Screen) (c : BitVec 16) : Screen :=
  if c = 0x0A then newline fb font screen
  else if c = 0x08 then backspace fb font screen
  else if c = 0x09 then (advanceCursor fb font)^[tabsize] screen
  else advanceCursor fb font (insertChar fb font screen c screen.X screen.Y)

end Console

/-- A character that is drawn. -/
structure Printable (c : BitVec 16) : Prop where
  newline : c ≠ 0x0A
  backspace : c ≠ 0x08
  tab : c ≠ 0x09

theorem printable_or (c : BitVec 16) : c = 0x0A ∨ c = 0x08 ∨ c = 0x09 ∨ Printable c := by
  by_cases newline : c = 0x0A
  · exact .inl newline
  by_cases backspace : c = 0x08
  · exact .inr (.inl backspace)
  by_cases tab : c = 0x09
  · exact .inr (.inr (.inl tab))
  · exact .inr (.inr (.inr ⟨newline, backspace, tab⟩))

section Drawing
variable (fb : Framebuffer) (font : Font)

@[simp] theorem putchar_newline (screen : Screen) : putchar fb font screen 0x0A = newline fb font screen := rfl

theorem putchar_printable (printable : Printable c) (screen : Screen) : putchar fb font screen c =
    advanceCursor fb font (insertChar fb font screen c screen.X screen.Y) := by
  rw [putchar, if_neg printable.newline, if_neg printable.backspace, if_neg printable.tab]

/-- The parts of the screen that drawing leaves alone. -/
def Screen.cursor (screen : Screen) : BitVec 32 × BitVec 32 := (screen.X, screen.Y)

theorem insertChar_cursor (screen : Screen) (c : BitVec 16) (cx cy : BitVec 32) :
    (insertChar fb font screen c cx cy).cursor = screen.cursor := by
  have pixel (actualGlyph : BitVec 16) : Function.Semiconj (fun state : Screen × BitVec 16 × BitVec 32 =>
      state.1.cursor) (drawPixel fb actualGlyph) id := fun _ => rfl
  have row : Function.Semiconj (fun state : Screen × Addr × BitVec 32 => state.1.cursor)
      (drawRow fb font) id := by
    rintro ⟨screen, glyph, initialOffset⟩
    exact ((pixel _).iterate_right font.width.toNat _).trans (congrFun (Function.iterate_id _) _)
  exact (row.iterate_right font.height.toNat _).trans (congrFun (Function.iterate_id _) _)

/-! ## The next line -/

/-- The next line would not be above the bottom. -/
def Scrolls (screen : Screen) : Prop := height fb ≤ screen.Y + font.height + font.height

instance (screen : Screen) : Decidable (Scrolls fb font screen) := inferInstanceAs (Decidable (_ ≤ _))

theorem newline_scrolls (scrolls : Scrolls fb font screen) : newline fb font screen =
    scrollUp fb font { screen with Y := screen.Y + font.height, X := 0 } := if_pos scrolls

theorem newline_stays (stays : ¬ Scrolls fb font screen) :
    newline fb font screen = { screen with Y := screen.Y + font.height, X := 0 } := if_neg stays

/-- A full line goes on like a newline, but takes the cursor back once more. -/
theorem advanceCursor_wraps (completes : (width fb).sle (screen.X + font.width) = true) :
    advanceCursor fb font screen = if Scrolls fb font screen then
        { newline fb font screen with Y := (newline fb font screen).Y - font.height }
      else newline fb font screen := by
  by_cases scrolls : Scrolls fb font screen
  · rw [newline_scrolls fb font scrolls, if_pos scrolls, advanceCursor, if_pos completes]
    exact if_pos scrolls
  · rw [newline_stays fb font scrolls, if_neg scrolls, advanceCursor, if_pos completes]
    exact if_neg scrolls

/-- The picture is that of a newline, but the cursor is so only without scrolling. -/
theorem wrap_like_newline_iff (fb : Framebuffer) (font : Font) (screen : Screen) (c : BitVec 16)
    (printable : Printable c) (completes : (width fb).sle (screen.X + font.width) = true) :
    let wrapped := putchar fb font screen c
    let explicit := putchar fb font (insertChar fb font screen c screen.X screen.Y) 0x0A
    wrapped.mem = explicit.mem ∧ (wrapped.cursor = explicit.cursor ↔ ¬ Scrolls fb font screen ∨ font.height = 0) := by
  intro wrapped explicit
  have cursor := insertChar_cursor fb font screen c screen.X screen.Y
  obtain ⟨column, line⟩ := Prod.mk.inj cursor
  have reached : wrapped = if Scrolls fb font screen then
      { explicit with Y := explicit.Y - font.height } else explicit := by
    have same : Scrolls fb font (insertChar fb font screen c screen.X screen.Y) ↔ Scrolls fb font screen := by
      rw [Scrolls, Scrolls, line]
    rw [← column] at completes
    simp only [wrapped, explicit, putchar_printable fb font printable,
      advanceCursor_wraps fb font completes, putchar_newline, same]
  rw [reached]
  by_cases scrolls : Scrolls fb font screen
  · rw [if_pos scrolls]
    refine ⟨rfl, ?_⟩
    simp only [Screen.cursor, Prod.mk.injEq, true_and, scrolls, not_true_eq_false, false_or]
    constructor
    · intro same
      bv_omega
    · intro flat
      rw [flat]
      exact BitVec.sub_zero _
  · rw [if_neg scrolls]
    exact ⟨rfl, iff_of_true rfl (.inl scrolls)⟩

end Drawing

/-- Three lines of two characters. -/
def smallScreen : Framebuffer := ⟨0xE0000000, 16, 48, 32⟩

def font8x16 : Font := ⟨0x1000, 32, 256, 16, 16, 8, none, fun _ => 0⟩

def screenAt (X Y : BitVec 32) : Screen := ⟨X, Y, 0xFFFFFF, 0x000000, fun _ => 0, []⟩

theorem printable_a : Printable 0x61 := ⟨by decide, by decide, by decide⟩

theorem wrap_like_newline_iff_second : (putchar smallScreen font8x16 (screenAt 8 0) 0x61).cursor =
      (putchar smallScreen font8x16 (insertChar smallScreen font8x16 (screenAt 8 0) 0x61 8 0) 0x0A).cursor := by
  refine (wrap_like_newline_iff smallScreen font8x16 (screenAt 8 0) 0x61 printable_a (by decide)).2.mpr (.inl ?_)
  decide

/-- At the end of the second line the cursor goes to the first line, and not to the second. -/
theorem wrap_scrolls_twice : ∃ fb font screen c, Printable c ∧ (width fb).sle (screen.X + font.width) = true ∧
      (putchar fb font screen c).cursor ≠
        (putchar fb font (insertChar fb font screen c screen.X screen.Y) 0x0A).cursor := by
  refine ⟨smallScreen, font8x16, screenAt 8 16, 0x61, printable_a, by decide, ?_⟩
  decide

end LunaOS.Renderer
