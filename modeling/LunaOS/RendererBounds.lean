import LunaOS.CountedLoop
import LunaOS.Renderer
import Mathlib.Data.Int.Basic
import Mathlib.Tactic.Linarith
import Mathlib.Tactic.Ring

/-! Where the console draws. A text is laid out on an endless sheet, and the part of it
that is on the screen is drawn where the sheet says. The console leaves the framebuffer
as soon as the sheet leaves the screen: scrolling reads behind the last line, and a
backspace before the first character wraps around. -/
namespace LunaOS.RendererBounds
open Function ByteMemory CountedLoop Renderer
open BitVec hiding and_assoc or_comm

/-! ## The sheet -/

/-- The size of the screen and of a character. -/
structure Grid where
  width : Int
  height : Int
  charWidth : Int
  charHeight : Int

structure Place where
  x : Int
  y : Int

namespace Place
variable (grid : Grid)

def advance (place : Place) : Place :=
  if place.x + grid.charWidth < grid.width then ⟨place.x + grid.charWidth, place.y⟩
  else ⟨0, place.y + grid.charHeight⟩

/-- The place behind a character. -/
def next (place : Place) (c : BitVec 16) : Place :=
  if c = 0x0A then ⟨0, place.y + grid.charHeight⟩
  else if c = 0x08 then ⟨place.x - grid.charWidth, place.y⟩
  else if c = 0x09 then (advance grid)^[tabsize] place
  else place.advance grid

@[simp] theorem next_newline (place : Place) : place.next grid 0x0A = ⟨0, place.y + grid.charHeight⟩ := rfl

theorem next_printable (printable : Printable c) (place : Place) : place.next grid c = place.advance grid := by
  rw [next, if_neg printable.newline, if_neg printable.backspace, if_neg printable.tab]

/-- The number of the pixel at the place, row after row. -/
def pixel (place : Place) : Int := place.y * grid.width + place.x

/-- The line ends above the last row, no pixel is missing before the place, and the column
is an `int`. -/
structure OnScreen (place : Place) : Prop where
  above : place.y + grid.charHeight < grid.height
  behind : 0 ≤ place.pixel grid
  column : -2 ^ 31 ≤ place.x

end Place

/-- All of the text is laid out on the screen. -/
def Fits (grid : Grid) (place : Place) : List (BitVec 16) → Prop
  | [] => True
  | c :: rest => (place.next grid c).OnScreen grid ∧ Fits grid (place.next grid c) rest

/-- The place behind a text. -/
def Place.after (grid : Grid) (place : Place) (text : List (BitVec 16)) : Place := text.foldl (Place.next grid) place

theorem fits_append (grid : Grid) (place : Place) (front back : List (BitVec 16)) :
    Fits grid place (front ++ back) ↔ Fits grid place front ∧ Fits grid (place.after grid front) back := by
  induction front generalizing place with
  | nil => simp [Fits, Place.after]
  | cons c rest ih =>
    rw [List.cons_append, Fits, Fits, ih, and_assoc]
    rfl

/-! ## The console -/

section Console
variable (fb : Framebuffer) (font : Font)

def grid : Grid := ⟨fb.width.toNat, fb.height.toNat, font.width.toNat, font.height.toNat⟩

/-- The bytes of the framebuffer. -/
def frameSize : Nat := fb.width.toNat * fb.height.toNat * 4

def Inside (screen : Screen) : Prop :=
  ∀ access ∈ screen.accesses, (access.address - fb.addr).toNat + access.count ≤ frameSize fb

/-- The renderer before the first character. -/
def initializeRenderer (mem : Memory) : Screen := ⟨0, 0, 0xFFFFFF, 0x000000, mem, []⟩

/-- The fonts and framebuffers that are considered. -/
structure Suits : Prop where
  bpp : fb.bpp = 32
  wide : font.width.toNat ≤ fb.width.toNat
  high : 2 * font.height.toNat ≤ fb.height.toNat
  narrow : font.width.toNat ≤ 16

/-- The ones of them that exist: a character has pixels, and the size of the framebuffer is
an `int`. -/
structure Ordinary : Prop extends Suits fb font where
  some : 0 < font.width.toNat
  solid : 0 < font.height.toNat
  modest : frameSize fb < 2 ^ 31

/-- The cursor of the screen is at the place. -/
structure Tracks (screen : Screen) (place : Place) : Prop where
  column : screen.X.toInt = place.x
  line : screen.Y.toInt = place.y
  right : place.x < 2 ^ 16
  top : 0 ≤ place.y
  bottom : place.y < 2 ^ 16

/-- A character can be drawn at the place; one without pixels can be everywhere. -/
structure Drawable (place : Place) : Prop where
  above : 0 < font.height.toNat → place.y + font.height.toNat < fb.height.toNat
  behind : 0 ≤ place.pixel (grid fb font)
  left : 0 < font.width.toNat → place.x < fb.width.toNat

end Console

/-! ## Drawing -/

section Drawing
variable {fb : Framebuffer} {font : Font}

/-- The access to a pixel, at an offset of 32 bits. -/
def pixelAccess (fb : Framebuffer) (offset : BitVec 32) : Access :=
  ⟨fb.addr + offset.setWidth 64, 4⟩

theorem drawPixel_offset (actualGlyph : BitVec 16) (n : Nat) (screen : Screen) (mask : BitVec 16)
    (offset : BitVec 32) :
    ((drawPixel fb actualGlyph)^[n] (screen, mask, offset)).2.2 = offset + BitVec.ofNat 32 n * 4 := by
  induction n with
  | zero => simp
  | succ n ih =>
    rw [iterate_succ_apply', drawPixel, ih, ofNat_add]
    bv_omega

theorem drawRow_offset (n : Nat) (screen : Screen) (glyph : Addr) (offset : BitVec 32) :
    ((drawRow fb font)^[n] (screen, glyph, offset)).2.2 = offset + BitVec.ofNat 32 n * (width fb * 4) := by
  have next (row step : BitVec 32) : offset + row * step + step = offset + (row + 1#32) * step := by
    rw [BitVec.add_mul, BitVec.one_mul, ← BitVec.add_assoc]
  induction n with
  | zero => simp
  | succ n ih => rw [iterate_succ_apply', drawRow, ih, next, ofNat_add]

/-- A row is drawn from its first pixel on. -/
theorem drawRow_accesses (state : Screen × Addr × BitVec 32) (access : Access) :
    access ∈ (drawRow fb font state).1.accesses ↔ access ∈ state.1.accesses ∨
      ∃ x < font.width.toNat, access = pixelAccess fb (state.2.2 + BitVec.ofNat 32 x * 4) := by
  obtain ⟨screen, glyph, offset⟩ := state
  have each (actualGlyph : BitVec 16) (state : Screen × BitVec 16 × BitVec 32) (found : Access) :
      found ∈ (drawPixel fb actualGlyph state).1.accesses ↔
        found ∈ state.1.accesses ∨ found = pixelAccess fb state.2.2 := by
    rw [drawPixel, List.mem_cons, or_comm]
    rfl
  refine (mem_iterate (fun state : Screen × BitVec 16 × BitVec 32 => state.1.accesses) (each _) _ _ access).trans ?_
  simp only [drawPixel_offset]

/-- The offset of a pixel of a character, as it is computed. -/
def pixelOffset (fb : Framebuffer) (cx cy : BitVec 32) (x y : Nat) : BitVec 32 :=
  (cy * width fb + cx) * 4 + BitVec.ofNat 32 y * (width fb * 4) + BitVec.ofNat 32 x * 4

theorem insertChar_accesses (screen : Screen) (c : BitVec 16) (cx cy : BitVec 32) (access : Access) :
    access ∈ (insertChar fb font screen c cx cy).accesses ↔
      access ∈ screen.accesses ∨ ∃ y < font.height.toNat, ∃ x < font.width.toNat,
        access = pixelAccess fb (pixelOffset fb cx cy x y) := by
  have start : ((cy * width fb + cx).signExtend 64 * 4).setWidth 32 = (cy * width fb + cx) * 4 := by
    rw [setWidth_mul _ _ (by decide), setWidth_signExtend (by decide), setWidth_eq]
    rfl
  rw [insertChar, start]
  refine (mem_iterate (fun state : Screen × Addr × BitVec 32 => state.1.accesses) drawRow_accesses _ _ access).trans ?_
  simp only [drawRow_offset, pixelOffset]

theorem pixel_eq (place : Place) : place.pixel (grid fb font) = place.y * fb.width.toNat + place.x := rfl

variable (fb font) in
/-- The offset is that of the place, up to 32 bits. -/
theorem pixelOffset_toNat {place : Place} (column : cx.toInt = place.x) (line : cy.toInt = place.y) (x y : Nat) :
    ((pixelOffset fb cx cy x y).toNat : Int) =
      (place.pixel (grid fb font) + (y * fb.width.toNat + x)) * 4 % 2 ^ 32 := by
  have across : width fb = BitVec.ofInt 32 fb.width.toNat := by
    rw [width, ofInt_natCast, ofNat_toNat]
  have right : cx = BitVec.ofInt 32 place.x := by rw [← column, ofInt_toInt]
  have down : cy = BitVec.ofInt 32 place.y := by rw [← line, ofInt_toInt]
  have four : (4 : BitVec 32) = BitVec.ofInt 32 4 := rfl
  have offset : pixelOffset fb cx cy x y =
      BitVec.ofInt 32 ((place.pixel (grid fb font) + (y * fb.width.toNat + x)) * 4) := by
    rw [pixelOffset, right, down, across, four, ← ofInt_natCast, ← ofInt_natCast]
    simp only [← ofInt_mul, ← ofInt_add, pixel_eq]
    congr 1
    ring
  rw [offset, toNat_ofInt]
  omega

theorem pixel_inside_iff (fb : Framebuffer) (offset : BitVec 32) :
    ((pixelAccess fb offset).address - fb.addr).toNat + (pixelAccess fb offset).count ≤
      frameSize fb ↔ offset.toNat + 4 ≤ frameSize fb := by
  have bound := offset.isLt
  rw [pixelAccess, add_sub_self, toNat_setWidth, Nat.mod_eq_of_lt (by omega)]

/-- A character is drawn inside of the framebuffer: offsets that do not fit into 32 bits
wrap around to smaller ones. -/
theorem insertChar_inside (suits : Suits fb font) (tracks : Tracks screen place)
    (drawable : Drawable fb font place) (inside : Inside fb screen) (c : BitVec 16) :
    Inside fb (insertChar fb font screen c screen.X screen.Y) := by
  intro access member
  rw [insertChar_accesses] at member
  rcases member with old | ⟨y, low, x, near, rfl⟩
  · exact inside access old
  · have above := drawable.above (by omega)
    have left := drawable.left (by omega)
    have behind := drawable.behind
    have wide := suits.wide
    rw [pixel_inside_iff]
    have offset := pixelOffset_toNat fb font tracks.column tracks.line x y
    -- the last pixel is at most in the row before the last one, and less than two rows further
    have last : place.pixel (grid fb font) + (y * fb.width.toNat + x) < fb.width.toNat * fb.height.toNat := by
      have rows : (place.y + y + 2) * fb.width.toNat ≤ fb.height.toNat * fb.width.toNat :=
        Int.mul_le_mul_of_nonneg_right (by omega) (Int.natCast_nonneg _)
      rw [Int.add_mul, Int.add_mul] at rows
      rw [Int.mul_comm (fb.width.toNat : Int), pixel_eq]
      omega
    have first : (0 : Int) ≤ y * fb.width.toNat := Int.mul_nonneg (Int.natCast_nonneg _) (Int.natCast_nonneg _)
    rw [frameSize]
    zify
    omega

/-- A character before the first pixel is drawn at the end of the 32 bits. -/
theorem insertChar_outside (ordinary : Ordinary fb font) (place : Place) (column : cx.toInt = place.x)
    (line : cy.toInt = place.y) (before : place.pixel (grid fb font) < 0)
    (near : -font.width.toNat ≤ place.pixel (grid fb font)) (screen : Screen) (c : BitVec 16) :
    ¬ Inside fb (insertChar fb font screen c cx cy) := by
  intro inside
  have narrow := ordinary.narrow
  have modest := ordinary.modest
  have first := inside _ ((insertChar_accesses screen c cx cy _).mpr
    (.inr ⟨0, ordinary.solid, 0, ordinary.some, rfl⟩))
  have offset := pixelOffset_toNat fb font column line 0 0
  rw [pixel_inside_iff] at first
  omega

/-! ## Scrolling -/

theorem width_toNat (fb : Framebuffer) : (width fb).toNat = fb.width.toNat := by
  have bound := fb.width.isLt
  rw [width, toNat_setWidth, Nat.mod_eq_of_lt (by omega)]

theorem height_toNat (fb : Framebuffer) : (height fb).toNat = fb.height.toNat := by
  have bound := fb.height.isLt
  rw [height, toNat_setWidth, Nat.mod_eq_of_lt (by omega)]

theorem lineSize_toNat (suits : Suits fb font) : (lineSize fb).toNat = fb.width.toNat * 4 := by
  have bound := fb.width.isLt
  have wide : (width fb * 32#32).toNat = fb.width.toNat * 32 := by
    rw [toNat_mul, width_toNat, toNat_ofNat]
    omega
  have pos : (width fb * 32#32).msb = false := by
    rw [msb_eq_false_iff_two_mul_lt, wide]
    omega
  have bits : fb.bpp.setWidth 32 = 32#32 := by
    rw [suits.bpp]
    rfl
  rw [lineSize, bits, sdiv_eq, pos]
  change (BitVec.udiv (width fb * 32#32) 8#32).toNat = _
  rw [udiv_eq, toNat_udiv, wide]
  change fb.width.toNat * 32 / 8 = _
  omega

/-- Scrolling reads as many lines behind the framebuffer as it skips. -/
theorem scrollUp_outside (ordinary : Ordinary fb font) (screen : Screen) : ¬ Inside fb (scrollUp fb font screen) := by
  intro inside
  have wide := ordinary.wide
  have high := ordinary.high
  have some := ordinary.some
  have modest := ordinary.modest
  have product : (lineSize fb * height fb).toNat = frameSize fb := by
    rw [toNat_mul, lineSize_toNat ordinary.toSuits, height_toNat, Nat.mul_right_comm, ← frameSize]
    omega
  have size : (scrollSize fb).toNat = frameSize fb := by
    rw [scrollSize, signExtend_eq_setWidth_of_msb_false, toNat_setWidth, product]
    · omega
    · rw [msb_eq_false_iff_two_mul_lt, product]
      omega
  have lines : fb.width.toNat * font.height.toNat ≤ fb.width.toNat * fb.height.toNat :=
    Nat.mul_le_mul_left _ (by omega)
  have skipped : (lineSize fb * font.height).toNat = fb.width.toNat * font.height.toNat * 4 := by
    rw [toNat_mul, lineSize_toNat ordinary.toSuits, Nat.mul_right_comm]
    unfold frameSize at modest
    omega
  have pixels : 0 < fb.width.toNat * font.height.toNat := Nat.mul_pos (by omega) ordinary.solid
  have read := inside ⟨secondLine fb font, (scrollSize fb).toNat⟩ List.mem_cons_self
  simp only [size, secondLine, add_sub_self, toNat_setWidth, skipped] at read
  unfold frameSize at *
  omega

/-! ## The cursor -/

theorem width_toInt (fb : Framebuffer) : (width fb).toInt = fb.width.toNat := by
  have bound := fb.width.isLt
  rw [toInt_eq_toNat_of_lt (by rw [width_toNat]; omega), width_toNat]

theorem add_toInt {x y : BitVec 32} (low : -2 ^ 31 ≤ x.toInt + y.toNat) (high : x.toInt + y.toNat < 2 ^ 31) :
    (x + y).toInt = x.toInt + y.toNat := by
  have first := toInt_eq_toNat_cond x
  have sum := toInt_eq_toNat_cond (x + y)
  rw [toNat_add] at sum
  split at first <;> split at sum <;> omega

theorem sub_toInt {x y : BitVec 32} (low : -2 ^ 31 ≤ x.toInt - y.toNat) (high : x.toInt - y.toNat < 2 ^ 31) :
    (x - y).toInt = x.toInt - y.toNat := by
  have first := toInt_eq_toNat_cond x
  have difference := toInt_eq_toNat_cond (x - y)
  rw [toNat_sub] at difference
  split at first <;> split at difference <;> omega

theorem toNat_of_toInt {x : BitVec 32} (pos : 0 ≤ x.toInt) : (x.toNat : Int) = x.toInt := by
  have value := toInt_eq_toNat_cond x
  have bound := x.isLt
  split at value <;> omega

section Cursor
variable (suits : Suits fb font) (tracks : Tracks screen place)
include suits tracks

/-- The next line is below the bottom for the unsigned comparison as on the sheet. -/
theorem scrolls_iff : Scrolls fb font screen ↔ fb.height.toNat ≤ place.y + font.height.toNat + font.height.toNat := by
  have high := suits.high
  have bottom := tracks.bottom
  have line := toNat_of_toInt (tracks.line ▸ tracks.top)
  rw [tracks.line] at line
  rw [Scrolls, le_def, height_toNat, toNat_add, toNat_add]
  omega

theorem newline_tracks (above : place.y + font.height.toNat + font.height.toNat < fb.height.toNat) :
    Tracks (newline fb font screen) ⟨0, place.y + font.height.toNat⟩ ∧
      (newline fb font screen).accesses = screen.accesses := by
  have top := tracks.top
  have stays : ¬ Scrolls fb font screen :=
    fun scrolls => Int.not_le.mpr above ((scrolls_iff suits tracks).mp scrolls)
  have line : (screen.Y + font.height).toInt = place.y + font.height.toNat := by
    rw [add_toInt] <;> rw [tracks.line] <;> omega
  rw [newline_stays fb font stays]
  refine ⟨{ column := rfl, line := line, right := ?_, top := ?_, bottom := ?_ }, rfl⟩ <;> dsimp only <;> omega

/-- The column behind the cursor is an `int`, also where the line is full. -/
theorem column_tracks : (screen.X + font.width).toInt = place.x + font.width.toNat := by
  have narrow := suits.narrow
  have right := tracks.right
  have least := le_toInt screen.X
  rw [add_toInt] <;> rw [tracks.column] at * <;> omega

theorem full_iff : (width fb).sle (screen.X + font.width) = true ↔ fb.width.toNat ≤ place.x + font.width.toNat := by
  rw [sle_iff_toInt_le, width_toInt, column_tracks suits tracks]

end Cursor

theorem advance_room (fb : Framebuffer) {font : Font} {place : Place}
    (room : place.x + font.width.toNat < fb.width.toNat) :
    place.advance (grid fb font) = ⟨place.x + font.width.toNat, place.y⟩ := if_pos room

theorem advance_full {place : Place} (full : fb.width.toNat ≤ place.x + font.width.toNat) :
    place.advance (grid fb font) = ⟨0, place.y + font.height.toNat⟩ := if_neg (Int.not_lt.mpr full)

/-- The cursor advances as on the sheet while there is room. -/
theorem advance_tracks (suits : Suits fb font) (tracks : Tracks screen place)
    (above : (place.advance (grid fb font)).y + font.height.toNat < fb.height.toNat) :
    Tracks (advanceCursor fb font screen) (place.advance (grid fb font)) ∧
      (advanceCursor fb font screen).accesses = screen.accesses := by
  by_cases full : fb.width.toNat ≤ place.x + font.width.toNat
  · rw [advance_full full] at above ⊢
    have stays : ¬ Scrolls fb font screen :=
      fun scrolls => Int.not_le.mpr above ((scrolls_iff suits tracks).mp scrolls)
    rw [advanceCursor_wraps fb font ((full_iff suits tracks).mpr full), if_neg stays]
    exact newline_tracks suits tracks above
  · have bound := fb.width.isLt
    rw [advance_room fb (Int.not_le.mp full)]
    simp only [advanceCursor, if_neg (mt (full_iff suits tracks).mp full), and_true]
    exact { tracks with column := column_tracks suits tracks, right := by dsimp only; omega }

theorem newline_outside (ordinary : Ordinary fb font) (scrolls : Scrolls fb font screen) :
    ¬ Inside fb (newline fb font screen) := by
  rw [newline_scrolls fb font scrolls]
  exact scrollUp_outside ordinary _

/-- A full line at the bottom scrolls. -/
theorem advance_outside (ordinary : Ordinary fb font) (tracks : Tracks screen place)
    (here : place.y + font.height.toNat < fb.height.toNat)
    (below : fb.height.toNat ≤ (place.advance (grid fb font)).y + font.height.toNat) :
    ¬ Inside fb (advanceCursor fb font screen) := by
  have full : fb.width.toNat ≤ place.x + font.width.toNat := by
    by_contra room
    rw [advance_room fb (Int.not_le.mp room)] at below
    exact Int.not_le.mpr here below
  rw [advance_full full] at below
  have scrolls : Scrolls fb font screen := (scrolls_iff ordinary.toSuits tracks).mpr below
  rw [advanceCursor_wraps fb font ((full_iff ordinary.toSuits tracks).mpr full), if_pos scrolls]
  exact newline_outside ordinary scrolls

/-! ## Advancing -/

theorem advance_down (fb : Framebuffer) (font : Font) (place : Place) :
    place.y ≤ (place.advance (grid fb font)).y := by
  by_cases full : fb.width.toNat ≤ place.x + font.width.toNat
  · rw [advance_full full]
    exact Int.le_add_of_nonneg_right (Int.natCast_nonneg _)
  · rw [advance_room fb (Int.not_le.mp full)]

theorem advance_behind {place : Place} (top : 0 ≤ place.y) (behind : 0 ≤ place.pixel (grid fb font)) :
    0 ≤ (place.advance (grid fb font)).pixel (grid fb font) := by
  by_cases full : fb.width.toNat ≤ place.x + font.width.toNat
  · rw [advance_full full, pixel_eq, Int.add_zero]
    exact Int.mul_nonneg (Int.add_nonneg top (Int.natCast_nonneg _)) (Int.natCast_nonneg _)
  · rw [advance_room fb (Int.not_le.mp full), pixel_eq, ← Int.add_assoc]
    exact Int.add_nonneg behind (Int.natCast_nonneg _)

/-- Several characters' worth of room is passed as on the sheet. -/
theorem advances_track (suits : Suits fb font) (tracks : Tracks screen place) (n : Nat)
    (above : ((Place.advance (grid fb font))^[n] place).y + font.height.toNat < fb.height.toNat) :
    Tracks ((advanceCursor fb font)^[n] screen) ((Place.advance (grid fb font))^[n] place) ∧
      ((advanceCursor fb font)^[n] screen).accesses = screen.accesses := by
  induction n with
  | zero => exact ⟨tracks, rfl⟩
  | succ n ih =>
    rw [iterate_succ_apply'] at above ⊢
    rw [iterate_succ_apply']
    have down := advance_down fb font ((Place.advance (grid fb font))^[n] place)
    obtain ⟨reached, same⟩ := ih (by omega)
    obtain ⟨next, kept⟩ := advance_tracks suits reached above
    exact ⟨next, kept.trans same⟩

theorem advances_onScreen (suits : Suits fb font) (tracks : Tracks screen place)
    (behind : 0 ≤ place.pixel (grid fb font)) (n : Nat)
    (above : ((Place.advance (grid fb font))^[n] place).y + font.height.toNat < fb.height.toNat) :
    ((Place.advance (grid fb font))^[n] place).OnScreen (grid fb font) := by
  have later : 0 ≤ ((Place.advance (grid fb font))^[n] place).y ∧
      0 ≤ ((Place.advance (grid fb font))^[n] place).pixel (grid fb font) := by
    clear above
    induction n with
    | zero => exact ⟨tracks.top, behind⟩
    | succ n ih =>
      rw [iterate_succ_apply']
      exact ⟨ih.1.trans (advance_down fb font _), advance_behind ih.1 ih.2⟩
  refine ⟨above, later.2, ?_⟩
  rw [← (advances_track suits tracks n above).1.column]
  exact le_toInt _

/-! ## Accesses stay -/

theorem inside_of_insertChar (inside : Inside fb (insertChar fb font screen c cx cy)) : Inside fb screen :=
  fun access member => inside access ((insertChar_accesses screen c cx cy access).mpr (.inl member))

theorem inside_of_newline (inside : Inside fb (newline fb font screen)) : Inside fb screen := by
  by_cases scrolls : Scrolls fb font screen
  · rw [newline_scrolls fb font scrolls] at inside
    exact fun access member => inside access (List.mem_cons_of_mem _ (List.mem_cons_of_mem _ member))
  · rw [newline_stays fb font scrolls] at inside
    exact inside

theorem inside_of_advance (inside : Inside fb (advanceCursor fb font screen)) : Inside fb screen := by
  by_cases full : (width fb).sle (screen.X + font.width) = true
  · rw [advanceCursor_wraps fb font full] at inside
    have kept : Inside fb (newline fb font screen) := by
      split at inside <;> exact inside
    exact inside_of_newline kept
  · rw [advanceCursor, if_neg full] at inside
    exact inside

theorem inside_of_advances (n : Nat) (inside : Inside fb ((advanceCursor fb font)^[n] screen)) :
    Inside fb screen := by
  induction n with
  | zero => exact inside
  | succ n ih =>
    rw [iterate_succ_apply'] at inside
    exact ih (inside_of_advance inside)

/-- Advancing over the bottom scrolls. -/
theorem advances_outside (ordinary : Ordinary fb font) (tracks : Tracks screen place)
    (here : place.y + font.height.toNat < fb.height.toNat) (n : Nat)
    (below : fb.height.toNat ≤ ((Place.advance (grid fb font))^[n] place).y + font.height.toNat) :
    ¬ Inside fb ((advanceCursor fb font)^[n] screen) := by
  induction n with
  | zero => exact absurd here (Int.not_lt.mpr below)
  | succ n ih =>
    rw [iterate_succ_apply'] at below ⊢
    by_cases above : ((Place.advance (grid fb font))^[n] place).y + font.height.toNat < fb.height.toNat
    · exact advance_outside ordinary (advances_track ordinary.toSuits tracks n above).1 above below
    · exact fun inside => ih (Int.not_lt.mp above) (inside_of_advance inside)

/-! ## A character -/

theorem Tracks.of_cursor (tracks : Tracks screen place) (same : drawn.cursor = screen.cursor) : Tracks drawn place := by
  obtain ⟨column, line⟩ := Prod.mk.inj same
  exact { tracks with column := column ▸ tracks.column, line := line ▸ tracks.line }

theorem next_left {place : Place} (left : place.x < fb.width.toNat) (wide : 0 < fb.width.toNat)
    (c : BitVec 16) : (place.next (grid fb font) c).x < fb.width.toNat := by
  have start : (0 : Int) < fb.width.toNat := Int.natCast_pos.mpr wide
  have advanced (place : Place) : (place.advance (grid fb font)).x < fb.width.toNat := by
    by_cases full : fb.width.toNat ≤ place.x + font.width.toNat
    · rw [advance_full full]
      exact start
    · rw [advance_room fb (Int.not_le.mp full)]
      exact Int.not_le.mp full
  rw [Place.next]
  split
  · exact start
  split
  · exact Int.lt_of_le_of_lt (Int.sub_le_self _ (Int.natCast_nonneg _)) left
  split
  · exact advanced _
  · exact advanced _

theorem next_drawable (suits : Suits fb font) (drawable : Drawable fb font place)
    (onScreen : (place.next (grid fb font) c).OnScreen (grid fb font)) :
    Drawable fb font (place.next (grid fb font) c) where
  above _ := onScreen.above
  behind := onScreen.behind
  left := fun some => next_left (drawable.left some) (Nat.lt_of_lt_of_le some suits.wide) c

theorem inside_congr (same : drawn.accesses = screen.accesses) (inside : Inside fb screen) : Inside fb drawn := by
  rwa [Inside, same]

/-- A character that fits is drawn, and the cursor is behind it. -/
theorem putchar_fits (suits : Suits fb font) (tracks : Tracks screen place)
    (drawable : Drawable fb font place) (inside : Inside fb screen)
    (onScreen : (place.next (grid fb font) c).OnScreen (grid fb font)) :
    Tracks (putchar fb font screen c) (place.next (grid fb font) c) ∧ Inside fb (putchar fb font screen c) := by
  have behind := next_drawable suits drawable onScreen
  rcases printable_or c with rfl | rfl | rfl | printable
  · obtain ⟨reached, same⟩ := newline_tracks suits tracks onScreen.above
    exact ⟨reached, inside_congr same inside⟩
  · have column : (screen.X - font.width).toInt = place.x - font.width.toNat := by
      have least : -2 ^ 31 ≤ place.x - font.width.toNat := onScreen.column
      have right := tracks.right
      rw [sub_toInt] <;> rw [tracks.column] <;> omega
    have right : place.x - font.width.toNat < 2 ^ 16 :=
      Int.lt_of_le_of_lt (Int.sub_le_self _ (Int.natCast_nonneg _)) tracks.right
    have back : Tracks { screen with X := screen.X - font.width } ⟨place.x - font.width.toNat, place.y⟩ :=
      { tracks with column := column, right := right }
    exact ⟨back.of_cursor (insertChar_cursor fb font _ _ _ _), insertChar_inside suits back behind inside 0x20⟩
  · obtain ⟨reached, same⟩ := advances_track suits tracks tabsize onScreen.above
    exact ⟨reached, inside_congr same inside⟩
  · have drawn := tracks.of_cursor (insertChar_cursor fb font screen c screen.X screen.Y)
    rw [Place.next_printable _ printable] at onScreen ⊢
    rw [putchar_printable fb font printable]
    obtain ⟨reached, same⟩ := advance_tracks suits drawn onScreen.above
    exact ⟨reached, inside_congr same (insertChar_inside suits tracks drawable inside c)⟩

/-- A character that leaves the screen leaves the framebuffer. -/
theorem putchar_outside (ordinary : Ordinary fb font) (tracks : Tracks screen place)
    (drawable : Drawable fb font place) (leaves : ¬ (place.next (grid fb font) c).OnScreen (grid fb font)) :
    ¬ Inside fb (putchar fb font screen c) := by
  have above := drawable.above ordinary.solid
  have behind := drawable.behind
  rcases printable_or c with rfl | rfl | rfl | printable
  · refine newline_outside ordinary ((scrolls_iff ordinary.toSuits tracks).mpr (Int.not_lt.mp fun room => ?_))
    have column : (-2 ^ 31 : Int) ≤ 0 := by decide
    refine leaves ⟨room, ?_, column⟩
    rw [Place.next_newline, pixel_eq, Int.add_zero]
    exact Int.mul_nonneg (Int.add_nonneg tracks.top (Int.natCast_nonneg _)) (Int.natCast_nonneg _)
  · have narrow := ordinary.narrow
    have modest := ordinary.modest
    have right := tracks.right
    have rows : place.y * fb.width.toNat ≤ fb.height.toNat * fb.width.toNat :=
      Int.mul_le_mul_of_nonneg_right (by omega) (Int.natCast_nonneg _)
    rw [frameSize, Nat.mul_comm fb.width.toNat] at modest
    rw [pixel_eq] at behind
    zify at modest
    have least : -2 ^ 31 ≤ place.x - font.width.toNat := by omega
    have column : (screen.X - font.width).toInt = place.x - font.width.toNat := by
      rw [sub_toInt] <;> rw [tracks.column] <;> omega
    have before : (⟨place.x - font.width.toNat, place.y⟩ : Place).pixel (grid fb font) < 0 :=
      Int.not_le.mp fun later => leaves ⟨above, later, least⟩
    refine insertChar_outside ordinary ⟨place.x - font.width.toNat, place.y⟩ column tracks.line before ?_ _ _
    rw [pixel_eq]
    dsimp only
    omega
  · refine advances_outside ordinary tracks above tabsize (Int.not_lt.mp fun room => leaves ?_)
    exact advances_onScreen ordinary.toSuits tracks behind tabsize room
  · have drawn := tracks.of_cursor (insertChar_cursor fb font screen c screen.X screen.Y)
    rw [Place.next_printable _ printable] at leaves
    rw [putchar_printable fb font printable]
    refine advances_outside ordinary drawn above 1 (Int.not_lt.mp fun room => leaves ?_)
    exact advances_onScreen ordinary.toSuits tracks behind 1 room

/-! ## A text -/

theorem inside_of_putchar (inside : Inside fb (putchar fb font screen c)) : Inside fb screen := by
  rw [putchar] at inside
  split at inside
  · exact inside_of_newline inside
  split at inside
  · have kept : Inside fb { screen with X := screen.X - font.width } := inside_of_insertChar inside
    exact kept
  split at inside
  · exact inside_of_advances tabsize inside
  · exact inside_of_insertChar (inside_of_advance inside)

theorem inside_of_text (text : List (BitVec 16))
    (inside : Inside fb (text.foldl (putchar fb font) screen)) : Inside fb screen := by
  induction text generalizing screen with
  | nil => exact inside
  | cons c rest ih => exact inside_of_putchar (ih inside)

/-- A text that fits is drawn, and the cursor is behind it. -/
theorem text_fits (suits : Suits fb font) (tracks : Tracks screen place)
    (drawable : Drawable fb font place) (inside : Inside fb screen) (fits : Fits (grid fb font) place text) :
    Tracks (text.foldl (putchar fb font) screen) (place.after (grid fb font) text) ∧
      Drawable fb font (place.after (grid fb font) text) ∧ Inside fb (text.foldl (putchar fb font) screen) := by
  induction text generalizing screen place with
  | nil => exact ⟨tracks, drawable, inside⟩
  | cons c rest ih =>
    obtain ⟨reached, within⟩ := putchar_fits suits tracks drawable inside fits.1
    exact ih reached (next_drawable suits drawable fits.1) within fits.2

theorem fits_of_inside (ordinary : Ordinary fb font) (tracks : Tracks screen place)
    (drawable : Drawable fb font place) (inside : Inside fb (text.foldl (putchar fb font) screen)) :
    Fits (grid fb font) place text := by
  induction text generalizing screen place with
  | nil => trivial
  | cons c rest ih =>
    have within := inside_of_text rest inside
    have onScreen : (place.next (grid fb font) c).OnScreen (grid fb font) := by
      by_contra leaves
      exact putchar_outside ordinary tracks drawable leaves within
    have reached := (putchar_fits ordinary.toSuits tracks drawable (inside_of_putchar within) onScreen).1
    exact ⟨onScreen, ih reached (next_drawable ordinary.toSuits drawable onScreen) inside⟩

end Drawing

theorem initialize_tracks (mem : Memory) : Tracks (initializeRenderer mem) ⟨0, 0⟩ :=
  ⟨rfl, rfl, by decide, Int.le_refl 0, by decide⟩

theorem initialize_drawable (suits : Suits fb font) : Drawable fb font ⟨0, 0⟩ := by
  have wide := suits.wide
  have high := suits.high
  refine ⟨fun solid => ?_, ?_, fun some => ?_⟩
  · dsimp only
    omega
  · rw [pixel_eq]
    simp
  · dsimp only
    omega

theorem initialize_inside (fb : Framebuffer) (mem : Memory) : Inside fb (initializeRenderer mem) :=
  fun _ member => absurd member List.not_mem_nil

/-- A text that fits on the screen is drawn inside of the framebuffer, and on an ordinary
one no other text is. -/
theorem console_inside (fb : Framebuffer) (font : Font) (mem : Memory) (text : List (BitVec 16))
    (suits : Suits fb font) : (Fits (grid fb font) ⟨0, 0⟩ text →
      Inside fb (text.foldl (putchar fb font) (initializeRenderer mem))) ∧
    (Ordinary fb font → Inside fb (text.foldl (putchar fb font) (initializeRenderer mem)) →
        Fits (grid fb font) ⟨0, 0⟩ text) := by
  have tracks := initialize_tracks mem
  have drawable := initialize_drawable suits
  constructor
  · intro fits
    exact (text_fits suits tracks drawable (initialize_inside fb mem) fits).2.2
  · intro ordinary inside
    exact fits_of_inside ordinary tracks drawable inside

theorem smallScreen_suits : Suits smallScreen font8x16 := ⟨rfl, by decide, by decide, by decide⟩

theorem console_inside_short : Suits smallScreen font8x16 ∧ Inside smallScreen
    ([0x61, 0x0A, 0x08].foldl (putchar smallScreen font8x16) (initializeRenderer fun _ => 0)) := by
  refine ⟨smallScreen_suits, (console_inside smallScreen font8x16 _ _ smallScreen_suits).1 ?_⟩
  exact ⟨⟨by decide, by decide, by decide⟩, ⟨by decide, by decide, by decide⟩, ⟨by decide, by decide, by decide⟩, trivial⟩

/-- A backspace at the start is drawn 32 bytes before the end of the 4 GiB behind the
framebuffer, and the second newline copies the line behind the last one. -/
theorem console_leaves : ∃ fb font, Suits fb font ∧ ∀ mem,
    ¬ Inside fb ([0x08].foldl (putchar fb font) (initializeRenderer mem)) ∧
    ¬ Inside fb ([0x0A, 0x0A].foldl (putchar fb font) (initializeRenderer mem)) := by
  refine ⟨smallScreen, font8x16, smallScreen_suits, fun mem => ⟨fun inside => ?_, fun inside => ?_⟩⟩
  · have offset : (0xFFFFFFE0 : BitVec 32) = pixelOffset smallScreen (0 - 8) 0 0 0 := by decide
    have first := inside (pixelAccess smallScreen 0xFFFFFFE0) ((insertChar_accesses _ _ _ _ _).mpr
      (.inr ⟨0, by decide, 0, by decide, congrArg _ offset⟩))
    exact absurd first (by decide)
  · have read := inside ⟨secondLine smallScreen font8x16, 3072⟩ (.head _)
    exact absurd read (by decide)

end LunaOS.RendererBounds
