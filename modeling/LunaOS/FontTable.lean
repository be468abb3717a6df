import LunaOS.MadtRecords
import LunaOS.Renderer

/-! The font of the console (`graphics/fonts/PSF.cpp`). A PSF2 image is a header, the glyphs
and, when its flags are not zero, a table with the characters of each glyph in UTF-8.
`psf_init` decodes such a table character by character, but asks for it in the fonts that
have none and ends before its first byte: a font with a table is drawn without it, and one
without a table is drawn through a table of zeros. -/
namespace LunaOS.FontTable
open Function ByteMemory BoundedLoop MadtParsing MadtRecords Renderer BitVec

/-! ## The source -/

/-- `PSF_FONT_MAGIC` -/
def psfFontMagic : BitVec 32 := 0x864ab572

/-- `PSF_header`, without its version, which nothing reads. -/
structure PSFHeader where
  magic : BitVec 32
  headersize : BitVec 32
  flags : BitVec 32
  length : BitVec 32
  charsize : BitVec 32
  height : BitVec 32
  width : BitVec 32
  deriving DecidableEq

def psfHeader (mem : Memory) (start : Addr) : PSFHeader where
  magic := load32 mem start
  headersize := load32 mem (start + 8)
  flags := load32 mem (start + 12)
  length := load32 mem (start + 16)
  charsize := load32 mem (start + 20)
  height := load32 mem (start + 24)
  width := load32 mem (start + 28)

/-- The addresses of the bytes from `base` on. -/
def span (base : Addr) (count : Nat) : List Addr := (List.range count).map fun i => base + BitVec.ofNat 64 i

/-- The variables of the loop of `psf_init`, and the addresses it has read. -/
structure Scan where
  s : Addr
  glyph : BitVec 16
  unicode : BitVec 16 → BitVec 16
  reads : List Addr

/-- `s[i] & mask`, in which the `char` becomes an `int`. -/
def masked (byte : Byte) (mask : BitVec 32) : BitVec 32 := byte.signExtend 32 &&& mask

/-- `uc`, and the bytes it takes beside the first one. Bytes that start no character give 0. -/
def decode (mem : Memory) (s : Addr) : BitVec 16 × Nat :=
  let uc : BitVec 16 := (mem s).setWidth 16
  if uc &&& 128#16 = 0#16 then (uc, 0)
  else if uc &&& 32#16 = 0#16 then
    (((masked (mem s) 0x1F#32 <<< 6) + masked (mem (s + 1#64)) 0x3F#32).setWidth 16, 1)
  else if uc &&& 16#16 = 0#16 then
    (((((masked (mem s) 0xF#32 <<< 6) + masked (mem (s + 1#64)) 0x3F#32) <<< 6) +
      masked (mem (s + 2#64)) 0x3F#32).setWidth 16, 2)
  else if uc &&& 8#16 = 0#16 then
    (((((((masked (mem s) 0x7#32 <<< 6) + masked (mem (s + 1#64)) 0x3F#32) <<< 6) +
      masked (mem (s + 2#64)) 0x3F#32) <<< 6) + masked (mem (s + 3#64)) 0x3F#32).setWidth 16, 3)
  else (0#16, 0)

/-- The body of the loop: 0xFF ends the entry of a glyph, and anything else is a character. -/
def scanNext (mem : Memory) (scan : Scan) : Scan :=
  if mem scan.s = 0xFF#8 then
    { scan with glyph := scan.glyph + 1, s := scan.s + 1, reads := scan.s :: scan.reads }
  else
    let (uc, more) := decode mem scan.s
    { scan with
      unicode := Function.update scan.unicode uc scan.glyph
      s := scan.s + BitVec.ofNat 64 (more + 1)
      reads := span scan.s (more + 1) ++ scan.reads }

/-- `while (s > _end_addr)` -/
def scanTurn (mem : Memory) (endAddr : Addr) (scan : Scan) : Turn Scan Scan :=
  if endAddr < scan.s then .again (scanNext mem scan) else .leave scan

/-- `psf_init`, which returns `_unicode_ptr` as the table it points to, and the addresses it
has read. The bytes of all glyphs are counted in 32 bits. -/
def psfInit (mem : Memory) (startAddr endAddr : Addr) (unicodeTable : BitVec 16 → BitVec 16) :
    Option (Option (BitVec 16 → BitVec 16) × List Addr) :=
  let header := psfHeader mem startAddr
  if header.flags ≠ 0 then some (none, span (startAddr + 12) 4)
  else
    let scan : Scan :=
      { s := startAddr + header.headersize.setWidth 64 + (header.length * header.charsize).setWidth 64
        glyph := 0
        unicode := unicodeTable
        reads := span (startAddr + 8) 16 }
    (iterate (scanTurn mem endAddr) maxTurns scan).map fun scan => (some scan.unicode, scan.reads)

/-- `initializePSFFont` on the font of the logger, which is static: its table is zero. -/
def initializePSFFont (mem : Memory) (startAddr endAddr : Addr) : Option (Font × List Addr) :=
  (psfInit mem startAddr endAddr fun _ => 0).map fun (unicode, reads) =>
    let header := psfHeader mem startAddr
    (⟨startAddr, header.headersize, header.length, header.charsize, header.height, header.width, unicode, mem⟩, reads)

/-- A table that begins at the end of the font or before it is not read. -/
theorem psfInit_plain {mem : Memory} {startAddr endAddr : Addr} {table : BitVec 16 → BitVec 16}
    (plain : (psfHeader mem startAddr).flags = 0)
    (ended : ¬ endAddr < startAddr + (psfHeader mem startAddr).headersize.setWidth 64 +
      ((psfHeader mem startAddr).length * (psfHeader mem startAddr).charsize).setWidth 64) :
    psfInit mem startAddr endAddr table = some (some table, span (startAddr + 8) 16) := by
  have left (scan : Scan) (ended : ¬ endAddr < scan.s) : scanTurn mem endAddr scan = .leave scan := if_neg ended
  simp only [psfInit]
  rw [if_neg (not_not_intro plain), iterate_leave (left _ ended) (by decide)]
  rfl

/-! ## Tables -/

/-- A character in UTF-8. -/
def encoded (c : Char) : List Byte := (String.utf8EncodeChar c).map UInt8.toBitVec

/-- The number of a character, as the console has it. -/
def code (c : Char) : BitVec 16 := BitVec.ofNat 16 c.toNat

/-- The table of a font: the entry of each glyph, and 0xFF after it. -/
def tableBytes (entries : List (List Byte)) : List Byte := entries.flatMap (· ++ [0xFF#8])

/-! ## Font images -/

/-- A PSF2 image, with the entries of its table; a font whose flags are zero has none. -/
structure Image where
  mem : Memory
  start : Addr
  finish : Addr
  entries : List (List Byte)
  magic : (psfHeader mem start).magic = psfFontMagic
  header : 32 ≤ (psfHeader mem start).headersize.toNat
  table : entries.length = if (psfHeader mem start).flags = 0 then 0 else (psfHeader mem start).length.toNat
  separated : ∀ entry ∈ entries, 0xFF#8 ∉ entry
  inside : start.toNat + (psfHeader mem start).headersize.toNat +
    (psfHeader mem start).length.toNat * (psfHeader mem start).charsize.toNat + (tableBytes entries).length ≤ finish.toNat
  stored : Holds mem (start + BitVec.ofNat 64 ((psfHeader mem start).headersize.toNat +
    (psfHeader mem start).length.toNat * (psfHeader mem start).charsize.toNat)) (tableBytes entries)

namespace Image
variable (image : Image)

def psf : PSFHeader := psfHeader image.mem image.start

/-- The entry of the glyph has the encoding of the character. -/
def Lists (glyph : Nat) (c : Char) : Prop := ∃ entry, image.entries[glyph]? = some entry ∧ encoded c <:+: entry

/-- Where a glyph begins. -/
def glyphAt (glyph : Nat) : Addr :=
  image.start + image.psf.headersize.setWidth 64 + BitVec.ofNat 64 (glyph * image.psf.charsize.toNat)

/-- The glyph with the number of the character, or the first one. -/
def plainGlyph (number : Nat) : Nat := if 0 < number ∧ number < image.psf.length.toNat then number else 0

/-- Characters are drawn as the image says. -/
structure Honours (font : Font) : Prop where
  plain : image.psf.flags = 0 → ∀ c : BitVec 16, glyphAddr font c = image.glyphAt (image.plainGlyph c.toNat)
  listed : image.psf.flags ≠ 0 → ∀ glyph c, c.toNat < 0x10000 → image.Lists glyph c →
    glyphAddr font (code c) = image.glyphAt glyph

/-- The font the image becomes, with or without a table. -/
def font (unicode : Option (BitVec 16 → BitVec 16)) : Font :=
  ⟨image.start, image.psf.headersize, image.psf.length, image.psf.charsize, image.psf.height, image.psf.width, unicode,
    image.mem⟩

theorem at_glyph_iff {glyph offset : Nat} (small : glyph < 2 ^ 32) (small' : offset < 2 ^ 64) :
    image.start + image.psf.headersize.setWidth 64 + BitVec.ofNat 64 offset = image.glyphAt glyph ↔
      offset = glyph * image.psf.charsize.toNat := by
  have product : glyph * image.psf.charsize.toNat < 2 ^ 64 :=
    calc glyph * image.psf.charsize.toNat
      _ < 2 ^ 32 * 2 ^ 32 := Nat.mul_lt_mul_of_lt_of_lt small image.psf.charsize.isLt
      _ = 2 ^ 64 := by decide
  rw [glyphAt, BitVec.add_right_inj]
  constructor
  · intro same
    have same := congrArg BitVec.toNat same
    rwa [toNat_ofNat, toNat_ofNat, Nat.mod_eq_of_lt small', Nat.mod_eq_of_lt product] at same
  · exact congrArg _

theorem plainGlyph_lt (c : BitVec 16) : image.plainGlyph c.toNat < 2 ^ 32 := by
  rw [plainGlyph]
  split <;> omega

theorem glyphAddr_none (c : BitVec 16) : glyphAddr (image.font none) c =
    image.start + image.psf.headersize.setWidth 64 +
      BitVec.ofNat 64 (image.plainGlyph c.toNat * image.psf.charsize.toNat % 2 ^ 32) := by
  have wide : (c.setWidth 32).toNat = c.toNat := toNat_setWidth_of_le (by decide)
  have index : (if 0 < c ∧ c.setWidth 32 < image.psf.length then c.setWidth 32 else 0) =
      BitVec.ofNat 32 (image.plainGlyph c.toNat) := by
    simp only [plainGlyph, lt_def, wide, ofNat_eq_ofNat, toNat_ofNat, Nat.zero_mod]
    split
    · rw [← wide, ofNat_toNat, setWidth_eq]
    · rfl
  have drawn : glyphAddr (image.font none) c = image.start + image.psf.headersize.setWidth 64 +
      ((if 0 < c ∧ c.setWidth 32 < image.psf.length then c.setWidth 32 else 0) * image.psf.charsize).setWidth 64 := rfl
  have product : (BitVec.ofNat 32 (image.plainGlyph c.toNat) * image.psf.charsize).toNat =
      image.plainGlyph c.toNat * image.psf.charsize.toNat % 2 ^ 32 := by
    rw [toNat_mul, toNat_ofNat, Nat.mod_mul_mod]
  rw [drawn, index, ← product, ofNat_toNat]

theorem glyphAddr_zero (c : BitVec 16) : glyphAddr (image.font (some fun _ => 0)) c =
    image.start + image.psf.headersize.setWidth 64 + BitVec.ofNat 64 0 := by
  simp [glyphAddr, font]

theorem initialize_flagged (flagged : image.psf.flags ≠ 0) :
    initializePSFFont image.mem image.start image.finish = some (image.font none, span (image.start + 12) 4) := by
  exact congrArg (Option.map _) (if_pos flagged)

/-- The loop of `psf_init` ends where it begins. -/
theorem initialize_plain (plain : image.psf.flags = 0) : initializePSFFont image.mem image.start image.finish =
      some (image.font (some fun _ => 0), span (image.start + 8) 16) := by
  have ended : ¬ image.finish < image.start + image.psf.headersize.setWidth 64 +
      (image.psf.length * image.psf.charsize).setWidth 64 := by
    have glyphs : (image.psf.length * image.psf.charsize).toNat ≤ image.psf.length.toNat * image.psf.charsize.toNat := by
      exact Nat.mod_le _ _
    have inside := image.inside
    rw [psf] at glyphs ⊢
    bv_omega
  rw [initializePSFFont, psfInit_plain plain ended]
  rfl

theorem span_inside {offset count : Nat} (fits : offset + count ≤ 32) :
    ∀ address ∈ span (image.start + BitVec.ofNat 64 offset) count, address < image.finish := by
  intro address member
  obtain ⟨i, small, rfl⟩ := List.mem_map.mp member
  have small := List.mem_range.mp small
  have header := image.header
  have inside := image.inside
  have place : (image.start + BitVec.ofNat 64 offset + BitVec.ofNat 64 i).toNat = image.start.toNat + offset + i := by
    rw [BitVec.add_assoc, ← ofNat_add, toNat_add, toNat_ofNat, Nat.mod_eq_of_lt (by omega),
      Nat.mod_eq_of_lt (by omega), Nat.add_assoc]
  rw [lt_def, place]
  omega

/-- Without a table all characters are drawn alike, which is right for a font of one glyph. -/
theorem honours_plain (plain : image.psf.flags = 0) :
    image.Honours (image.font (some fun _ => 0)) ↔ image.psf.length.toNat ≤ 1 ∨ image.psf.charsize.toNat = 0 := by
  have drawn (c : BitVec 16) : glyphAddr (image.font (some fun _ => 0)) c = image.glyphAt (image.plainGlyph c.toNat) ↔
      image.plainGlyph c.toNat = 0 ∨ image.psf.charsize.toNat = 0 := by
    rw [glyphAddr_zero, at_glyph_iff image (image.plainGlyph_lt c) (by decide), eq_comm, Nat.mul_eq_zero]
  constructor
  · intro honours
    refine ((drawn 1).mp (honours.plain plain 1)).imp_left fun first => ?_
    by_contra many
    rw [plainGlyph, if_pos ⟨by decide, Nat.not_le.mp many⟩] at first
    exact absurd first (by decide)
  · intro alike
    refine ⟨fun _ c => (drawn c).mpr (alike.imp_left fun one => ?_), fun flagged => absurd plain flagged⟩
    exact if_neg fun inside => absurd one (by omega)

/-- With a table every character is drawn as the glyph of its own number. -/
theorem honours_flagged (flagged : image.psf.flags ≠ 0) :
    image.Honours (image.font none) ↔ ∀ glyph c, c.toNat < 0x10000 → image.Lists glyph c →
      image.plainGlyph c.toNat * image.psf.charsize.toNat % 2 ^ 32 = glyph * image.psf.charsize.toNat := by
  have drawn (glyph : Nat) (c : Char) (small : c.toNat < 0x10000) (lists : image.Lists glyph c) :
      glyphAddr (image.font none) (code c) = image.glyphAt glyph ↔
        image.plainGlyph c.toNat * image.psf.charsize.toNat % 2 ^ 32 = glyph * image.psf.charsize.toNat := by
    have number : (code c).toNat = c.toNat := Nat.mod_eq_of_lt small
    have few : glyph < 2 ^ 32 := by
      obtain ⟨entry, found, _⟩ := lists
      have entries : image.entries.length = image.psf.length.toNat := image.table.trans (if_neg flagged)
      exact Nat.lt_trans (List.getElem?_eq_some_iff.mp found).1 (entries ▸ BitVec.isLt _)
    rw [glyphAddr_none, number, at_glyph_iff image few (Nat.lt_trans (Nat.mod_lt _ (by decide)) (by decide))]
  constructor
  · exact fun honours glyph c small lists => (drawn glyph c small lists).mp (honours.listed flagged glyph c small lists)
  · exact fun own => ⟨fun plain => absurd plain flagged,
      fun _ glyph c small lists => (drawn glyph c small lists).mpr (own glyph c small lists)⟩

end Image

/-- **The table of the font.** `psf_init` reads nothing behind the image. The glyphs are
the right ones, without a table, where the font has not two of them, and with a table, where it
lists under each glyph only the character of the same number. -/
theorem glyphs_honoured_iff (image : Image) :
    ∃ font reads, initializePSFFont image.mem image.start image.finish = some (font, reads) ∧
      (∀ address ∈ reads, address < image.finish) ∧ (image.Honours font ↔
        if image.psf.flags = 0 then image.psf.length.toNat ≤ 1 ∨ image.psf.charsize.toNat = 0
        else ∀ glyph c, c.toNat < 0x10000 → image.Lists glyph c →
          image.plainGlyph c.toNat * image.psf.charsize.toNat % 2 ^ 32 = glyph * image.psf.charsize.toNat) := by
  by_cases plain : image.psf.flags = 0
  · rw [if_pos plain]
    exact ⟨_, _, image.initialize_plain plain, image.span_inside (by decide), image.honours_plain plain⟩
  · rw [if_neg plain]
    exact ⟨_, _, image.initialize_flagged plain, image.span_inside (by decide), image.honours_flagged plain⟩

/-- A font with glyphs of one byte. -/
def fontBytes (flags length : Byte) (rest : List Byte) : List Byte :=
  [0x72, 0xb5, 0x4a, 0x86, 0, 0, 0, 0, 32, 0, 0, 0, flags, 0, 0, 0, length, 0, 0, 0, 1, 0, 0, 0, 1, 0, 0, 0, 8, 0, 0, 0] ++
    rest

/-- A font of one glyph or two, and no table. -/
def plainFont (two : Bool) : Image where
  mem := fromBytes 0x1000 (fontBytes 0 (if two then 2 else 1) [0x00, 0xFF])
  start := 0x1000
  finish := 0x1022
  entries := []
  magic := by decide +revert
  header := by decide +revert
  table := by decide +revert
  separated := by decide
  inside := by decide +revert
  stored := nofun

/-- A font with a table, whose two glyphs are `A` and the character 1, or `A` and `B`. -/
def lettersFont (own : Bool) : Image where
  mem := fromBytes 0x1000 (fontBytes 1 2 [0x00, 0xFF, 0x41, 0xFF, if own then 0x01 else 0x42, 0xFF])
  start := 0x1000
  finish := 0x1026
  entries := [[0x41], [if own then 0x01 else 0x42]]
  magic := by decide +revert
  header := by decide +revert
  table := by decide +revert
  separated := by decide +revert
  inside := by decide +revert
  stored := by
    have whole : Holds (fromBytes 0x1000 (fontBytes 1 2 [0x00, 0xFF, 0x41, 0xFF, if own then 0x01 else 0x42, 0xFF])) 0x1000
        (fontBytes 1 2 [0x00, 0xFF] ++ [0x41, 0xFF, if own then 0x01 else 0x42, 0xFF]) :=
      holds_fromBytes 0x1000 (by decide +revert)
    have table := ((holds_append _ _ _ _).mp whole).2
    cases own <;> exact table

/-- An entry of one byte has at most one character, its own. -/
theorem listed_byte {byte : Byte} (listed : encoded c <:+: [byte]) : c.toNat = byte.toNat := by
  have low : c.toNat ≤ 0x7F := by
    have short := listed.length_le
    rw [encoded, List.length_map, String.length_utf8EncodeChar, Char.utf8Size, List.length_singleton] at short
    split at short
    · assumption
    · split at short
      · omega
      · split at short <;> omega
  have alone : encoded c = [BitVec.ofNat 8 c.toNat] := congrArg (List.map UInt8.toBitVec) (if_pos low)
  rw [alone] at listed
  have same : BitVec.ofNat 8 c.toNat = byte := List.mem_singleton.mp (listed.subset List.mem_cons_self)
  rw [← same, BitVec.toNat_ofNat, Nat.mod_eq_of_lt (by omega)]

/-- A table that lists under each glyph what is drawn with it anyway. -/
theorem glyphs_honoured_iff_table : ∃ font reads,
    initializePSFFont (lettersFont true).mem (lettersFont true).start (lettersFont true).finish = some (font, reads) ∧
      (∀ address ∈ reads, address < (lettersFont true).finish) ∧ (lettersFont true).Honours font := by
  obtain ⟨font, reads, ran, inside, honours⟩ := glyphs_honoured_iff (lettersFont true)
  rw [if_neg (by decide)] at honours
  refine ⟨font, reads, ran, inside, honours.mpr ?_⟩
  rintro glyph c - ⟨entry, found, within⟩
  match glyph with
  | 0 =>
    cases found
    rw [listed_byte within]
    decide
  | 1 =>
    cases found
    rw [listed_byte within]
    decide
  | glyph + 2 => cases found

/-- The second glyph of a font without a table is never drawn, and with its table `B` is drawn
as `A`. -/
theorem second_glyph_missed : (∃ font reads,
      initializePSFFont (plainFont true).mem (plainFont true).start (plainFont true).finish = some (font, reads) ∧
      (plainFont true).psf.flags = 0 ∧ (plainFont true).plainGlyph 1 = 1 ∧ glyphAddr font 1 = (plainFont true).glyphAt 0 ∧
      (plainFont true).glyphAt 0 ≠ (plainFont true).glyphAt 1) ∧
    ∃ font reads, initializePSFFont (lettersFont false).mem (lettersFont false).start
        (lettersFont false).finish = some (font, reads) ∧
      (lettersFont false).psf.flags ≠ 0 ∧ (lettersFont false).Lists 1 'B' ∧
      glyphAddr font (code 'B') = (lettersFont false).glyphAt 0 ∧
      (lettersFont false).glyphAt 0 ≠ (lettersFont false).glyphAt 1 := by
  refine ⟨⟨_, _, (plainFont true).initialize_plain (by decide), by decide, by decide, ?_, by decide⟩,
    ⟨_, _, (lettersFont false).initialize_flagged (by decide), by decide, ⟨[0x42], rfl, ?_⟩, by decide, by decide⟩⟩
  · rw [Image.glyphAddr_zero]
    decide
  · exact List.infix_refl _

end LunaOS.FontTable
