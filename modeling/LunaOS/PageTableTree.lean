import LunaOS.PageTables
import LunaOS.PointerTree

/-! The tables of a space as a tree. Tables are page frames told apart by the
path of 9-bit keys that leads to them; an entry is a slot of eight bytes in its
frame, so a store to one slot or the clearing of a frame leaves every other slot
alone. -/
namespace LunaOS.PageTableTree
open ByteMemory PageTables PointerTree
open BitVec hiding and_self fill

abbrev Key := BitVec 9

/-- A page-aligned physical address. -/
abbrev Frame := { frame : Addr // frame.toNat % 4096 = 0 }

/-- The slot of an entry in a frame. -/
def slotOf (table : Frame) (key : Key) : Addr := table.val + 8 * key.setWidth 64

def entryAt (mem : Memory) (table : Frame) (key : Key) : BitVec 64 := load64 mem (slotOf table key)

def setEntry (mem : Memory) (table : Frame) (key : Key) (entry : BitVec 64) : Memory :=
  store64 mem (slotOf table key) entry

/-- A frame with every byte zero. -/
def clearFrame (mem : Memory) (frame : Frame) : Memory := fill mem frame.val 0 4096

theorem directmap_slot (table : Frame) (key : Key) :
    removeDirectmap (applyDirectmap table.val + 8 * key.setWidth 64) = slotOf table key := by
  simp only [removeDirectmap, applyDirectmap, slotOf]
  rw [BitVec.add_assoc, BitVec.add_comm hhdm, ← BitVec.add_assoc, BitVec.add_sub_cancel]

@[simp] theorem readEntry_directmap (mem : Memory) (table : Frame) (key : Key) :
    readEntry mem (applyDirectmap table.val) (key.setWidth 64) = entryAt mem table key := by
  rw [readEntry, directmap_slot, entryAt]

@[simp] theorem writeEntry_directmap (mem : Memory) (table : Frame) (key : Key) (entry : BitVec 64) :
    writeEntry mem (applyDirectmap table.val) (key.setWidth 64) entry = setEntry mem table key entry := by
  rw [writeEntry, directmap_slot, setEntry]

@[simp] theorem removeDirectmap_applyDirectmap (phys : Addr) :
    removeDirectmap (applyDirectmap phys) = phys := BitVec.add_sub_cancel _ _

/-! ## Slots -/

theorem key_offset (key : Key) : (8 * key.setWidth 64 : BitVec 64).toNat = 8 * key.toNat := by
  have width : (key.setWidth 64).toNat = key.toNat := by
    rw [toNat_setWidth]
    omega
  rw [toNat_mul, width, show (8 : BitVec 64).toNat = 8 from rfl]
  omega

theorem slotOf_toNat (table : Frame) (key : Key) : (slotOf table key).toNat = table.val.toNat + 8 * key.toNat := by
  rw [slotOf, toNat_add, key_offset]
  omega

theorem frames_far {first second : Frame} (differ : first ≠ second) :
    first.val.toNat + 4096 ≤ second.val.toNat ∨ second.val.toNat + 4096 ≤ first.val.toNat := by
  have apart : first.val.toNat ≠ second.val.toNat :=
    fun same => differ (Subtype.ext (eq_of_toNat_eq same))
  omega

theorem slots_apart {table other : Frame} {key slot : Key} (differ : other ≠ table ∨ slot ≠ key) :
    Apart (slotOf other slot) 8 (slotOf table key) 8 := by
  have here := slotOf_toNat table key
  have there := slotOf_toNat other slot
  have order : (slotOf other slot).toNat + 8 ≤ (slotOf table key).toNat ∨
      (slotOf table key).toNat + 8 ≤ (slotOf other slot).toNat := by
    by_cases same : other = table
    · have keys : slot.toNat ≠ key.toNat :=
        fun equal => (differ.resolve_left (not_not.mpr same)) (eq_of_toNat_eq equal)
      omega
    · rcases frames_far same with below | above <;> omega
  rcases order with below | above
  · exact apart_of_le_left below (by omega)
  · exact apart_of_le_right above (by omega)

theorem slot_outside {table frame : Frame} (differ : table ≠ frame) (key : Key) :
    Apart (slotOf table key) 8 frame.val 4096 := by
  have here := slotOf_toNat table key
  rcases frames_far differ with below | above
  · exact apart_of_le_left (by omega) (by omega)
  · exact apart_of_le_right (by omega) (by omega)

@[simp] theorem entryAt_setEntry_self (mem : Memory) (table : Frame) (key : Key) (entry : BitVec 64) :
    entryAt (setEntry mem table key entry) table key = entry := load64_store64 ..

theorem entryAt_setEntry_other {mem : Memory} {table other : Frame} {key slot : Key}
    (differ : other ≠ table ∨ slot ≠ key) :
    entryAt (setEntry mem table key entry) other slot = entryAt mem other slot :=
  load64_store64_apart (slots_apart differ)

@[simp] theorem entryAt_clearFrame_self (mem : Memory) (frame : Frame) (key : Key) :
    entryAt (clearFrame mem frame) frame key = 0 := by
  refine load64_fill_zero ?_
  intro offset inside
  have distance : slotOf frame key + BitVec.ofNat 64 offset - frame.val =
      8 * key.setWidth 64 + BitVec.ofNat 64 offset := by
    rw [slotOf, BitVec.add_assoc, add_sub_self]
  rw [distance, toNat_add, key_offset, toNat_ofNat]
  omega

theorem entryAt_clearFrame_other {mem : Memory} {table frame : Frame} (differ : table ≠ frame)
    (key : Key) : entryAt (clearFrame mem frame) table key = entryAt mem table key :=
  load64_write (slot_outside differ key)

theorem setEntry_outside {mem : Memory} {table : Frame} {key : Key} {address : Addr}
    (outside : 4096 ≤ (address - table.val).toNat) : setEntry mem table key entry address = mem address := by
  rw [setEntry, store64]
  refine write_of_le ?_
  have offset := key_offset key
  have distance : address - slotOf table key = address - table.val - 8 * key.setWidth 64 := by
    rw [slotOf]
    bv_omega
  rw [distance, toNat_sub_of_le (by rw [le_def]; omega)]
  omega

theorem clearFrame_outside {mem : Memory} {frame : Frame} {address : Addr}
    (outside : 4096 ≤ (address - frame.val).toNat) : clearFrame mem frame address = mem address := by
  rw [clearFrame, fill]
  exact write_of_le outside

theorem fill_frame {mem : Memory} (frame : Frame) : fill mem frame.val 0 4096 = clearFrame mem frame := rfl

attribute [irreducible] entryAt setEntry clearFrame

/-! ## Keys -/

/-- The keys of an address, from the root down. -/
def pml4Key (virt : Addr) : Key := virt.extractLsb' 39 9
def pdptKey (virt : Addr) : Key := virt.extractLsb' 30 9
def pdKey (virt : Addr) : Key := virt.extractLsb' 21 9
def ptKey (virt : Addr) : Key := virt.extractLsb' 12 9

private theorem indexer_key (virt : Addr) (shift : Nat) :
    (virt >>> shift) &&& 0x1ff = (virt.extractLsb' shift 9).setWidth 64 := by
  have mask : ∀ index : Fin 64, (0x1ff : BitVec 64).getLsbD index = decide (index.val < 9) := by decide
  apply eq_of_getLsbD_eq
  intro index bound
  rw [getLsbD_and, mask ⟨index, bound⟩, getLsbD_ushiftRight, getLsbD_setWidth, getLsbD_extractLsb']
  simp [bound, Bool.and_comm]

theorem pml4Indexer_key (virt : Addr) : pml4Indexer virt = (pml4Key virt).setWidth 64 := indexer_key virt 39
theorem pdptIndexer_key (virt : Addr) : pdptIndexer virt = (pdptKey virt).setWidth 64 := indexer_key virt 30
theorem pdIndexer_key (virt : Addr) : pdIndexer virt = (pdKey virt).setWidth 64 := indexer_key virt 21
theorem ptIndexer_key (virt : Addr) : ptIndexer virt = (ptKey virt).setWidth 64 := indexer_key virt 12

/-- The page of an address, by bits 12 to 47. -/
def pageKey (virt : Addr) : BitVec 36 := virt.extractLsb' 12 36

theorem pageKey_toNat (virt : Addr) : (pageKey virt).toNat = virt.toNat / 4096 % 2 ^ 36 := by
  rw [pageKey, BitVec.extractLsb'_toNat, Nat.shiftRight_eq_div_pow]

theorem same_user_page {virt probe : Addr} (user : virt.toNat < 2 ^ 48) (other : probe.toNat < 2 ^ 48) :
    pageKey virt = pageKey probe ↔ virt.toNat / 4096 = probe.toNat / 4096 := by
  constructor
  · intro same
    have pages := congrArg BitVec.toNat same
    rw [pageKey_toNat, pageKey_toNat] at pages
    omega
  · intro same
    exact eq_of_toNat_eq (by rw [pageKey_toNat, pageKey_toNat, same])

/-- The path of an address to its page table. -/
def tablePath (virt : Addr) : List Key := [pml4Key virt, pdptKey virt, pdKey virt]

/-- Two addresses are of one page when they agree on path and slot. -/
theorem pageKey_eq_iff (first second : Addr) : pageKey first = pageKey second ↔
    tablePath first = tablePath second ∧ ptKey first = ptKey second := by
  constructor
  · intro same
    have piece : ∀ shift, 12 ≤ shift → shift ≤ 39 → first.extractLsb' shift 9 = second.extractLsb' shift 9 := by
      intro shift low high
      have part := congrArg (fun page => page.extractLsb' (shift - 12) 9) same
      apply eq_of_getLsbD_eq
      intro index bound
      have bit := congrArg (fun key => key.getLsbD index) part
      simp only [pageKey, getLsbD_extractLsb', bound, decide_true, Bool.true_and] at bit ⊢
      simpa [show shift - 12 + index < 36 by omega, show 12 + (shift - 12 + index) = shift + index by omega]
        using bit
    simp only [tablePath, pml4Key, pdptKey, pdKey, ptKey, piece 39 (by omega) (by omega),
      piece 30 (by omega) (by omega), piece 21 (by omega) (by omega), piece 12 (by omega) (by omega),
      and_self]
  · rintro ⟨path, last⟩
    simp only [tablePath, List.cons.injEq, and_true] at path
    obtain ⟨top, middle, bottom⟩ := path
    apply eq_of_getLsbD_eq
    intro index bound
    have bits : ∀ {shift : Nat}, first.extractLsb' shift 9 = second.extractLsb' shift 9 →
        ∀ offset < 9, first.getLsbD (shift + offset) = second.getLsbD (shift + offset) := by
      intro shift same offset inside
      have bit := congrArg (fun key => key.getLsbD offset) same
      simpa [inside] using bit
    simp only [pageKey, getLsbD_extractLsb', bound, decide_true, Bool.true_and]
    rcases Nat.lt_or_ge index 9 with low | low
    · exact bits last index low
    · rcases Nat.lt_or_ge index 18 with mid | mid
      · simpa [show 21 + (index - 9) = 12 + index by omega] using bits bottom (index - 9) (by omega)
      · rcases Nat.lt_or_ge index 27 with high | high
        · simpa [show 30 + (index - 18) = 12 + index by omega] using bits middle (index - 18) (by omega)
        · simpa [show 39 + (index - 27) = 12 + index by omega] using bits top (index - 27) (by omega)

/-! ## Entries -/

theorem low_bits_toNat (word : BitVec 64) : (word &&& 0xfff).toNat = word.toNat % 4096 := by
  exact Nat.and_two_pow_sub_one_eq_mod word.toNat 12

theorem aligned_iff (word : BitVec 64) : word.toNat % 4096 = 0 ↔ word &&& 0xfff = 0 := by
  rw [← low_bits_toNat]
  constructor
  · exact fun zero => eq_of_toNat_eq zero
  · intro zero
    rw [zero]
    rfl

theorem addressExclude_aligned (entry : BitVec 64) : (addressExclude entry).toNat % 4096 = 0 := by
  rw [aligned_iff, addressExclude, BitVec.and_assoc]
  exact and_zero

/-- The frame an entry points to. -/
def frameOf (entry : BitVec 64) : Frame := ⟨addressExclude entry, addressExclude_aligned entry⟩

@[simp] theorem readEntry_frameOf (mem : Memory) (entry : BitVec 64) (key : Key) :
    readEntry mem (applyDirectmap (addressExclude entry)) (key.setWidth 64) =
      entryAt mem (frameOf entry) key := readEntry_directmap mem (frameOf entry) key

theorem addressExclude_or (first second : BitVec 64) :
    addressExclude (first ||| second) = addressExclude first ||| addressExclude second :=
  and_or_distrib_right

theorem checkFlag_or (first second flag : BitVec 64) :
    checkFlag (first ||| second) flag = (checkFlag first flag || checkFlag second flag) := by
  simp only [checkFlag, and_or_distrib_right, bne, ← Bool.not_and]
  rw [Bool.eq_iff_iff]
  simpa [or_eq_zero_iff] using imp_iff_not_or

/-- A flag among the low twelve bits is never set in a frame's address. -/
theorem checkFlag_frame (frame : Frame) {flag : BitVec 64} (low : flag &&& 0xfff = flag) :
    checkFlag frame.val flag = false := by
  have zero := (aligned_iff frame.val).mp frame.property
  have none : frame.val &&& flag = 0 := by
    rw [← low, BitVec.and_comm flag, ← BitVec.and_assoc, zero]
    exact zero_and
  simp [checkFlag, none]

/-- Frames below 2^60 are kept by the mask of an entry's address. -/
theorem addressExclude_frame (frame : Frame) (low : frame.val.toNat < 2 ^ 60) :
    addressExclude frame.val = frame.val := by
  have mask : ∀ index : Fin 64, (0xffffffffffff000 : BitVec 64).getLsbD index =
      decide (12 ≤ index.val ∧ index.val < 60) := by decide
  have small : ∀ index : Fin 12, (0xfff : BitVec 64).getLsbD index = true := by decide
  apply eq_of_getLsbD_eq
  intro index bound
  rw [addressExclude, getLsbD_and, mask ⟨index, bound⟩]
  by_cases below : index < 12
  · have zero : (frame.val &&& 0xfff).getLsbD index = (0 : BitVec 64).getLsbD index := by
      rw [(aligned_iff frame.val).mp frame.property]
    rw [getLsbD_and, small ⟨index, below⟩, Bool.and_true] at zero
    rw [zero]
    simp
  · by_cases high : index < 60
    · simp [high, Nat.le_of_not_lt below]
    · have zero : frame.val.getLsbD index = false :=
        Nat.testBit_lt_two_pow (Nat.lt_of_lt_of_le low (Nat.pow_le_pow_right (by omega) (by omega)))
      rw [zero, Bool.false_and]

/-- Flags as every caller passes them: bits 0 to 11 and 63 only, present, and no
large page. -/
structure PlainFlags (flags : BitVec 64) : Prop where
  bits : flags &&& 0x7ffffffffffff000 = 0
  present : checkFlag flags pagetablePresent = true
  small : checkFlag flags pagetablePageSize = false

theorem PlainFlags.address (plain : PlainFlags flags) : addressExclude flags = 0 := by
  have inside : (0xffffffffffff000 : BitVec 64) = 0x7ffffffffffff000 &&& 0xffffffffffff000 := rfl
  rw [addressExclude, inside, ← BitVec.and_assoc, plain.bits]
  exact zero_and

/-! ## The tree -/

/-- The table behind a slot, if its entry is present. -/
def child (mem : Memory) (table : Frame) (key : Key) : Option Frame :=
  if checkFlag (entryAt mem table key) pagetablePresent then some (frameOf (entryAt mem table key))
  else none

abbrev Table (mem : Memory) (root : Frame) (table : Frame) : Prop :=
  Reached (child mem) root 3 table

/-- The tables below a root form a tree, with no large pages. -/
structure TableTree (mem : Memory) (root : Frame) : Prop where
  unshared : Unshared (child mem) root 3
  small : ∀ path table, path ≠ [] → path.length < 3 → descend (child mem) root path = some table →
    ∀ key, checkFlag (entryAt mem table key) pagetablePageSize = false

/-- The present entry of a page, by path and slot. -/
def leaf (mem : Memory) (root : Frame) (path : List Key) (key : Key) : Option (BitVec 64) :=
  (descend (child mem) root path).bind fun table =>
    if checkFlag (entryAt mem table key) pagetablePresent then some (entryAt mem table key) else none

theorem child_of_present (present : checkFlag (entryAt mem table key) pagetablePresent = true) :
    child mem table key = some (frameOf (entryAt mem table key)) := if_pos present

theorem child_of_absent (absent : checkFlag (entryAt mem table key) pagetablePresent = false) :
    child mem table key = none := if_neg (by simp [absent])

/-- The entries of the tables decide the tree and its pages. -/
theorem tree_congr (same : ∀ table, Table before root table → ∀ key, entryAt after table key = entryAt before table key)
    (tree : TableTree before root) :
    TableTree after root ∧ (∀ table, Table after root table ↔ Table before root table) ∧
      (∀ path, path.length ≤ 3 → descend (child after) root path = descend (child before) root path) ∧
      ∀ path key, path.length ≤ 3 → leaf after root path key = leaf before root path key := by
  have slots : ∀ path node, path.length < 3 → descend (child before) root path = some node →
      ∀ key, child after node key = child before node key := by
    intro path node short reached key
    simp only [child, same node ⟨path, by omega, reached⟩]
  have paths := descend_congr slots
  refine ⟨⟨unshared_congr slots tree.unshared, ?_⟩, ?_, paths, ?_⟩
  · intro path table nonempty short reached key
    rw [paths path (by omega)] at reached
    rw [same table ⟨path, by omega, reached⟩]
    exact tree.small path table nonempty short reached key
  · intro table
    refine exists_congr fun path => and_congr_right fun short => ?_
    rw [paths path short]
  · intro path key short
    rw [leaf, leaf, paths path short]
    cases reached : descend (child before) root path with
    | none => simp only [Option.bind_none]
    | some table => simp only [Option.bind_some, same table ⟨path, short, reached⟩]

/-- What the walk of `pagingVirtualToPhysical` finds in a tree. -/
def located (entry : Option (BitVec 64)) (virt : Addr) : Addr :=
  match entry with
  | none => 0
  | some entry => addressExclude entry + offsetExclude virt

theorem descend_tablePath (mem : Memory) (root : Frame) (virt : Addr) : descend (child mem) root (tablePath virt) =
      (child mem root (pml4Key virt)).bind fun pdpt =>
        (child mem pdpt (pdptKey virt)).bind fun pd => child mem pd (pdKey virt) := by
  simp [tablePath, descend]

/-- The tables on the way to a page. What an absent entry leads to is not looked at. -/
structure Walk (mem : Memory) (root : Frame) (virt : Addr) (pdpt pd pt : Frame) : Prop where
  upper : frameOf (entryAt mem root (pml4Key virt)) = pdpt
  middle : frameOf (entryAt mem pdpt (pdptKey virt)) = pd
  lower : frameOf (entryAt mem pd (pdKey virt)) = pt
  first : checkFlag (entryAt mem root (pml4Key virt)) pagetablePresent = true →
    descend (child mem) root [pml4Key virt] = some pdpt ∧
      checkFlag (entryAt mem pdpt (pdptKey virt)) pagetablePageSize = false
  second : checkFlag (entryAt mem root (pml4Key virt)) pagetablePresent = true →
    checkFlag (entryAt mem pdpt (pdptKey virt)) pagetablePresent = true →
    descend (child mem) root [pml4Key virt, pdptKey virt] = some pd ∧
      checkFlag (entryAt mem pd (pdKey virt)) pagetablePageSize = false
  third : checkFlag (entryAt mem root (pml4Key virt)) pagetablePresent = true →
    checkFlag (entryAt mem pdpt (pdptKey virt)) pagetablePresent = true →
    checkFlag (entryAt mem pd (pdKey virt)) pagetablePresent = true →
    descend (child mem) root [pml4Key virt, pdptKey virt, pdKey virt] = some pt

theorem tree_walk (tree : TableTree mem root) (virt : Addr) : ∃ pdpt pd pt, Walk mem root virt pdpt pd pt := by
  refine ⟨_, _, _, rfl, rfl, rfl, fun top => ?_, fun top middle => ?_, fun top middle bottom => ?_⟩
  · refine ⟨?top, tree.small _ _ (by simp) (by simp) ?top _⟩
    simp [descend, child_of_present top]
  · refine ⟨?middle, tree.small _ _ (by simp) (by simp) ?middle _⟩
    simp [descend, child_of_present top, child_of_present middle]
  · simp [descend, child_of_present top, child_of_present middle, child_of_present bottom]

theorem Walk.leaf_eq (walk : Walk mem root virt pdpt pd pt) : leaf mem root (tablePath virt) (ptKey virt) =
    if checkFlag (entryAt mem root (pml4Key virt)) pagetablePresent &&
      checkFlag (entryAt mem pdpt (pdptKey virt)) pagetablePresent &&
      checkFlag (entryAt mem pd (pdKey virt)) pagetablePresent &&
      checkFlag (entryAt mem pt (ptKey virt)) pagetablePresent then some (entryAt mem pt (ptKey virt)) else none := by
  obtain ⟨rfl, rfl, rfl, _⟩ := walk
  rw [leaf, descend_tablePath]
  simp only [child]
  grind

theorem walk_eq (tree : TableTree mem root) (virt : Addr) : pagingVirtualToPhysical mem root.val virt =
      located (leaf mem root (tablePath virt) (ptKey virt)) virt := by
  obtain ⟨pdpt, pd, pt, walk⟩ := tree_walk tree virt
  simp only [pagingVirtualToPhysical, pml4Indexer_key, pdptIndexer_key, pdIndexer_key, ptIndexer_key,
    readEntry_directmap, readEntry_frameOf, walk.upper, walk.middle, walk.lower, walk.leaf_eq, located]
  have first := walk.first
  have second := walk.second
  grind

end LunaOS.PageTableTree
