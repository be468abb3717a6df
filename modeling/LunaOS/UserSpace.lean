import LunaOS.PageTranslation
import LunaOS.UserspaceAllocator

/-! The user half of a space. Its pages are mapped to frames of their own, drawn
for them and serving as no table, so stores through it reach neither the tables
nor each other. -/
namespace LunaOS.UserSpace
open BitVec
open ByteMemory BoundedLoop PageTables PointerTree PageTableTree PageMapping FrameExclusivity PageTranslation
open UserspaceAllocator

/-- Slots below the first 256 entries of the root. -/
def UserHalf : List Key → Prop
  | [] => False
  | first :: _ => first.toNat < 256

/-- What the processor's translation finds in a tree. -/
theorem resolve_eq (tree : TableTree mem root) (virt : Addr) : resolve mem root.val virt =
      if canonical virt then (leaf mem root (tablePath virt) (ptKey virt)).map fun entry =>
        addressExclude entry + offsetExclude virt else none := by
  obtain ⟨pdpt, pd, pt, walk⟩ := tree_walk tree virt
  simp only [resolve, pml4Indexer_key, pdptIndexer_key, pdIndexer_key, ptIndexer_key,
    readEntry_directmap, readEntry_frameOf, walk.upper, walk.middle, walk.lower, walk.leaf_eq]
  have first := walk.first
  have second := walk.second
  grind

section Space
variable {σ : Type}

/-- A space whose user pages have frames of their own, with no stale entries in a region. -/
structure OwnPages (alloc : LawfulAllocator σ) (region : List Key → Prop) (root : Frame)
    (st : Physical σ) : Prop where
  tree : TableTree st.mem root
  held : TablesHeld alloc root st
  blank : Blank region st.mem root
  data : ∀ path key entry, UserHalf path → path.length = 3 → leaf st.mem root path key = some entry →
    alloc.held st.frames (frameOf entry).val ∧ ¬ Table st.mem root (frameOf entry)
  alone : ∀ path key other slot entry word, UserHalf path → path.length = 3 → UserHalf other → other.length = 3 →
    leaf st.mem root path key = some entry → leaf st.mem root other slot = some word →
    frameOf entry = frameOf word → path ++ [key] = other ++ [slot]

variable {alloc : LawfulAllocator σ} {region : List Key → Prop} {root : Frame} {st : Physical σ}

/-- Frames that are out for something else than a table. -/
def Spared (alloc : LawfulAllocator σ) (root : Frame) (spared : Frame → Prop) (st : Physical σ) : Prop :=
  ∀ frame, spared frame → alloc.held st.frames frame.val ∧ ¬ Table st.mem root frame

theorem spared_entered {spared : Frame → Prop} (held : TablesHeld alloc root before)
    (safe : Spared alloc root spared before) (enters : Enters before.mem after.mem root path next)
    (source : Sourced alloc before root next after.frames) : Spared alloc root spared after := by
  intro frame marked
  obtain ⟨owned, foreign⟩ := safe frame marked
  rcases source with ⟨there, same⟩ | ⟨nonzero, drawn⟩
  · refine ⟨same ▸ owned, fun reached => ?_⟩
    rcases enters.table_cases reached with rfl | reached
    · exact foreign there
    · exact foreign reached
  · obtain ⟨_, fresh, taken⟩ := alloc.draw_spec held.sound nonzero drawn
    refine ⟨(taken _).mpr (.inl owned), fun reached => ?_⟩
    rcases enters.table_cases reached with rfl | reached
    · exact fresh owned
    · exact foreign reached

/-- Frames that are not null keep the levels of a blank region away from spared frames. -/
theorem spared_supports (low : LowReserve alloc)
    (inside : ∀ probe, probe <+: target → probe ≠ [] → region probe) (spared : Frame → Prop) :
    Supports alloc root target (fun st => Blank region st.mem root ∧ TablesHeld alloc root st ∧
        Spared alloc root spared st) fun _ _ frame => frame ≠ 0 where
  suited st path table key invariant inner found along absent nonzero := by
    refine held_suits low invariant.2.1 nonzero ?_
    rw [invariant.1 path table key (by omega) found (inside _ along (by simp)) absent]
    exact zero_or
  entered _ _ _ _ invariant _ _ enters source :=
    ⟨enters.blank _ invariant.1, held_entered invariant.2.1 enters source,
      spared_entered invariant.2.1 invariant.2.2 enters source⟩
  rests _ _ invariant frames paths still := by
    have tables := table_iff_of_paths paths
    refine ⟨still _ invariant.1, held_rests invariant.2.1 frames tables, ?_⟩
    intro frame marked
    rw [frames, tables]
    exact invariant.2.2 frame marked

/-- Every frame that mapping a page draws is one: its own, and those for tables. -/
def PageSupplied (alloc : FrameAllocator σ) (root : Frame) (flags : PagingFlags) (st : Physical σ)
    (virt : Addr) : Prop :=
  (alloc.allocatePage st.frames).1 ≠ 0 ∧
    MapDraws alloc { st with frames := (alloc.allocatePage st.frames).2 } virt root.val flags
      false fun _ _ frame => frame ≠ 0

/-- A frame just drawn is out and neither a table nor a page of the space. -/
theorem OwnPages.draw (own : OwnPages alloc region root st) (found : (alloc.allocatePage st.frames).1 ≠ 0) :
    OwnPages alloc region root { st with frames := (alloc.allocatePage st.frames).2 } ∧
      ∀ frame : Frame, frame.val = (alloc.allocatePage st.frames).1 →
        alloc.held (alloc.allocatePage st.frames).2 frame.val ∧ ¬ Table st.mem root frame ∧
          ∀ path key entry, UserHalf path → path.length = 3 → leaf st.mem root path key = some entry →
            frameOf entry ≠ frame := by
  have fresh := (alloc.drawn _ own.held.sound found).2
  have taken := alloc.taken _ own.held.sound found
  refine ⟨⟨own.tree, ⟨alloc.drawn_sound _ own.held.sound, ?_⟩, own.blank, ?_, own.alone⟩, ?_⟩
  · exact fun table reached => (taken _).mpr (.inl (own.held.held table reached))
  · intro path key entry user deep present
    obtain ⟨owned, foreign⟩ := own.data path key entry user deep present
    exact ⟨(taken _).mpr (.inl owned), foreign⟩
  · intro frame here
    refine ⟨(taken _).mpr (.inr here), ?_, ?_⟩
    · intro reached
      exact fresh (here ▸ own.held.held frame reached)
    · rintro path key entry user deep present rfl
      exact fresh (here ▸ (own.data path key entry user deep present).1)

theorem frameOf_entry {frame : Frame} (plain : PlainFlags flags) (low : frame.val.toNat < 2 ^ 60) :
    frameOf (0 ||| flags ||| frame.val) = frame := by
  have kept := addressExclude_frame frame low
  refine Subtype.ext ?_
  show addressExclude (0 ||| flags ||| frame.val) = frame.val
  rw [addressExclude_or, addressExclude_or, plain.address, kept]
  exact zero_or

/-- A page present after a map that does not override was there, or is the one mapped. -/
theorem leaf_cases (maps : Maps before after root virt entry false) (deep : path.length = 3)
    (present : leaf after root path key = some word) :
    leaf before root path key = some word ∨ path ++ [key] = pagePath virt ∧ word = entry := by
  rw [maps.leaves path key deep] at present
  split at present
  · rename_i here
    cases old : leaf before root path key with
    | none =>
      rw [old] at present
      exact .inr ⟨here, (Option.some.inj present).symm⟩
    | some found =>
      rw [old] at present
      exact .inl present
  · exact .inl present

theorem userHalf_page (user : (pml4Key virt).toNat < 256) (probe : List Key) (along : probe <+: pagePath virt)
    (nonempty : probe ≠ []) : UserHalf probe := by
  cases probe with
  | nil => exact absurd rfl nonempty
  | cons first rest =>
    obtain ⟨same, _⟩ := List.cons_prefix_cons.mp along
    rw [UserHalf, same]
    exact user

/-- A page mapped through blank tables over frames that are not null: one leaf is
new, and its frame is its own. -/
theorem mapPage_own (low : LowReserve alloc) (own : OwnPages alloc region root st)
    (plain : PlainPagingFlags flags) (blank : ∀ probe, probe <+: pagePath virt → probe ≠ [] → region probe)
    (supplied : PageSupplied alloc root flags st virt) :
    Maps st.mem (mapPage alloc root.val flags st virt).mem root virt
        (0 ||| flags.ptFlags ||| (alloc.allocatePage st.frames).1) false ∧
      OwnPages alloc region root (mapPage alloc root.val flags st virt) := by
  obtain ⟨found, draws⟩ := supplied
  obtain ⟨drawn, facts⟩ := own.draw found
  have reserve := (alloc.drawn _ own.held.sound found).1
  generalize frameDef : (⟨_, alloc.aligned _ reserve⟩ : Frame) = frame
  have value : (alloc.allocatePage st.frames).1 = frame.val := by rw [← frameDef]
  obtain ⟨owned, foreign, unmapped⟩ := facts frame value.symm
  have points : frameOf (0 ||| flags.ptFlags ||| (alloc.allocatePage st.frames).1) = frame := by
    rw [value]
    exact frameOf_entry plain.pt (Nat.lt_trans (value ▸ low _ reserve) (by decide))
  let spared : Frame → Prop := fun other => other = frame ∨
    ∃ path key entry, UserHalf path ∧ path.length = 3 ∧ leaf st.mem root path key = some entry ∧ frameOf entry = other
  have safe : Spared alloc root spared
      { st with frames := (alloc.allocatePage st.frames).2 } := by
    rintro other (rfl | ⟨path, key, entry, inside, deep, present, rfl⟩)
    · exact ⟨owned, foreign⟩
    · exact drawn.data path key entry inside deep present
  obtain ⟨maps, blank, held, kept⟩ := map_maps (spared_supports low blank spared)
    ⟨drawn.blank, drawn.held, safe⟩ drawn.tree plain draws (alloc.allocatePage st.frames).1
  refine ⟨maps, maps.tree, held, blank, ?_, ?_⟩
  · intro path key entry inside deep present
    refine kept _ ?_
    rcases leaf_cases maps deep present with old | ⟨_, rfl⟩
    · exact .inr ⟨path, key, entry, inside, deep, old, rfl⟩
    · exact .inl points
  · intro path key other slot entry word inside deep otherInside otherDeep present otherPresent same
    rcases leaf_cases maps deep present with old | ⟨here, rfl⟩ <;>
      rcases leaf_cases maps otherDeep otherPresent with otherOld | ⟨there, rfl⟩
    · exact own.alone path key other slot entry word inside deep otherInside otherDeep old otherOld same
    · exact absurd (same.trans points) (unmapped path key entry inside deep old)
    · exact absurd (same.symm.trans points) (unmapped other slot word otherInside otherDeep otherOld)
    · exact here.trans there.symm

/-! ## Stores -/

theorem OwnPages.congr (own : OwnPages alloc region root st) (same : ∀ table, Table st.mem root table → ∀ key,
      entryAt after table key = entryAt st.mem table key) : OwnPages alloc region root { st with mem := after } := by
  obtain ⟨tree, tables, paths, leaves⟩ := tree_congr same own.tree
  refine ⟨tree, held_rests own.held rfl tables, ?_, ?_, ?_⟩
  · intro probe table slot short reached inside absent
    rw [paths probe short] at reached
    rw [same table ⟨probe, short, reached⟩] at absent ⊢
    exact own.blank probe table slot short reached inside absent
  · intro path key entry user deep present
    rw [leaves path key deep.le] at present
    rw [tables]
    exact own.data path key entry user deep present
  · intro path key other slot entry word user deep otherUser otherDeep present otherPresent
    rw [leaves path key deep.le] at present
    rw [leaves other slot otherDeep.le] at otherPresent
    exact own.alone path key other slot entry word user deep otherUser otherDeep present otherPresent

theorem offsetExclude_eq (virt : Addr) : offsetExclude virt = BitVec.ofNat 64 (virt.toNat % 4096) := by
  refine eq_of_toNat_eq ?_
  rw [offsetExclude, low_bits_toNat, toNat_ofNat]
  omega

theorem pml4Key_toNat (virt : Addr) : (pml4Key virt).toNat = virt.toNat / 2 ^ 39 % 512 := by
  rw [pml4Key, BitVec.extractLsb'_toNat, Nat.shiftRight_eq_div_pow]

theorem canonical_user (user : virt.toNat < 2 ^ 47) : canonical virt = true := by
  have below : virt < 0x800000000000#64 := user
  simp [canonical, below]

theorem canonical_iff (virt : Addr) :
    canonical virt = true ↔ virt.toNat < 2 ^ 47 ∨ 0xffff800000000000 ≤ virt.toNat := by
  simp only [canonical, Bool.or_eq_true, decide_eq_true_eq, lt_def, le_def,
    show (0x800000000000 : BitVec 64).toNat = 2 ^ 47 from rfl,
    show (0xffff800000000000 : BitVec 64).toNat = 0xffff800000000000 from rfl]

theorem canonical_below (accepted : canonical virt = true) (below : virt.toNat < 0xffff800000000000) :
    virt.toNat < 2 ^ 47 := by
  rw [canonical_iff] at accepted
  omega

theorem key_of_user (user : virt.toNat < 2 ^ 47) : (pml4Key virt).toNat < 256 := by
  rw [pml4Key_toNat]
  omega

/-- Where an accepted address leads in a tree. -/
theorem resolve_some_iff (tree : TableTree mem root) (phys : Addr) :
    resolve mem root.val virt = some phys ↔ canonical virt = true ∧
      ∃ entry, leaf mem root (tablePath virt) (ptKey virt) = some entry ∧
        phys = (frameOf entry).val + BitVec.ofNat 64 (virt.toNat % 4096) := by
  rw [resolve_eq tree, offsetExclude_eq]
  cases accepted : canonical virt with
  | false => simp
  | true => simp [frameOf, eq_comm]

/-- The byte at a user address. -/
def loadByte (mem : Memory) (root : Frame) (virt : Addr) : Option Byte :=
  (resolve mem root.val virt).map mem

theorem entryAt_write {mem : Memory} {table frame : Frame} (differ : table ≠ frame)
    (fits : offset + room ≤ 4096) (bytes : Nat → Byte) (key : Key) :
    entryAt (write mem (frame.val + BitVec.ofNat 64 offset) room bytes) table key = entryAt mem table key := by
  rw [entryAt, entryAt]
  exact load64_write ((slot_outside differ key).within offset fits)

/-- Addresses of one page of frames: how far apart they are. -/
theorem frame_distance {first second : Frame} {start place room : Nat} (small : place < 4096)
    (fits : start + room ≤ 4096)
    (near : (second.val + BitVec.ofNat 64 place - (first.val + BitVec.ofNat 64 start)).toNat < room) :
    second = first ∧ start ≤ place ∧
      (second.val + BitVec.ofNat 64 place - (first.val + BitVec.ofNat 64 start)).toNat = place - start := by
  rw [toNat_sub, toNat_add, toNat_add, toNat_ofNat, toNat_ofNat] at near ⊢
  have same : second.val.toNat = first.val.toNat := by omega
  exact ⟨Subtype.ext (eq_of_toNat_eq same), by omega, by omega⟩

theorem user_page_iff {virt probe : Addr} (user : virt.toNat < 2 ^ 47) (other : probe.toNat < 2 ^ 47) :
    tablePath probe ++ [ptKey probe] = tablePath virt ++ [ptKey virt] ↔ probe.toNat / 4096 = virt.toNat / 4096 := by
  rw [show tablePath virt ++ [ptKey virt] = pagePath virt from rfl, same_page_iff,
    same_user_page (by omega) (by omega), eq_comm]

/-- A store inside one user page: no table changes, and of the user's bytes only
those stored. -/
theorem store_page (own : OwnPages alloc region root st) (user : virt.toNat < 2 ^ 47)
    (resolved : resolve st.mem root.val virt = some phys) (fits : virt.toNat % 4096 + room ≤ 4096)
    (bytes : Nat → Byte) : (∀ table, Table st.mem root table → ∀ key,
      entryAt (write st.mem phys room bytes) table key = entryAt st.mem table key) ∧
    ∀ probe : Addr, probe.toNat < 2 ^ 47 → loadByte (write st.mem phys room bytes) root probe =
      if (probe - virt).toNat < room then some (bytes (probe - virt).toNat) else loadByte st.mem root probe := by
  obtain ⟨_, entry, present, address⟩ := (resolve_some_iff own.tree phys).mp resolved
  have inside : UserHalf (tablePath virt) := key_of_user user
  have foreign := (own.data _ _ entry inside rfl present).2
  have same : ∀ table, Table st.mem root table → ∀ key,
      entryAt (write st.mem phys room bytes) table key = entryAt st.mem table key := by
    intro table reached key
    have differ : table ≠ frameOf entry := by
      rintro rfl
      exact foreign reached
    rw [address]
    exact entryAt_write differ fits bytes key
  refine ⟨same, ?_⟩
  intro probe other
  obtain ⟨tree, _, _, leaves⟩ := tree_congr same own.tree
  have still : resolve (write st.mem phys room bytes) root.val probe = resolve st.mem root.val probe := by
    rw [resolve_eq tree, resolve_eq own.tree, leaves (tablePath probe) _ (Nat.le_refl 3)]
  have distance : (probe - virt).toNat = (2 ^ 64 - virt.toNat + probe.toNat) % 2 ^ 64 := toNat_sub ..
  rw [loadByte, loadByte, still]
  split
  · rename_i near
    have page : probe.toNat / 4096 = virt.toNat / 4096 := by omega
    obtain ⟨path, last⟩ := List.append_inj' ((user_page_iff user other).mpr page) rfl
    have found : resolve st.mem root.val probe =
        some ((frameOf entry).val + BitVec.ofNat 64 (probe.toNat % 4096)) := by
      refine (resolve_some_iff own.tree _).mpr ⟨canonical_user other, entry, ?_, rfl⟩
      rw [path, (List.cons.inj last).1]
      exact present
    have offset : ((frameOf entry).val + BitVec.ofNat 64 (probe.toNat % 4096) - phys).toNat =
        (probe - virt).toNat := by
      rw [address, toNat_sub, toNat_add, toNat_add, toNat_ofNat, toNat_ofNat, distance]
      omega
    rw [found, Option.map_some, write_of_lt (by rw [offset]; exact near), offset]
  · rename_i far
    cases found : resolve st.mem root.val probe with
    | none => rfl
    | some place =>
      obtain ⟨_, word, there, rfl⟩ := (resolve_some_iff own.tree place).mp found
      rw [Option.map_some, Option.map_some]
      refine congrArg some (write_of_le (Nat.le_of_not_lt fun near => far ?_))
      rw [address] at near
      obtain ⟨sameFrame, above, apart⟩ := frame_distance (Nat.mod_lt _ (by omega)) fits near
      have page := (user_page_iff user other).mp (own.alone _ _ _ _ word entry (key_of_user other) rfl inside rfl
        there present sameFrame)
      omega

/-- A store to user addresses went through. -/
structure Stores (before after : Memory) (root : Frame) (base : Addr) (count : Nat) (bytes : Nat → Byte) :
    Prop where
  same : ∀ table, Table before root table → ∀ key, entryAt after table key = entryAt before table key
  view : ∀ probe : Addr, probe.toNat < 2 ^ 47 → loadByte after root probe =
    if (probe - base).toNat < count then some (bytes (probe - base).toNat) else loadByte before root probe

theorem storeTurn_stores (own : OwnPages alloc region root st)
    (start : base.toNat < 0xffff800000000000) (below : done = 0 ∨ base.toNat + done ≤ 2 ^ 47)
    (stores : Stores st.mem mem root base done bytes)
    (asked : storeTurn root.val base count bytes (mem, done) = .again (next, further)) :
    (further ≤ count ∧ base.toNat + further ≤ 2 ^ 47) ∧ Stores st.mem next root base further bytes := by
  simp only [storeTurn] at asked
  split at asked
  · cases asked
  · rename_i unfinished
    split at asked
    · cases asked
    · rename_i phys resolved
      cases asked
      have current := own.congr stores.same
      have accepted := ((resolve_some_iff current.tree phys).mp resolved).1
      have place : (base + BitVec.ofNat 64 done).toNat = base.toNat + done := by
        rw [toNat_add, toNat_ofNat]
        omega
      have inside := canonical_below accepted (by omega)
      generalize virtDef : base + BitVec.ofNat 64 done = virt at inside place resolved ⊢
      generalize roomDef : min (count - done) (4096 - virt.toNat % 4096) = room
      have fits : virt.toNat % 4096 + room ≤ 4096 := by omega
      obtain ⟨same, view⟩ := store_page current inside resolved fits fun i => bytes (done + i)
      refine ⟨by omega, ?_, ?_⟩
      · intro table reached key
        rw [same table (((tree_congr stores.same own.tree).2.1 table).mpr reached) key]
        exact stores.same table reached key
      · intro probe other
        rw [view probe other, stores.view probe other]
        have start : (probe - virt).toNat = (2 ^ 64 - done + (probe - base).toNat) % 2 ^ 64 := by
          rw [← virtDef, show probe - (base + BitVec.ofNat 64 done) = probe - base - BitVec.ofNat 64 done by bv_omega,
            toNat_sub, toNat_ofNat, show done % 2 ^ 64 = done by omega]
        by_cases old : (probe - base).toNat < done
        · rw [if_neg (by omega), if_pos old, if_pos (by omega)]
        · by_cases new : (probe - base).toNat < done + room
          · rw [if_pos (by omega), if_pos new, show done + (probe - virt).toNat = (probe - base).toNat by omega]
          · rw [if_neg (by omega), if_neg old, if_neg new]

theorem storeTurn_left (left : storeTurn pml4Addr base count bytes state = .leave result) : result = state := by
  obtain ⟨mem, done⟩ := state
  simp only [storeTurn] at left
  split at left
  · cases left
    rfl
  · split at left
    · cases left
      rfl
    · cases left

/-- A store that went through stays below the addresses the processor refuses. -/
theorem storeBytes_stores (own : OwnPages alloc region root st) (start : 0 < count → base.toNat < 0xffff800000000000)
    (stored : storeBytes st.mem root.val base count bytes = some after) :
    Stores st.mem after root base count bytes ∧ (0 < count → base.toNat + count ≤ 2 ^ 47) := by
  let holds : Memory × Nat → Prop := fun state =>
    (state.2 = 0 ∨ state.2 ≤ count ∧ base.toNat + state.2 ≤ 2 ^ 47) ∧ Stores st.mem state.1 root base state.2 bytes
  have kept : ∀ state next, holds state → storeTurn root.val base count bytes state = .again next → holds next := by
    rintro ⟨mem, done⟩ ⟨next, further⟩ ⟨part, stores⟩ asked
    have pos : 0 < count := by
      by_contra zero
      simp [storeTurn, show count ≤ done by omega] at asked
    obtain ⟨below, stores⟩ := storeTurn_stores own (start pos) (part.imp_right (·.2)) stores asked
    exact ⟨.inr below, stores⟩
  have begin : holds (st.mem, 0) := ⟨.inl rfl, fun _ _ _ => rfl, fun _ _ => rfl⟩
  rw [storeBytes] at stored
  split at stored
  · rename_i mem done returned
    split at stored
    · rename_i finished
      cases stored
      obtain ⟨_, ⟨part, stores⟩, left⟩ := iterate_invariant holds kept begin returned
      cases storeTurn_left left
      have whole : done = count := by
        dsimp only at part
        omega
      subst whole
      exact ⟨stores, fun pos => (part.resolve_left (by omega)).2⟩
    · cases stored
  · cases stored

/-! ## Construction -/

theorem copyKernel_entries (mem : Memory) {current dest : Frame} (differ : dest ≠ current) (count : Nat)
    (part : count ≤ 256) : let copied := (List.range count).foldl (fun mem i =>
      let index := BitVec.ofNat 64 (256 + i)
      writeEntry mem (applyDirectmap dest.val) index (readEntry mem (applyDirectmap current.val) index)) mem
    (∀ table key, table ≠ dest → entryAt copied table key = entryAt mem table key) ∧
      ∀ key : Key, entryAt copied dest key = if 256 ≤ key.toNat ∧ key.toNat < 256 + count then entryAt mem current key
        else entryAt mem dest key := by
  induction count with
  | zero =>
    refine ⟨fun _ _ _ => rfl, fun key => ?_⟩
    rw [if_neg (by omega)]
    rfl
  | succ count ih =>
    obtain ⟨others, own⟩ := ih (by omega)
    have index : BitVec.ofNat 64 (256 + count) = (BitVec.ofNat 9 (256 + count)).setWidth 64 := by
      refine eq_of_toNat_eq ?_
      rw [toNat_setWidth, toNat_ofNat, toNat_ofNat]
      omega
    have slot : (BitVec.ofNat 9 (256 + count)).toNat = 256 + count := by
      rw [toNat_ofNat]
      omega
    simp only [List.range_succ, List.foldl_append, List.foldl_cons, List.foldl_nil, index, readEntry_directmap,
      writeEntry_directmap]
    refine ⟨fun table key foreign => ?_, fun key => ?_⟩
    · rw [entryAt_setEntry_other (.inl foreign)]
      exact others table key foreign
    · by_cases here : key = BitVec.ofNat 9 (256 + count)
      · rw [here, entryAt_setEntry_self, if_pos (by omega)]
        exact others current _ differ.symm
      · have apart : key.toNat ≠ 256 + count := fun same => here (eq_of_toNat_eq (same.trans slot.symm))
        rw [entryAt_setEntry_other (.inr here), own key]
        refine if_congr ?_ rfl rfl
        omega

/-- A root with an empty user half, over the kernel half of another one. -/
theorem adopted_own (tree : TableTree st.mem current) (held : TablesHeld alloc current st)
    (fresh : ¬ Table st.mem current root)
    (others : ∀ table key, table ≠ root → entryAt mem table key = entryAt st.mem table key)
    (stale : Blank (fun path => region path ∧ ¬ UserHalf path) st.mem current)
    (user : ∀ key : Key, key.toNat < 256 → entryAt mem root key = 0)
    (kernel : ∀ key : Key, 256 ≤ key.toNat → entryAt mem root key = entryAt st.mem current key)
    (sound : alloc.sound frames)
    (taken : ∀ other, alloc.held frames other ↔ alloc.held st.frames other ∨ other = root.val) :
    OwnPages alloc region root ⟨mem, frames⟩ := by
  have adopted : Adopted (child st.mem) (child mem) current root fun key => decide (256 ≤ key.toNat) := by
    refine ⟨fun key => ?_, fun other key foreign => ?_⟩
    · by_cases upper : 256 ≤ key.toNat
      · simp only [child, kernel key upper, upper, decide_true, if_true]
      · simp only [upper, decide_false, Bool.false_eq_true, if_false]
        refine child_of_absent ?_
        rw [user key (by omega)]
        rfl
    · simp only [child, others other key foreign]
  have view : ∀ path table, path ≠ [] → path.length ≤ 3 → descend (child mem) root path = some table →
      ¬ UserHalf path ∧ descend (child st.mem) current path = some table := by
    intro path table nonempty short reached
    cases path with
    | nil => exact absurd rfl nonempty
    | cons first rest =>
      rw [descend_adopt fresh adopted first rest short] at reached
      split at reached
      · rename_i upper
        rw [decide_eq_true_eq] at upper
        exact ⟨Nat.not_lt.mpr upper, reached⟩
      · cases reached
  have bare : ∀ path key entry, UserHalf path → path.length = 3 → leaf mem root path key ≠ some entry := by
    intro path key entry inside deep present
    rw [leaf, Option.bind_eq_some_iff] at present
    obtain ⟨table, reached, _⟩ := present
    exact (view path table (by rintro rfl; cases inside) deep.le reached).1 inside
  refine ⟨⟨unshared_adopt tree.unshared fresh adopted, ?_⟩, ⟨sound, ?_⟩, ?_, ?_, ?_⟩
  · intro path table nonempty short reached key
    obtain ⟨_, there⟩ := view path table nonempty (by omega) reached
    have foreign : table ≠ root := by
      rintro rfl
      exact fresh ⟨path, by omega, there⟩
    rw [others table key foreign]
    exact tree.small path table nonempty short there key
  · rintro table ⟨path, short, reached⟩
    cases path with
    | nil => exact (taken _).mpr (.inr (congrArg Subtype.val (Option.some.inj reached)).symm)
    | cons first rest =>
      exact (taken _).mpr (.inl (held.held table ⟨_, short, (view _ table (by simp) short reached).2⟩))
  · intro probe table slot short reached inside absent
    cases probe with
    | nil =>
      cases reached
      by_cases lower : slot.toNat < 256
      · exact user slot lower
      · rw [kernel slot (by omega)] at absent ⊢
        exact stale [] current slot short rfl ⟨inside, lower⟩ absent
    | cons first rest =>
      obtain ⟨upper, there⟩ := view _ table (by simp) short reached
      have foreign : table ≠ root := by
        rintro rfl
        exact fresh ⟨_, short, there⟩
      rw [others table slot foreign] at absent ⊢
      exact stale _ table slot short there ⟨inside, upper⟩ absent
  · exact fun path key entry inside deep present => absurd present (bare path key entry inside deep)
  · exact fun path key _ _ entry _ inside deep _ _ present => absurd present (bare path key entry inside deep)

/-- A page drawn for a root is no table of the current space. -/
theorem drawn_fresh (held : TablesHeld alloc current st)
    (drawn : (alloc.allocatePage st.frames).1 = root.val) (nonzero : root.val ≠ 0) :
    ¬ Table st.mem current root ∧ root ≠ current := by
  have found : (alloc.allocatePage st.frames).1 ≠ 0 := by rw [drawn]; exact nonzero
  have free := (alloc.drawn _ held.sound found).2
  rw [drawn] at free
  have fresh : ¬ Table st.mem current root := fun reached => free (held.held root reached)
  refine ⟨fresh, ?_⟩
  rintro rfl
  exact fresh ⟨[], by simp, rfl⟩

/-- The entries of a new space: in its root those of the kernel half, elsewhere as before. -/
theorem construct_entries {alloc : FrameAllocator σ} (differ : root ≠ current)
    (drawn : (alloc.allocatePage st.frames).1 = root.val) : (∀ table key, table ≠ root →
        entryAt (constructProcess alloc st current.val).physical.mem table key = entryAt st.mem table key) ∧
      ∀ key : Key, entryAt (constructProcess alloc st current.val).physical.mem root key =
        if 256 ≤ key.toNat then entryAt st.mem current key else 0 := by
  simp only [constructProcess, drawn, removeDirectmap_applyDirectmap, fill_frame, pagingCopyKernelMappings]
  obtain ⟨others, own⟩ := copyKernel_entries (clearFrame st.mem root) differ 256 (Nat.le_refl _)
  refine ⟨fun table key foreign => (others table key foreign).trans (entryAt_clearFrame_other foreign key), ?_⟩
  intro key
  have bound := key.isLt
  rw [own key, entryAt_clearFrame_self, entryAt_clearFrame_other differ.symm]
  exact if_congr (by omega) rfl rfl

theorem construct_frames (alloc : FrameAllocator σ) (st : Physical σ) (current : Addr) :
    (constructProcess alloc st current).physical.frames = (alloc.allocatePage st.frames).2 := by
  simp only [constructProcess]

/-- A new space: its user half is empty and its kernel half is that of the
current one. -/
theorem construct_own (tree : TableTree st.mem current) (held : TablesHeld alloc current st)
    (stale : Blank (fun path => region path ∧ ¬ UserHalf path) st.mem current)
    (drawn : (alloc.allocatePage st.frames).1 = root.val) (nonzero : root.val ≠ 0) :
    (constructProcess alloc st current.val).pml4Physical = root.val ∧
      OwnPages alloc region root (constructProcess alloc st current.val).physical := by
  obtain ⟨fresh, differ⟩ := drawn_fresh held drawn nonzero
  obtain ⟨others, own⟩ := construct_entries differ drawn
  have taken := alloc.taken _ held.sound (by rw [drawn]; exact nonzero)
  have frames := construct_frames alloc st current.val
  rw [drawn] at taken
  refine ⟨drawn, ?_⟩
  generalize (constructProcess alloc st current.val).physical = made at others own frames ⊢
  obtain ⟨mem, _⟩ := made
  cases frames
  refine adopted_own tree held fresh others stale ?_ ?_ (alloc.drawn_sound _ held.sound) taken
  · intro key lower
    rw [own key, if_neg (by omega)]
  · intro key upper
    rw [own key, if_pos upper]

end Space

end LunaOS.UserSpace
