import LunaOS.FrameExclusivity
import LunaOS.PageTableTree

/-! What one call of `pagingMapPageInSpace` does to the tree of tables. Entering
a level never changes a page: it follows a present entry, or hangs a fresh
cleared frame into an empty slot. The last level writes one leaf. -/
namespace LunaOS.PageMapping
open ByteMemory PageTables PointerTree PageTableTree FrameExclusivity Option

/-- In a region of the slots, those that are not present hold nothing at all. -/
def Blank (region : List Key → Prop) (mem : Memory) (root : Frame) : Prop :=
  ∀ probe table slot, probe.length ≤ 3 → descend (child mem) root probe = some table →
    region (probe ++ [slot]) → checkFlag (entryAt mem table slot) pagetablePresent = false →
    entryAt mem table slot = 0

/-- Every entry met on a path is kept, but for those at the paths that changed. -/
def KeptOff (changed : List Key → Prop) (before after : Memory) (root : Frame) : Prop :=
  ∀ probe table slot, probe.length ≤ 3 → descend (child before) root probe = some table →
    ¬ changed (probe ++ [slot]) → entryAt after table slot = entryAt before table slot

/-- The table at `path` was entered: it is there now, and no page changed. -/
structure Enters (before after : Memory) (root : Frame) (path : List Key) (next : Frame) : Prop where
  tree : TableTree after root
  paths : ∀ probe, probe.length ≤ 3 → descend (child after) root probe =
    if probe = path then some next else descend (child before) root probe
  once : ∀ table, descend (child before) root path = some table → table = next
  kept : KeptOff (· = path) before after root
  leaves : ∀ probe key, probe.length = 3 → leaf after root probe key = leaf before root probe key
  outside : ∀ address, (∀ table, Table after root table → 4096 ≤ (address - table.val).toNat) →
    after address = before address
  blank : ∀ region, Blank region before root → Blank region after root

section Levels
variable {mem : Memory} {root table : Frame} {path : List Key} {key : Key} {entry : BitVec 64}

theorem enters_same (tree : TableTree mem root) (found : descend (child mem) root path = some table)
    (present : checkFlag (entryAt mem table key) pagetablePresent = true) :
    Enters mem mem root (path ++ [key]) (frameOf (entryAt mem table key)) where
  tree := tree
  paths probe _ := by
    split
    · rename_i here
      rw [here, descend_snoc, found]
      exact child_of_present present
    · rfl
  once other reached := by
    rw [descend_snoc, found] at reached
    exact Option.some.inj (reached.symm.trans (child_of_present present))
  kept _ _ _ _ _ _ := rfl
  leaves _ _ _ := rfl
  outside _ _ := rfl
  blank _ := id

/-- Rewriting the flags of a present entry keeps every path. -/
theorem child_rewrite (present : checkFlag (entryAt mem table key) pagetablePresent = true)
    (still : checkFlag entry pagetablePresent = true) (same : frameOf entry = frameOf (entryAt mem table key)) :
    child (setEntry mem table key entry) = child mem := by
  funext other slot
  by_cases here : other = table ∧ slot = key
  · obtain ⟨rfl, rfl⟩ := here
    rw [child_of_present present, child, entryAt_setEntry_self, if_pos still, same]
  · simp only [child, entryAt_setEntry_other (not_and_or.mp here)]

/-- A store to a slot is seen at no other path. -/
theorem kept_store (tree : TableTree mem root) (found : descend (child mem) root path = some table)
    (inner : path.length ≤ 3) : KeptOff (· = path ++ [key]) mem (setEntry mem table key entry) root := by
  intro probe other slot short reached differ
  refine entryAt_setEntry_other ?_
  by_contra both
  rw [not_or, not_not, not_not] at both
  obtain ⟨rfl, rfl⟩ := both
  exact differ (by rw [tree.unshared probe path other short inner reached found])

/-- An entry met on a path is the one that was stored, or it is kept. -/
theorem KeptOff.stored (kept : KeptOff (· = path ++ [key]) mem after root)
    (found : descend (child mem) root path = some table) (new : entryAt after table key = entry)
    (short : probe.length ≤ 3) (reached : descend (child mem) root probe = some other) (slot : Key) :
    probe = path ∧ entryAt after other slot = entry ∨ entryAt after other slot = entryAt mem other slot := by
  by_cases here : probe ++ [slot] = path ++ [key]
  · obtain ⟨rfl, sameKey⟩ := List.append_inj' here rfl
    cases sameKey
    cases found.symm.trans reached
    exact .inl ⟨rfl, new⟩
  · exact .inr (kept probe other slot short reached here)

theorem longer_ne (inner : path.length < 3) (deep : probe.length = 3) : probe ++ [slot] ≠ path ++ [key] := by
  intro equal
  have lengths := congrArg List.length equal
  simp only [List.length_append, List.length_singleton] at lengths
  omega

theorem enters_rewrite (tree : TableTree mem root)
    (found : descend (child mem) root path = some table) (inner : path.length < 3)
    (present : checkFlag (entryAt mem table key) pagetablePresent = true)
    (still : checkFlag entry pagetablePresent = true) (same : frameOf entry = frameOf (entryAt mem table key))
    (small : path ≠ [] → checkFlag entry pagetablePageSize = false) :
    Enters mem (setEntry mem table key entry) root (path ++ [key]) (frameOf (entryAt mem table key)) := by
  have edges := child_rewrite present still same
  have kept : KeptOff (· = path ++ [key]) mem (setEntry mem table key entry) root := kept_store tree found inner.le
  have base := enters_same tree found present
  refine ⟨⟨by rw [edges]; exact tree.unshared, ?_⟩, ?_, base.once, kept, ?_, ?_, ?_⟩
  · intro probe other nonempty short reached slot
    rw [edges] at reached
    rcases kept.stored found (entryAt_setEntry_self ..) (by omega) reached slot with ⟨rfl, new⟩ | old
    · rw [new]
      exact small nonempty
    · rw [old]
      exact tree.small probe other nonempty short reached slot
  · rw [edges]
    exact base.paths
  · intro probe slot deep
    simp only [leaf, edges]
    cases reached : descend (child mem) root probe with
    | none => simp only [bind_none]
    | some other =>
      simp only [bind_some, kept probe other slot (by omega) reached (longer_ne inner deep)]
  · intro address outside
    exact setEntry_outside (outside table ⟨path, by omega, by rw [edges]; exact found⟩)
  · intro region blank probe other slot short reached inside absent
    rw [edges] at reached
    rcases kept.stored found (entryAt_setEntry_self ..) short reached slot with ⟨_, new⟩ | old
    · rw [new, still] at absent
      cases absent
    · rw [old] at absent ⊢
      exact blank probe other slot short reached inside absent

/-- A cleared frame hung into an empty slot. -/
theorem grafted_create (differ : frame ≠ table) (still : checkFlag entry pagetablePresent = true)
    (points : frameOf entry = frame) :
    Grafted (child mem) (child (setEntry (clearFrame mem frame) table key entry)) table key frame where
  here := by rw [child, entryAt_setEntry_self, if_pos still, points]
  bare slot := by
    refine child_of_absent ?_
    rw [entryAt_setEntry_other (.inl differ), entryAt_clearFrame_self]
    rfl
  same other slot foreign elsewhere := by
    simp only [child, entryAt_setEntry_other elsewhere, entryAt_clearFrame_other foreign]

theorem enters_create (tree : TableTree mem root)
    (found : descend (child mem) root path = some table) (inner : path.length < 3)
    (absent : checkFlag (entryAt mem table key) pagetablePresent = false)
    (fresh : ¬ Table mem root frame) (still : checkFlag entry pagetablePresent = true)
    (points : frameOf entry = frame) (small : path ≠ [] → checkFlag entry pagetablePageSize = false) :
    Enters mem (setEntry (clearFrame mem frame) table key entry) root (path ++ [key]) frame := by
  have differ : frame ≠ table := by
    rintro rfl
    exact fresh ⟨path, by omega, found⟩
  have grafted : Grafted (child mem) _ table key frame := grafted_create differ still points
  have vacant := child_of_absent absent
  have paths := descend_graft tree.unshared found inner vacant fresh grafted
  have zero : ∀ slot, entryAt (setEntry (clearFrame mem frame) table key entry) frame slot = 0 := by
    intro slot
    rw [entryAt_setEntry_other (.inl differ), entryAt_clearFrame_self]
  have kept : KeptOff (· = path ++ [key]) mem (setEntry (clearFrame mem frame) table key entry) root := by
    intro probe other slot short reached elsewhere
    have foreign : other ≠ frame := by
      rintro rfl
      exact fresh ⟨probe, short, reached⟩
    refine (entryAt_setEntry_other ?_).trans (entryAt_clearFrame_other foreign slot)
    by_contra both
    rw [not_or, not_not, not_not] at both
    obtain ⟨rfl, rfl⟩ := both
    exact elsewhere (by rw [tree.unshared probe path other short (by omega) reached found])
  refine ⟨⟨unshared_graft tree.unshared found inner vacant fresh grafted, ?_⟩, paths, ?_, kept, ?_, ?_, ?_⟩
  · intro probe other nonempty short reached slot
    rw [paths probe (by omega)] at reached
    split at reached
    · cases reached
      rw [zero]
      rfl
    · rcases kept.stored found (entryAt_setEntry_self ..) (by omega) reached slot with ⟨rfl, new⟩ | old
      · rw [new]
        exact small nonempty
      · rw [old]
        exact tree.small probe other nonempty short reached slot
  · intro other reached
    rw [descend_snoc, found] at reached
    cases reached.symm.trans vacant
  · intro probe slot deep
    simp only [leaf, paths probe (by omega)]
    split
    · rename_i here
      rw [here, descend_snoc, found]
      simp only [bind_some, zero, vacant, bind_none]
      rfl
    · cases reached : descend (child mem) root probe with
      | none => simp only [bind_none]
      | some other =>
        simp only [bind_some, kept probe other slot (by omega) reached (longer_ne inner deep)]
  · intro address outside
    have atFrame := outside frame ⟨path ++ [key], by simp; omega, by rw [paths _ (by simp; omega), if_pos rfl]⟩
    have atTable := outside table ⟨path, by omega, by rw [paths _ (by omega), if_neg (by simp), found]⟩
    rw [setEntry_outside atTable, clearFrame_outside atFrame]
  · intro region blank probe other slot short reached inside clear
    rw [paths probe short] at reached
    split at reached
    · cases reached
      exact zero slot
    · rcases kept.stored found (entryAt_setEntry_self ..) short reached slot with ⟨_, new⟩ | old
      · rw [new, still] at clear
        cases clear
      · rw [old] at clear ⊢
        exact blank probe other slot short reached inside clear

end Levels

/-- Tables along `target` were entered or hung in; nothing else of the tree changed. -/
structure Opens (before after : Memory) (root : Frame) (target : List Key) : Prop where
  tree : TableTree after root
  grown : ∀ probe table, probe.length ≤ 3 → descend (child before) root probe = some table →
    descend (child after) root probe = some table
  kept : KeptOff (· <+: target) before after root
  leaves : ∀ probe key, probe.length = 3 → leaf after root probe key = leaf before root probe key
  outside : ∀ address, (∀ table, Table after root table → 4096 ≤ (address - table.val).toNat) →
    after address = before address
  blank : ∀ region, Blank region before root → Blank region after root

/-- A table that was not there before has no present entry yet. -/
theorem Enters.empty {path : List Key} (enters : Enters before after root path next) (short : path.length ≤ 3)
    (absent : descend (child before) root path = none) (slot : Key) :
    checkFlag (entryAt after next slot) pagetablePresent = false := by
  have reached : descend (child after) root path = some next := by
    rw [enters.paths path short, if_pos rfl]
  rw [← Bool.not_eq_true]
  intro present
  by_cases inner : path.length < 3
  · have further := enters.paths (path ++ [slot]) (by simp; omega)
    rw [if_neg (by simp), descend_snoc, descend_snoc, reached, absent, bind_some, child_of_present present] at further
    cases further
  · have same := enters.leaves path slot (by omega)
    rw [leaf, leaf, reached, absent, bind_some, if_pos present] at same
    cases same

theorem Enters.opens {path : List Key} (enters : Enters before after root path next) (along : path <+: target) :
    Opens before after root target where
  tree := enters.tree
  grown probe table short reached := by
    rw [enters.paths probe short]
    split
    · rename_i here
      rw [enters.once table (here ▸ reached)]
    · exact reached
  kept probe table slot short reached away :=
    enters.kept probe table slot short reached (fun here => away (here ▸ along))
  leaves := enters.leaves
  outside := enters.outside
  blank := enters.blank

/-- A table of the new tree is the one entered or was there before. -/
theorem Enters.table_cases {path : List Key} (enters : Enters before after root path next)
    (reached : Table after root table) : table = next ∨ Table before root table := by
  obtain ⟨probe, short, found⟩ := reached
  rw [enters.paths probe short] at found
  split at found
  · exact .inl (Option.some.inj found).symm
  · exact .inr ⟨probe, short, found⟩

theorem Opens.trans (first : Opens before middle root target) (second : Opens middle after root target) :
    Opens before after root target where
  tree := second.tree
  grown probe table short reached := second.grown probe table short (first.grown probe table short reached)
  kept probe table slot short reached away :=
    (second.kept probe table slot short (first.grown probe table short reached) away).trans
      (first.kept probe table slot short reached away)
  leaves probe key deep := (second.leaves probe key deep).trans (first.leaves probe key deep)
  outside address out := by
    rw [second.outside address out, first.outside address]
    rintro table ⟨path, short, reached⟩
    exact out table ⟨path, short, second.grown path table short reached⟩
  blank region := second.blank region ∘ first.blank region

/-- The slots an address passes through. -/
def pagePath (virt : Addr) : List Key := tablePath virt ++ [ptKey virt]

/-- The tables are known by the paths to them. -/
theorem table_iff_of_paths
    (paths : ∀ probe, probe.length ≤ 3 → descend (child after) root probe = descend (child before) root probe)
    (table : Frame) : Table after root table ↔ Table before root table :=
  exists_congr fun probe => and_congr_right fun short => by rw [paths probe short]

/-- What one call of the map does to a space. -/
structure Maps (before after : Memory) (root : Frame) (virt : Addr) (entry : BitVec 64)
    (override : Bool) : Prop where
  tree : TableTree after root
  grown : ∀ probe table, probe.length ≤ 3 → descend (child before) root probe = some table →
    descend (child after) root probe = some table
  kept : KeptOff (· <+: pagePath virt) before after root
  leaves : ∀ probe key, probe.length = 3 → leaf after root probe key = if probe ++ [key] = pagePath virt then
      if override then some entry else (leaf before root probe key).or (some entry)
    else leaf before root probe key
  outside : ∀ address, (∀ table, Table after root table → 4096 ≤ (address - table.val).toNat) →
    after address = before address

section Leaves
variable {mem : Memory} {root table : Frame} {path : List Key} {key : Key} {entry : BitVec 64}

section Entries
variable (tree : TableTree mem root) (found : descend (child mem) root path = some table)
  (deep : path.length = 3)
include tree found deep

/-- A store into a table of the last level is seen by no table above. -/
theorem entryAt_above
    (reached : descend (child mem) root probe = some other) (short : probe.length < 3) (slot : Key) :
    entryAt (setEntry mem table key entry) other slot = entryAt mem other slot := by
  refine kept_store tree found (by omega) _ _ _ (by omega) reached ?_
  intro equal
  have lengths := congrArg List.length equal
  simp only [List.length_append, List.length_singleton] at lengths
  omega

theorem descend_leaf (probe : List Key) (short : probe.length ≤ 3) :
    descend (child (setEntry mem table key entry)) root probe = descend (child mem) root probe := by
  refine descend_congr ?_ probe short
  intro front other inner reached slot
  simp only [child, entryAt_above tree found deep reached inner]

theorem table_leaf (other : Frame) : Table (setEntry mem table key entry) root other ↔ Table mem root other :=
  table_iff_of_paths (descend_leaf tree found deep) other

theorem tree_leaf : TableTree (setEntry mem table key entry) root where
  unshared := by
    intro first second other firstShort secondShort here there
    rw [descend_leaf tree found deep _ firstShort] at here
    rw [descend_leaf tree found deep _ secondShort] at there
    exact tree.unshared first second other firstShort secondShort here there
  small probe other nonempty short reached slot := by
    rw [descend_leaf tree found deep probe (by omega)] at reached
    rw [entryAt_above tree found deep reached short]
    exact tree.small probe other nonempty short reached slot

theorem leaf_leaf (probe : List Key) (slot : Key) (last : probe.length = 3) :
    leaf (setEntry mem table key entry) root probe slot = if probe ++ [slot] = path ++ [key] then
        if checkFlag entry pagetablePresent then some entry else none else leaf mem root probe slot := by
  rw [leaf, descend_leaf tree found deep probe (by omega)]
  split
  · rename_i here
    obtain ⟨rfl, sameKey⟩ := List.append_inj' here rfl
    cases sameKey
    rw [found, bind_some, entryAt_setEntry_self]
  · rename_i away
    rw [leaf]
    cases reached : descend (child mem) root probe with
    | none => simp only [bind_none]
    | some other => simp only [bind_some, kept_store tree found (by omega) _ _ _ (by omega) reached away]

theorem blank_leaf (present : checkFlag entry pagetablePresent = true) (blank : Blank region mem root) :
    Blank region (setEntry mem table key entry) root := by
  intro probe other slot short reached inside clear
  rw [descend_leaf tree found deep probe short] at reached
  by_cases here : other = table ∧ slot = key
  · obtain ⟨rfl, rfl⟩ := here
    rw [entryAt_setEntry_self, present] at clear
    cases clear
  · rw [entryAt_setEntry_other (not_and_or.mp here)] at clear ⊢
    exact blank probe other slot short reached inside clear

end Entries

end Leaves

section Mapping
variable {σ : Type} {alloc : FrameAllocator σ} {st : Physical σ} {root table : Frame}
  {path : List Key} {key : Key} {flags : BitVec 64} {override : Bool}

/-- What a level asks of the frame it puts over an old entry. -/
structure Suits (mem : Memory) (root : Frame) (entry : BitVec 64) (frame : Addr) : Prop where
  nonzero : frame ≠ 0
  aligned : frame.toNat % 4096 = 0
  low : frame.toNat < 2 ^ 52
  fresh : ∀ table, Table mem root table → table.val ≠ frame
  covers : addressExclude entry ||| frame = frame

/-- Whether a level draws a frame, and what is asked of it. -/
def DrawsAt (alloc : FrameAllocator σ) (st : Physical σ) (pagetable : Addr) (index : BitVec 64)
    (good : Memory → BitVec 64 → Addr → Prop) : Prop :=
  checkFlag (readEntry st.mem pagetable index) pagetablePresent = false →
    good st.mem (readEntry st.mem pagetable index)
      (alloc.allocatePage st.frames).1

theorem override_address (entry : BitVec 64) (plain : PlainFlags flags) :
    addressExclude ((entry &&& (~~~(0 : BitVec 64)) <<< 12) ||| flags) = addressExclude entry := by
  rw [addressExclude_or, plain.address, addressExclude, BitVec.and_assoc]
  exact BitVec.or_zero

theorem override_small (entry : BitVec 64) (plain : PlainFlags flags) :
    checkFlag ((entry &&& (~~~(0 : BitVec 64)) <<< 12) ||| flags) pagetablePageSize = false := by
  have none : entry &&& (~~~(0 : BitVec 64)) <<< 12 &&& pagetablePageSize = 0 := by
    rw [BitVec.and_assoc]
    exact BitVec.and_zero
  rw [checkFlag_or, plain.small, checkFlag, none]
  rfl

/-- Where an entered table comes from: it was there, or it was drawn. -/
def Sourced (alloc : FrameAllocator σ) (st : Physical σ) (root next : Frame) (frames : σ) : Prop :=
  (Table st.mem root next ∧ frames = st.frames) ∨ (next.val ≠ 0 ∧ alloc.allocatePage st.frames = (next.val, frames))

/-- One level of the map enters its table. -/
theorem enterTable_enters (tree : TableTree st.mem root)
    (found : descend (child st.mem) root path = some table) (inner : path.length < 3) (plain : PlainFlags flags)
    (draws : DrawsAt alloc st (applyDirectmap table.val) (key.setWidth 64) fun mem => Suits mem root) :
    ∃ next : Frame, (enterTable alloc st (applyDirectmap table.val) (key.setWidth 64) flags override).1 =
        applyDirectmap next.val ∧ Enters st.mem
        (enterTable alloc st (applyDirectmap table.val) (key.setWidth 64) flags override).2.mem
        root (path ++ [key]) next ∧ Sourced alloc st root next
        (enterTable alloc st (applyDirectmap table.val) (key.setWidth 64) flags override).2.frames := by
  rw [DrawsAt, readEntry_directmap] at draws
  simp only [enterTable, readEntry_directmap, writeEntry_directmap, removeDirectmap_applyDirectmap]
  cases present : checkFlag (entryAt st.mem table key) pagetablePresent with
  | true =>
    have there : Table st.mem root (frameOf (entryAt st.mem table key)) := by
      refine ⟨path ++ [key], by simp; omega, ?_⟩
      rw [descend_snoc, found]
      exact child_of_present present
    refine ⟨frameOf (entryAt st.mem table key), ?_⟩
    cases override with
    | false => exact ⟨rfl, enters_same tree found present, .inl ⟨there, rfl⟩⟩
    | true =>
      refine ⟨rfl, enters_rewrite tree found inner present ?_ ?_ ?_, .inl ⟨there, rfl⟩⟩
      · rw [checkFlag_or, plain.present, Bool.or_true]
      · exact Subtype.ext (override_address _ plain)
      · exact fun _ => override_small _ plain
  | false =>
    have suits := draws present
    rw [if_neg Bool.false_ne_true, fill_frame ⟨_, suits.aligned⟩]
    refine ⟨⟨_, suits.aligned⟩, rfl, enters_create tree found inner present ?_ ?_ ?_ ?_, .inr ⟨suits.nonzero, rfl⟩⟩
    · exact fun held => suits.fresh _ held rfl
    · rw [checkFlag_or, checkFlag_or, plain.present, Bool.or_true, Bool.true_or]
    · refine Subtype.ext ?_
      have kept := addressExclude_frame ⟨_, suits.aligned⟩ (Nat.lt_trans suits.low (by decide))
      simp only [frameOf, addressExclude_or, plain.address, kept]
      rw [show addressExclude (entryAt st.mem table key) ||| (0 : BitVec 64) = _ from BitVec.or_zero]
      exact suits.covers
    · intro nonempty
      have stale := tree.small path table nonempty inner found key
      rw [checkFlag_or, checkFlag_or, stale, plain.small]
      exact checkFlag_frame ⟨_, suits.aligned⟩ rfl

/-- What is asked of every frame one call of the map draws. -/
def MapDraws (alloc : FrameAllocator σ) (st : Physical σ) (virt pml4Addr : Addr)
    (flags : PagingFlags) (override : Bool) (good : Memory → BitVec 64 → Addr → Prop) : Prop :=
  let pml4 := applyDirectmap pml4Addr
  let first := enterTable alloc st pml4 (pml4Indexer virt) flags.pml4Flags override
  let second := enterTable alloc first.2 first.1 (pdptIndexer virt) flags.pdptFlags override
  DrawsAt alloc st pml4 (pml4Indexer virt) good ∧ DrawsAt alloc first.2 first.1 (pdptIndexer virt) good ∧
    DrawsAt alloc second.2 second.1 (pdIndexer virt) good

/-- An invariant of the levels under which good frames suit the slots of `target`. -/
structure Supports (alloc : FrameAllocator σ) (root : Frame) (target : List Key)
    (invariant : Physical σ → Prop) (good : Memory → BitVec 64 → Addr → Prop) : Prop where
  suited : ∀ st path table key, invariant st → path.length < 3 →
    descend (child st.mem) root path = some table → path ++ [key] <+: target →
    checkFlag (entryAt st.mem table key) pagetablePresent = false →
    good st.mem (entryAt st.mem table key) (alloc.allocatePage st.frames).1 →
    Suits st.mem root (entryAt st.mem table key) (alloc.allocatePage st.frames).1
  entered : ∀ before after path next, invariant before → path.length ≤ 3 → path <+: target →
    Enters before.mem after.mem root path next → Sourced alloc before root next after.frames →
    invariant after
  rests : ∀ before after, invariant before → after.frames = before.frames → (∀ probe, probe.length ≤ 3 →
      descend (child after.mem) root probe = descend (child before.mem) root probe) →
    (∀ region, Blank region before.mem root → Blank region after.mem root) → invariant after

structure PlainPagingFlags (flags : PagingFlags) : Prop where
  pml4 : PlainFlags flags.pml4Flags
  pdpt : PlainFlags flags.pdptFlags
  pd : PlainFlags flags.pdFlags
  pt : PlainFlags flags.ptFlags

/-- The three upper levels of the map. -/
def enterTables (alloc : FrameAllocator σ) (st : Physical σ) (virt pml4Addr : Addr)
    (flags : PagingFlags) (override : Bool) : Addr × Physical σ :=
  let first := enterTable alloc st (applyDirectmap pml4Addr) (pml4Indexer virt) flags.pml4Flags override
  let second := enterTable alloc first.2 first.1 (pdptIndexer virt) flags.pdptFlags override
  enterTable alloc second.2 second.1 (pdIndexer virt) flags.pdFlags override

variable {invariant : Physical σ → Prop} {good : Memory → BitVec 64 → Addr → Prop} {flags : PagingFlags}

theorem level_opens (supports : Supports alloc root target invariant good)
    (holds : invariant st) (tree : TableTree st.mem root)
    (found : descend (child st.mem) root path = some table) (inner : path.length < 3)
    (plain : PlainFlags bits) (along : path ++ [key] <+: target)
    (draws : DrawsAt alloc st (applyDirectmap table.val) (key.setWidth 64) good) : ∃ next : Frame,
      (enterTable alloc st (applyDirectmap table.val) (key.setWidth 64) bits override).1 = applyDirectmap next.val ∧
      invariant (enterTable alloc st (applyDirectmap table.val) (key.setWidth 64) bits override).2 ∧
      Opens st.mem (enterTable alloc st (applyDirectmap table.val) (key.setWidth 64) bits override).2.mem
        root target ∧ descend (child (enterTable alloc st (applyDirectmap table.val) (key.setWidth 64) bits
        override).2.mem) root (path ++ [key]) = some next ∧
      DrawsAt alloc st (applyDirectmap table.val) (key.setWidth 64) fun mem => Suits mem root := by
  have suited : DrawsAt alloc st (applyDirectmap table.val) (key.setWidth 64)
      fun mem => Suits mem root := by
    intro absent
    have drawn := draws absent
    rw [readEntry_directmap] at absent drawn ⊢
    exact supports.suited st path table key holds inner found along absent drawn
  obtain ⟨next, address, enters, source⟩ := enterTable_enters tree found inner plain suited
  refine ⟨next, address, supports.entered _ _ _ _ holds (by simp; omega) along enters source, enters.opens along, ?_, suited⟩
  rw [enters.paths _ (by simp; omega), if_pos rfl]

theorem enterTables_opens (supports : Supports alloc root (pagePath virt) invariant good)
    (holds : invariant st) (tree : TableTree st.mem root) (plain : PlainPagingFlags flags)
    (draws : MapDraws alloc st virt root.val flags override good) : ∃ pt : Frame,
      (enterTables alloc st virt root.val flags override).1 = applyDirectmap pt.val ∧
      invariant (enterTables alloc st virt root.val flags override).2 ∧
      Opens st.mem (enterTables alloc st virt root.val flags override).2.mem root (pagePath virt) ∧
      descend (child (enterTables alloc st virt root.val flags override).2.mem) root (tablePath virt) = some pt ∧
      MapDraws alloc st virt root.val flags override fun mem => Suits mem root := by
  obtain ⟨top, middle, bottom⟩ := draws
  simp only [pml4Indexer_key, pdptIndexer_key, pdIndexer_key] at top middle bottom
  simp only [enterTables, MapDraws, pml4Indexer_key, pdptIndexer_key, pdIndexer_key]
  have first : [] ++ [pml4Key virt] <+: pagePath virt := by simp [pagePath, tablePath]
  have second : [] ++ [pml4Key virt] ++ [pdptKey virt] <+: pagePath virt := by simp [pagePath, tablePath]
  have third : [] ++ [pml4Key virt] ++ [pdptKey virt] ++ [pdKey virt] <+: pagePath virt := by
    simp [pagePath, tablePath]
  obtain ⟨pdpt, atPdpt, holds, opens, found, topSuits⟩ :=
    level_opens supports holds tree descend_nil (by simp) plain.pml4 first top
  rw [atPdpt] at middle bottom ⊢
  obtain ⟨pd, atPd, holds, secondOpens, found, middleSuits⟩ :=
    level_opens supports holds opens.tree found (by simp) plain.pdpt second middle
  rw [atPd] at bottom ⊢
  obtain ⟨pt, atPt, holds, thirdOpens, found, bottomSuits⟩ :=
    level_opens supports holds secondOpens.tree found (by simp) plain.pd third bottom
  exact ⟨pt, atPt, holds, (opens.trans secondOpens).trans thirdOpens, found, topSuits, middleSuits, bottomSuits⟩

theorem pagingMapPageInSpace_eq (phys : Addr) : pagingMapPageInSpace alloc st virt phys pml4Addr flags override =
      let entered := enterTables alloc st virt pml4Addr flags override
      if !checkFlag (readEntry entered.2.mem entered.1 (ptIndexer virt)) pagetablePresent || override then
        { entered.2 with
          mem := writeEntry entered.2.mem entered.1 (ptIndexer virt) (0 ||| flags.ptFlags ||| phys) }
      else entered.2 := rfl

theorem map_maps (supports : Supports alloc root (pagePath virt) invariant good)
    (holds : invariant st) (tree : TableTree st.mem root) (plain : PlainPagingFlags flags)
    (draws : MapDraws alloc st virt root.val flags override good) (phys : Addr) :
    Maps st.mem (pagingMapPageInSpace alloc st virt phys root.val flags override).mem
        root virt (0 ||| flags.ptFlags ||| phys) override ∧
      invariant (pagingMapPageInSpace alloc st virt phys root.val flags override) := by
  obtain ⟨pt, address, settled, opens, found, _⟩ := enterTables_opens supports holds tree plain draws
  have deep : (tablePath virt).length = 3 := rfl
  have present : checkFlag (0 ||| flags.ptFlags ||| phys) pagetablePresent = true := by
    rw [checkFlag_or, checkFlag_or, plain.pt.present, Bool.or_true, Bool.true_or]
  rw [pagingMapPageInSpace_eq]
  simp only [address, ptIndexer_key, readEntry_directmap, writeEntry_directmap]
  generalize enterTables alloc st virt root.val flags override = entered at *
  have current : leaf st.mem root (tablePath virt) (ptKey virt) =
      if checkFlag (entryAt entered.2.mem pt (ptKey virt)) pagetablePresent then
        some (entryAt entered.2.mem pt (ptKey virt)) else none := by
    rw [← opens.leaves _ _ deep, leaf, found, bind_some]
  split
  · rename_i written
    refine ⟨⟨tree_leaf opens.tree found deep, ?_, ?_, ?_, ?_⟩,
      supports.rests _ _ settled rfl (descend_leaf opens.tree found deep)
        fun _ => blank_leaf opens.tree found deep present⟩
    · intro probe table short reached
      rw [descend_leaf opens.tree found deep probe short]
      exact opens.grown probe table short reached
    · intro probe table slot short reached away
      have there := opens.grown probe table short reached
      rw [kept_store opens.tree found deep.le _ _ _ short there]
      · exact opens.kept probe table slot short reached away
      · intro here
        exact away (by rw [here]; exact List.prefix_rfl)
    · intro probe key last
      rw [leaf_leaf opens.tree found deep probe key last, if_pos present, opens.leaves probe key last]
      split
      · rename_i here
        obtain ⟨rfl, sameKey⟩ := List.append_inj' here rfl
        cases sameKey
        rw [if_pos (show tablePath virt ++ [ptKey virt] = pagePath virt from rfl), current]
        cases override with
        | true => rfl
        | false =>
          rw [Bool.or_false, Bool.not_eq_true'] at written
          rw [written]
          rfl
      · rename_i away
        exact (if_neg away).symm
    · intro address out
      have atTable := out pt ((table_leaf opens.tree found deep pt).mpr ⟨_, deep.le, found⟩)
      refine (setEntry_outside atTable).trans (opens.outside address ?_)
      exact fun table held => out table ((table_leaf opens.tree found deep table).mpr held)
  · rename_i unwritten
    rw [Bool.or_eq_true, not_or, Bool.not_eq_true', Bool.not_eq_false, Bool.not_eq_true] at unwritten
    obtain ⟨here, rfl⟩ := unwritten
    refine ⟨⟨opens.tree, opens.grown, opens.kept, ?_, opens.outside⟩, settled⟩
    intro probe key last
    rw [opens.leaves probe key last]
    split
    · rename_i same
      obtain ⟨rfl, sameKey⟩ := List.append_inj' same rfl
      cases sameKey
      rw [current, if_pos here]
      rfl
    · rfl

end Mapping

section Lawful
variable {σ : Type} {alloc : LawfulAllocator σ} {root : Frame}

/-- The allocator counts every table of the space as held. -/
structure TablesHeld (alloc : LawfulAllocator σ) (root : Frame) (st : Physical σ) : Prop where
  sound : alloc.sound st.frames
  held : ∀ table, Table st.mem root table → alloc.held st.frames table.val

/-- All the allocator lends from lies below 2^52. -/
def LowReserve (alloc : LawfulAllocator σ) : Prop :=
  ∀ frame, alloc.reserve frame → frame.toNat < 2 ^ 52

theorem held_suits (low : LowReserve alloc) (held : TablesHeld alloc root st)
    (nonzero : (alloc.allocatePage st.frames).1 ≠ 0)
    (covers : addressExclude entry ||| (alloc.allocatePage st.frames).1 = (alloc.allocatePage st.frames).1) :
    Suits st.mem root entry (alloc.allocatePage st.frames).1 := by
  obtain ⟨reserve, free⟩ := alloc.drawn _ held.sound nonzero
  refine ⟨nonzero, alloc.aligned _ reserve, low _ reserve, ?_, covers⟩
  intro table reached same
  exact free (same ▸ held.held table reached)

theorem held_entered (held : TablesHeld alloc root before) (enters : Enters before.mem after.mem root path next)
    (source : Sourced alloc before root next after.frames) : TablesHeld alloc root after := by
  rcases source with ⟨there, same⟩ | ⟨nonzero, drawn⟩
  · rw [show after = ⟨after.mem, before.frames⟩ by rw [← same]]
    refine ⟨held.sound, fun table reached => ?_⟩
    rcases enters.table_cases reached with rfl | old
    · exact held.held table there
    · exact held.held table old
  · obtain ⟨keeps, _, taken⟩ := alloc.draw_spec held.sound nonzero drawn
    refine ⟨keeps, fun table reached => (taken _).mpr ?_⟩
    rcases enters.table_cases reached with rfl | old
    · exact .inr rfl
    · exact .inl (held.held table old)

theorem held_rests (held : TablesHeld alloc root before) (frames : after.frames = before.frames)
    (tables : ∀ table, Table after.mem root table ↔ Table before.mem root table) : TablesHeld alloc root after :=
  ⟨frames ▸ held.sound, fun table reached => frames ▸ held.held table ((tables table).mp reached)⟩

end Lawful

end LunaOS.PageMapping
