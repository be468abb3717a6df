import LunaOS.PageMapping

/-! What one call of `pagingUnmapPageInSpace` does to the tree of tables. The
leaf goes first; then each table found without present entries is cut off and its
frame given back. Cutting off an empty table changes no page. -/
namespace LunaOS.PageUnmapping
open ByteMemory PageTables PointerTree PageTableTree PageMapping FrameExclusivity BitVec

/-- No entry of the table is present. -/
def Bare (mem : Memory) (table : Frame) : Prop :=
  ∀ key, checkFlag (entryAt mem table key) pagetablePresent = false

theorem index_key (index : Nat) (small : index < 512) :
    BitVec.ofNat 64 index = (BitVec.ofNat 9 index).setWidth 64 := by
  refine eq_of_toNat_eq ?_
  rw [toNat_setWidth, toNat_ofNat, toNat_ofNat]
  omega

theorem isPagetableEmpty_iff (mem : Memory) (table : Frame) :
    pagingIsPagetableEmpty mem (applyDirectmap table.val) = true ↔ Bare mem table := by
  rw [pagingIsPagetableEmpty, List.all_eq_true]
  constructor
  · intro scanned key
    have small : key.toNat < 512 := key.isLt
    have entry := scanned key.toNat (List.mem_range.mpr small)
    rw [index_key _ small, readEntry_directmap, ofNat_toNat, setWidth_eq, Bool.not_eq_true'] at entry
    exact entry
  · intro bare index member
    rw [index_key _ (List.mem_range.mp member), readEntry_directmap, bare]
    rfl

theorem unset_absent (entry : BitVec 64) : checkFlag (unsetFlag entry pagetablePresent) pagetablePresent = false := by
  have none : entry &&& ~~~pagetablePresent &&& pagetablePresent = 0 := by
    rw [BitVec.and_assoc]
    exact and_zero
  rw [checkFlag, unsetFlag, none]
  rfl

theorem unset_small (small : checkFlag entry pagetablePageSize = false) :
    checkFlag (unsetFlag entry pagetablePresent) pagetablePageSize = false := by
  have same : entry &&& ~~~pagetablePresent &&& pagetablePageSize = entry &&& pagetablePageSize := by
    rw [BitVec.and_assoc]
    rfl
  rw [checkFlag, unsetFlag, same]
  exact small

section Cut
variable {mem : Memory} {root table next : Frame} {path : List Key} {key : Key} {entry : BitVec 64}

theorem pruned_cut (absent : checkFlag entry pagetablePresent = false) :
    Pruned (child mem) (child (setEntry mem table key entry)) table key where
  gone := child_of_absent (by rw [entryAt_setEntry_self]; exact absent)
  same other slot elsewhere := by simp only [child, entryAt_setEntry_other elsewhere]

/-- An empty table is cut off from its parent: no page and no other table is
touched. -/
structure Cuts (before after : Memory) (root : Frame) (path : List Key) (gone : Frame) : Prop where
  tree : TableTree after root
  paths : ∀ probe, probe.length ≤ 3 → descend (child after) root probe =
    if path <+: probe then none else descend (child before) root probe
  kept : KeptOff (· = path) before after root
  leaves : ∀ probe key, probe.length = 3 → leaf after root probe key = leaf before root probe key
  tables : ∀ table, Table after root table → Table before root table ∧ table ≠ gone
  outside : ∀ address, (∀ table, Table before root table → 4096 ≤ (address - table.val).toNat) →
    after address = before address

/-- Nothing is found below a bare table. -/
theorem bare_below (found : descend (child mem) root path = some next) (bare : Bare mem next)
    (below : path <+: probe) (reached : descend (child mem) root probe = some other) :
    probe = path ∧ other = next := by
  obtain ⟨rest, rfl⟩ := below
  rw [descend_append, found] at reached
  obtain ⟨rfl, rfl⟩ := descend_bare (fun slot => child_of_absent (bare slot)) reached
  exact ⟨List.append_nil path, rfl⟩

theorem cuts_bare (tree : TableTree mem root)
    (found : descend (child mem) root path = some table) (inner : path.length < 3)
    (hung : descend (child mem) root (path ++ [key]) = some next) (bare : Bare mem next)
    (absent : checkFlag entry pagetablePresent = false)
    (small : path ≠ [] → checkFlag entry pagetablePageSize = false) :
    Cuts mem (setEntry mem table key entry) root (path ++ [key]) next := by
  have pruned : Pruned (child mem) _ table key := pruned_cut absent
  have paths := descend_prune tree.unshared found inner pruned
  have kept : KeptOff (· = path ++ [key]) mem (setEntry mem table key entry) root := kept_store tree found inner.le
  refine ⟨⟨unshared_prune tree.unshared found inner pruned, ?_⟩, paths, kept, ?_, ?_, ?_⟩
  · intro probe other nonempty short reached slot
    rw [paths probe (by omega)] at reached
    split at reached
    · cases reached
    · rcases kept.stored found (entryAt_setEntry_self ..) (by omega) reached slot with ⟨rfl, new⟩ | old
      · rw [new]
        exact small nonempty
      · rw [old]
        exact tree.small probe other nonempty short reached slot
  · intro probe slot deep
    simp only [leaf, paths probe (by omega)]
    cases reached : descend (child mem) root probe with
    | none => simp
    | some other =>
      split
      · rename_i below
        obtain ⟨_, rfl⟩ := bare_below hung bare below reached
        simp [bare slot]
      · simp only [Option.bind_some, kept probe other slot (by omega) reached (longer_ne inner deep)]
  · rintro other ⟨probe, short, reached⟩
    rw [paths probe short] at reached
    split at reached
    · cases reached
    · rename_i apart
      refine ⟨⟨probe, short, reached⟩, ?_⟩
      rintro rfl
      have same := tree.unshared probe (path ++ [key]) other short (by simp; omega) reached hung
      exact apart (by rw [same])
  · intro address outside
    exact setEntry_outside (outside table ⟨path, by omega, found⟩)

end Cut

section Unmapping
variable {σ : Type} {alloc : LawfulAllocator σ} {st : Physical σ} {root table next : Frame}
  {path : List Key} {key : Key} {isEmpty : Fin 3 → Memory → Addr → Bool}

/-- What was given back is a table without present entries. -/
def FreesBare (alloc : LawfulAllocator σ) (before after : Physical σ) : Prop :=
  ∀ table : Frame, alloc.held before.frames table.val → ¬ alloc.held after.frames table.val → Bare after.mem table

/-- A frame that is no table keeps its words where only tables are written. -/
theorem entryAt_outside {before after : Memory} {other : Frame}
    (outside : ∀ address, (∀ table, Table before root table → 4096 ≤ (address - table.val).toNat) →
      after address = before address) (away : ¬ Table before root other) (key : Key) :
    entryAt after other key = entryAt before other key := by
  unfold entryAt
  apply load64_congr
  intro offset inside
  apply outside
  intro table held
  apply slot_outside _ key offset inside
  rintro rfl
  exact away held

/-- Empty tables were cut off; every page is as before. -/
structure Trims (alloc : LawfulAllocator σ) (root : Frame) (before after : Physical σ) : Prop where
  tree : TableTree after.mem root
  held : TablesHeld alloc root after
  leaves : ∀ probe key, probe.length = 3 → leaf after.mem root probe key = leaf before.mem root probe key
  tables : ∀ table, Table after.mem root table → Table before.mem root table
  outside : ∀ address, (∀ table, Table before.mem root table → 4096 ≤ (address - table.val).toNat) →
    after.mem address = before.mem address
  freed : FreesBare alloc before after

theorem trims_rfl (tree : TableTree st.mem root) (held : TablesHeld alloc root st) : Trims alloc root st st :=
  ⟨tree, held, fun _ _ _ => rfl, fun _ => id, fun _ _ => rfl, fun _ before after => absurd before after⟩

theorem Trims.trans (first : Trims alloc root before middle) (second : Trims alloc root middle after) :
    Trims alloc root before after where
  tree := second.tree
  held := second.held
  leaves probe key deep := (second.leaves probe key deep).trans (first.leaves probe key deep)
  tables table := first.tables table ∘ second.tables table
  outside address out :=
    (second.outside address fun table held => out table (first.tables table held)).trans (first.outside address out)
  freed table owned given := by
    by_cases still : alloc.held middle.frames table.val
    · exact second.freed table still given
    · -- given back before, so no table any more and out of reach of the later writes
      intro key
      rw [entryAt_outside second.outside fun held => still (first.held.held table held)]
      exact first.freed table owned still key

theorem child_inv (hung : child mem table key = some next) :
    checkFlag (entryAt mem table key) pagetablePresent = true ∧ frameOf (entryAt mem table key) = next := by
  rw [child] at hung
  split at hung
  · rename_i present
    exact ⟨present, Option.some.inj hung⟩
  · cases hung

/-- Dropping a bare table cuts it off and gives its frame back. -/
theorem dropTable_trims (tree : TableTree st.mem root) (held : TablesHeld alloc root st)
    (found : descend (child st.mem) root path = some table) (inner : path.length < 3)
    (hung : child st.mem table key = some next) (bare : Bare st.mem next)
    (stored : entryAt st.mem table key = entry) :
    Trims alloc root st (dropTable alloc st (applyDirectmap table.val) (key.setWidth 64) entry) ∧
      Cuts st.mem (dropTable alloc st (applyDirectmap table.val)
        (key.setWidth 64) entry).mem root (path ++ [key]) next := by
  have reached : descend (child st.mem) root (path ++ [key]) = some next := by
    rw [descend_snoc, found]
    exact hung
  have small : path ≠ [] → checkFlag (unsetFlag entry pagetablePresent) pagetablePageSize = false :=
    fun nonempty => unset_small (stored ▸ tree.small path table nonempty inner found key)
  have cuts := cuts_bare tree found inner reached bare (unset_absent entry) small
  have mem : (dropTable alloc st (applyDirectmap table.val) (key.setWidth 64)
      entry).mem = setEntry st.mem table key (unsetFlag entry pagetablePresent) :=
    writeEntry_directmap ..
  have frames : (dropTable alloc st (applyDirectmap table.val) (key.setWidth 64)
      entry).frames = alloc.freePage st.frames next.val := by
    rw [← (child_inv hung).2, stored]
    rfl
  have owned := held.held next ⟨_, by simp; omega, reached⟩
  have freed := alloc.freed _ next.val held.sound owned
  rw [← mem] at cuts
  refine ⟨⟨cuts.tree, ⟨?_, ?_⟩, cuts.leaves, fun table still => (cuts.tables table still).1, cuts.outside, ?_⟩, cuts⟩
  · rw [frames]
    exact alloc.freed_sound _ _ held.sound owned
  · intro other still
    obtain ⟨before, differ⟩ := cuts.tables other still
    rw [frames]
    exact (freed _).mpr ⟨held.held other before, fun same => differ (Subtype.ext same)⟩
  · intro other before given slot
    have same : other = next := by
      by_contra differ
      rw [frames] at given
      exact given ((freed _).mpr ⟨before, fun same => differ (Subtype.ext same)⟩)
    have apart : other ≠ table := by
      rintro rfl
      have depth := congrArg List.length
        (tree.unshared path (path ++ [key]) other (by omega) (by simp; omega) found (same ▸ reached))
      simp at depth
    rw [mem, entryAt_setEntry_other (.inl apart), same]
    exact bare slot

/-- What one call of the unmap does to a space. -/
structure Unmaps (alloc : LawfulAllocator σ) (root : Frame) (virt : Addr) (before after : Physical σ) :
    Prop where
  tree : TableTree after.mem root
  held : TablesHeld alloc root after
  leaves : ∀ probe key, probe.length = 3 → leaf after.mem root probe key =
    if probe ++ [key] = pagePath virt then none else leaf before.mem root probe key
  tables : ∀ table, Table after.mem root table → Table before.mem root table
  outside : ∀ address, (∀ table, Table before.mem root table → 4096 ≤ (address - table.val).toNat) →
    after.mem address = before.mem address
  freed : FreesBare alloc before after

theorem unmaps_nothing (tree : TableTree st.mem root) (held : TablesHeld alloc root st)
    (absent : leaf st.mem root (tablePath virt) (ptKey virt) = none) : Unmaps alloc root virt st st := by
  refine ⟨tree, held, ?_, fun _ => id, fun _ _ => rfl, fun _ before after => absurd before after⟩
  intro probe key deep
  split
  · rename_i here
    obtain ⟨rfl, sameKey⟩ := List.append_inj' here rfl
    cases sameKey
    exact absent
  · rfl

theorem Unmaps.trims (unmaps : Unmaps alloc root virt before middle) (same : middle.frames = before.frames)
    (trims : Trims alloc root middle after) : Unmaps alloc root virt before after where
  tree := trims.tree
  held := trims.held
  leaves probe key deep := (trims.leaves probe key deep).trans (unmaps.leaves probe key deep)
  tables table := unmaps.tables table ∘ trims.tables table
  outside address out :=
    (trims.outside address fun table held => out table (unmaps.tables table held)).trans
      (unmaps.outside address out)
  freed table owned := trims.freed table (same ▸ owned)

/-- The leaf loses its present bit; the tables above are as before. -/
theorem unmaps_leaf (tree : TableTree st.mem root) (held : TablesHeld alloc root st)
    (found : descend (child st.mem) root (tablePath virt) = some table) (entry : BitVec 64) : let cleared := { st with
      mem := setEntry st.mem table (ptKey virt) (unsetFlag entry pagetablePresent) }
    Unmaps alloc root virt st cleared ∧
      ∀ {probe other}, descend (child st.mem) root probe = some other → probe.length < 3 →
        ∀ key, entryAt cleared.mem other key = entryAt st.mem other key := by
  refine ⟨⟨tree_leaf tree found rfl, held_rests held rfl (table_leaf tree found rfl), ?_,
    fun other => (table_leaf tree found rfl other).mp, ?_, fun _ before after => absurd before after⟩,
    entryAt_above tree found rfl⟩
  · intro probe key deep
    rw [leaf_leaf tree found rfl probe key deep, unset_absent]
    rfl
  · exact fun _ out => setEntry_outside (out table ⟨tablePath virt, Nat.le_refl 3, found⟩)

/-- The releases at the end of the unmap, from the page table up. -/
def releaseTables (alloc : FrameAllocator σ) (isEmpty : Fin 3 → Memory → Addr → Bool) (st : Physical σ)
    (virt : Addr) (root pdpt pd pt : Frame) (pml4e pdpte pde : BitVec 64) : Physical σ :=
  if !isEmpty 0 st.mem (applyDirectmap pt.val) then st
  else
    let st := dropTable alloc st (applyDirectmap pd.val) ((pdKey virt).setWidth 64) pde
    if !isEmpty 1 st.mem (applyDirectmap pd.val) then st
    else
      let st := dropTable alloc st (applyDirectmap pdpt.val) ((pdptKey virt).setWidth 64) pdpte
      if !isEmpty 2 st.mem (applyDirectmap pdpt.val) then st
      else dropTable alloc st (applyDirectmap root.val) ((pml4Key virt).setWidth 64) pml4e

/-- The tests report only bare tables as empty. -/
def ScansSoundly (isEmpty : Fin 3 → Memory → Addr → Bool) : Prop :=
  ∀ level mem (table : Frame), isEmpty level mem (applyDirectmap table.val) = true → Bare mem table

theorem isPagetableEmpty_sound : ScansSoundly fun _ => pagingIsPagetableEmpty :=
  fun _ mem table empty => (isPagetableEmpty_iff mem table).mp empty

/-- Above a cut every slot is as it was. -/
theorem Cuts.above (cuts : Cuts before after root path gone) (short : probe.length + 1 < path.length)
    (depth : path.length ≤ 3) (found : descend (child before) root probe = some table) (key : Key) :
    descend (child after) root probe = some table ∧ entryAt after table key = entryAt before table key ∧
      child after table key = child before table key := by
  have away : probe ++ [key] ≠ path := by
    rintro rfl
    simp at short
  have stored := cuts.kept probe table key (by omega) found away
  refine ⟨?_, stored, by simp only [child, stored]⟩
  rw [cuts.paths probe (by omega), if_neg, found]
  intro below
  have longer := below.length_le
  omega

theorem releaseTables_trims (scans : ScansSoundly isEmpty) (tree : TableTree st.mem root) (held : TablesHeld alloc root st)
    (top : child st.mem root (pml4Key virt) = some pdpt) (middle : child st.mem pdpt (pdptKey virt) = some pd)
    (bottom : child st.mem pd (pdKey virt) = some pt) (pml4e : entryAt st.mem root (pml4Key virt) = first)
    (pdpte : entryAt st.mem pdpt (pdptKey virt) = second) (pde : entryAt st.mem pd (pdKey virt) = third) :
    Trims alloc root st (releaseTables alloc isEmpty st virt root pdpt pd pt first second third) := by
  have atPdpt : descend (child st.mem) root [pml4Key virt] = some pdpt := by
    simpa [descend] using top
  have atPd : descend (child st.mem) root [pml4Key virt, pdptKey virt] = some pd := by
    simpa [descend, top] using middle
  simp only [releaseTables]
  split
  · exact trims_rfl tree held
  · rename_i bare
    rw [Bool.not_eq_true', Bool.not_eq_false] at bare
    obtain ⟨trims, cuts⟩ := dropTable_trims tree held atPd (by simp) bottom (scans _ _ _ bare) pde
    generalize dropTable alloc st (applyDirectmap pd.val) _ third = lower at *
    obtain ⟨atPdpt, pdpte', middle'⟩ := cuts.above (by simp) (by simp) atPdpt (pdptKey virt)
    obtain ⟨_, pml4e', top'⟩ := cuts.above (by simp) (by simp) descend_nil (pml4Key virt)
    rw [middle] at middle'
    rw [top] at top'
    rw [pdpte] at pdpte'
    rw [pml4e] at pml4e'
    split
    · exact trims
    · rename_i bare
      rw [Bool.not_eq_true', Bool.not_eq_false] at bare
      obtain ⟨trims', cuts'⟩ :=
        dropTable_trims trims.tree trims.held atPdpt (by simp) middle' (scans _ _ _ bare) pdpte'
      generalize dropTable alloc lower (applyDirectmap pdpt.val) _ second = upper at *
      obtain ⟨_, pml4e'', top''⟩ := cuts'.above (by simp) (by simp) descend_nil (pml4Key virt)
      rw [top'] at top''
      rw [pml4e'] at pml4e''
      have both := trims.trans trims'
      split
      · exact both
      · rename_i bare
        rw [Bool.not_eq_true', Bool.not_eq_false] at bare
        exact both.trans
          (dropTable_trims both.tree both.held descend_nil (by simp) top'' (scans _ _ _ bare) pml4e'').1

/-- On a page that is mapped, the unmap clears the leaf and releases tables; elsewhere it does nothing. -/
theorem unmap_eq (atPdpt : frameOf (entryAt st.mem root (pml4Key virt)) = pdpt)
    (atPd : frameOf (entryAt st.mem pdpt (pdptKey virt)) = pd)
    (atPt : frameOf (entryAt st.mem pd (pdKey virt)) = pt) : unmapPageScanning alloc isEmpty st virt root.val =
      if checkFlag (entryAt st.mem root (pml4Key virt)) pagetablePresent &&
        checkFlag (entryAt st.mem pdpt (pdptKey virt)) pagetablePresent &&
        checkFlag (entryAt st.mem pd (pdKey virt)) pagetablePresent &&
        checkFlag (entryAt st.mem pt (ptKey virt)) pagetablePresent then
        (addressExclude (entryAt st.mem pt (ptKey virt)), releaseTables alloc isEmpty { st with
              mem := setEntry st.mem pt (ptKey virt)
                (unsetFlag (entryAt st.mem pt (ptKey virt)) pagetablePresent) }
            virt root pdpt pd pt (entryAt st.mem root (pml4Key virt))
            (entryAt st.mem pdpt (pdptKey virt)) (entryAt st.mem pd (pdKey virt)))
      else (0, st) := by
  have pdptAddress := congrArg Subtype.val atPdpt
  have pdAddress := congrArg Subtype.val atPd
  have ptAddress := congrArg Subtype.val atPt
  simp only [frameOf] at pdptAddress pdAddress ptAddress
  simp only [unmapPageScanning, pml4Indexer_key, pdptIndexer_key, pdIndexer_key, ptIndexer_key,
    readEntry_directmap, writeEntry_directmap, pdptAddress, pdAddress, ptAddress, releaseTables]
  cases checkFlag (entryAt st.mem root (pml4Key virt)) pagetablePresent
  · rfl
  cases checkFlag (entryAt st.mem pdpt (pdptKey virt)) pagetablePresent
  · rfl
  cases checkFlag (entryAt st.mem pd (pdKey virt)) pagetablePresent
  · rfl
  cases checkFlag (entryAt st.mem pt (ptKey virt)) pagetablePresent
  · rfl
  simp only [Bool.and_self, Bool.not_true, Bool.false_eq_true, if_true, if_false]
  split
  · rfl
  · split
    · rfl
    · split <;> rfl

/-- One call of the unmap takes its own page out and nothing else; it returns the
frame the page was mapped to. -/
theorem scanning_unmaps (scans : ScansSoundly isEmpty) (tree : TableTree st.mem root)
    (held : TablesHeld alloc root st) (virt : Addr) : Unmaps alloc root virt st
        (unmapPageScanning alloc isEmpty st virt root.val).2 ∧ (unmapPageScanning alloc isEmpty st virt root.val).1 =
        ((leaf st.mem root (tablePath virt) (ptKey virt)).map addressExclude).getD 0 := by
  obtain ⟨pdpt, pd, pt, walk⟩ := tree_walk tree virt
  have mapped := walk.leaf_eq
  rw [unmap_eq walk.upper walk.middle walk.lower]
  split
  · rename_i present
    rw [if_pos present] at mapped
    rw [mapped]
    simp only [Bool.and_eq_true] at present
    obtain ⟨⟨⟨top, middle⟩, bottom⟩, _⟩ := present
    obtain ⟨unmaps, entries⟩ := unmaps_leaf tree held (walk.third top middle bottom)
      (entryAt st.mem pt (ptKey virt))
    have pml4e := entries descend_nil (by simp) (pml4Key virt)
    have pdpte := entries (walk.first top).1 (by simp) (pdptKey virt)
    have pde := entries (walk.second top middle).1 (by simp) (pdKey virt)
    refine ⟨unmaps.trims rfl (releaseTables_trims scans unmaps.tree unmaps.held ?_ ?_ ?_ pml4e pdpte pde), rfl⟩
    · rw [child, pml4e, if_pos top, walk.upper]
    · rw [child, pdpte, if_pos middle, walk.middle]
    · rw [child, pde, if_pos bottom, walk.lower]
  · rename_i absent
    rw [if_neg absent] at mapped
    rw [mapped]
    exact ⟨unmaps_nothing tree held mapped, rfl⟩

theorem unmap_unmaps (tree : TableTree st.mem root) (held : TablesHeld alloc root st) (virt : Addr) :
    Unmaps alloc root virt st (pagingUnmapPageInSpace alloc st virt root.val).2 ∧
      (pagingUnmapPageInSpace alloc st virt root.val).1 =
        ((leaf st.mem root (tablePath virt) (ptKey virt)).map addressExclude).getD 0 :=
  scanning_unmaps isPagetableEmpty_sound tree held virt

end Unmapping

end LunaOS.PageUnmapping
