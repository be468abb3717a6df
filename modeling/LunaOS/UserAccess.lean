import LunaOS.KernelHalf

/-! What a user thread may touch. The processor asks for the user flag at every
level of the walk; the map sets it on every entry it writes for a user page, so in
the user half being mapped and being accessible are the same. -/
namespace LunaOS.UserAccess
open ByteMemory PageTables PointerTree PageTableTree PageMapping FrameExclusivity PageTranslation
open UserspaceAllocator UserSpace KernelHalf

/-- `PAGETABLE_USERSUPER` and `PAGE_USERSUPER` -/
def pagetableUsersuper : BitVec 64 := 4

/-- An entry that lets a user thread through. -/
def passes (entry : BitVec 64) : Bool := checkFlag entry pagetablePresent && checkFlag entry pagetableUsersuper

/-- Whether a user thread may touch an address in the space of `pml4Addr`. -/
def userAccess (mem : Memory) (pml4Addr virt : Addr) : Bool :=
  let pml4e := readEntry mem (applyDirectmap pml4Addr) (pml4Indexer virt)
  let pdpte := readEntry mem (applyDirectmap (addressExclude pml4e)) (pdptIndexer virt)
  let pde := readEntry mem (applyDirectmap (addressExclude pdpte)) (pdIndexer virt)
  let pte := readEntry mem (applyDirectmap (addressExclude pde)) (ptIndexer virt)
  canonical virt && passes pml4e && passes pdpte &&
    (checkFlag pdpte pagetablePageSize || passes pde && (checkFlag pde pagetablePageSize || passes pte))

/-- Every present entry of the user half has the user flag. -/
def Flagged (mem : Memory) (root : Frame) : Prop :=
  ∀ probe table slot, probe.length ≤ 3 → UserHalf (probe ++ [slot]) → descend (child mem) root probe = some table →
    checkFlag (entryAt mem table slot) pagetablePresent = true →
    checkFlag (entryAt mem table slot) pagetableUsersuper = true

section Access
variable {mem : Memory} {root : Frame} {virt : Addr}

theorem Flagged.passes (flagged : Flagged mem root) (user : (pml4Key virt).toNat < 256) (probe : List Key)
    (along : probe ++ [slot] <+: pagePath virt) (reached : descend (child mem) root probe = some table) :
    passes (entryAt mem table slot) = checkFlag (entryAt mem table slot) pagetablePresent := by
  have lengths := along.length_le
  simp only [pagePath, tablePath, List.length_append, List.length_cons, List.length_nil] at lengths
  have inside := userHalf_page user _ along (by simp)
  cases present : checkFlag (entryAt mem table slot) pagetablePresent with
  | false => simp [UserAccess.passes, present]
  | true => simp [UserAccess.passes, present, flagged probe table slot (by omega) inside reached present]

/-- In the user half, what is mapped is what a user thread may touch. -/
theorem userAccess_iff (tree : TableTree mem root) (flagged : Flagged mem root) (user : virt.toNat < 2 ^ 47) :
    userAccess mem root.val virt = true ↔ leaf mem root (tablePath virt) (ptKey virt) ≠ none := by
  obtain ⟨pdpt, pd, pt, walk⟩ := tree_walk tree virt
  have step (probe slot table) (along : probe ++ [slot] <+: [pml4Key virt, pdptKey virt, pdKey virt, ptKey virt])
      (reached : descend (child mem) root probe = some table) := flagged.passes (key_of_user user) probe along reached
  have upper := step [] (pml4Key virt) root (by simp) rfl
  have middle (top) := step _ (pdptKey virt) _ (by simp) (walk.first top).1
  have lower (top middle) := step _ (pdKey virt) _ (by simp) (walk.second top middle).1
  have last (top middle bottom) := step _ (ptKey virt) _ (by simp) (walk.third top middle bottom)
  simp only [userAccess, canonical_user user, pml4Indexer_key, pdptIndexer_key, pdIndexer_key, ptIndexer_key,
    readEntry_directmap, readEntry_frameOf, walk.upper, walk.middle, walk.lower, walk.leaf_eq]
  have first := walk.first
  have second := walk.second
  grind

/-- A user thread touches no address the processor refuses. -/
theorem userAccess_canonical (access : userAccess mem pml4Addr virt = true) : canonical virt = true := by
  simp only [userAccess, Bool.and_eq_true] at access
  exact access.1.1.1

end Access

/-! ## The flag is kept -/

section Levels
variable {σ : Type} {mem before after : Memory} {st : Physical σ} {root table next : Frame} {path : List Key}
  {slot : Key} {bits : BitVec 64}

/-- A level that puts the flag on its slot. -/
theorem flagged_enters (flagged : Flagged before root) (enters : Enters before after root (path ++ [slot]) next)
    (inner : path.length < 3) (found : descend (child before) root path = some table)
    (set : checkFlag (entryAt after table slot) pagetableUsersuper = true) : Flagged after root := by
  have short : (path ++ [slot]).length ≤ 3 := by
    simp
    omega
  intro probe node key shallow user reached present
  rw [enters.paths probe shallow] at reached
  split at reached
  · rename_i here
    subst here
    cases reached
    cases old : descend (child before) root (path ++ [slot]) with
    | none =>
      rw [enters.empty short old] at present
      cases present
    | some there =>
      cases enters.once there old
      rw [enters.kept _ _ key short old (by simp)] at present ⊢
      exact flagged _ _ key short user old present
  · by_cases here : probe ++ [key] = path ++ [slot]
    · obtain ⟨rfl, same⟩ := List.append_inj' here rfl
      cases same
      rw [found] at reached
      cases reached
      exact set
    · rw [enters.kept probe node key shallow reached here] at present ⊢
      exact flagged probe node key shallow user reached present

/-- The slot a level works on has the flags asked for, unless it was present without them. -/
theorem enterTable_flag {alloc : FrameAllocator σ} (marked : checkFlag bits flag = true)
    (old : checkFlag (entryAt st.mem table slot) pagetablePresent = true →
      checkFlag (entryAt st.mem table slot) flag = true) :
    checkFlag (entryAt (enterTable alloc st (applyDirectmap table.val) (slot.setWidth 64) bits
      false).2.mem table slot) flag = true := by
  cases present : checkFlag (entryAt st.mem table slot) pagetablePresent with
  | true =>
    rw [enterTable_present present]
    exact old present
  | false =>
    simp only [enterTable, readEntry_directmap, writeEntry_directmap, present, Bool.false_eq_true, if_false,
      entryAt_setEntry_self, checkFlag_or, marked, Bool.or_true, Bool.true_or]

theorem level_flagged {alloc : FrameAllocator σ} (tree : TableTree st.mem root)
    (flagged : Flagged st.mem root) (found : descend (child st.mem) root path = some table)
    (inner : path.length < 3) (user : UserHalf (path ++ [slot])) (plain : PlainFlags bits)
    (marked : checkFlag bits pagetableUsersuper = true)
    (draws : DrawsAt alloc st (applyDirectmap table.val) (slot.setWidth 64) fun mem => Suits mem root) :
    ∃ next : Frame, (enterTable alloc st (applyDirectmap table.val) (slot.setWidth 64) bits false).1 =
        applyDirectmap next.val ∧
      let entered := (enterTable alloc st (applyDirectmap table.val) (slot.setWidth 64) bits false).2.mem
      TableTree entered root ∧ descend (child entered) root (path ++ [slot]) = some next ∧ Flagged entered root := by
  obtain ⟨next, address, enters, _⟩ := enterTable_enters tree found inner plain draws
  refine ⟨next, address, enters.tree, ?_, flagged_enters flagged enters inner found (enterTable_flag marked ?_)⟩
  · rw [enters.paths _ (by simp; omega), if_pos rfl]
  · exact fun present => flagged path table slot (by omega) user found present

theorem flagged_leaf (tree : TableTree mem root) (flagged : Flagged mem root)
    (found : descend (child mem) root path = some table) (deep : path.length = 3)
    (set : checkFlag entry pagetableUsersuper = true) : Flagged (setEntry mem table slot entry) root := by
  intro probe node key short user reached present
  rw [descend_leaf tree found deep probe short] at reached
  by_cases here : probe ++ [key] = path ++ [slot]
  · obtain ⟨rfl, same⟩ := List.append_inj' here rfl
    cases same
    rw [found] at reached
    cases reached
    rw [entryAt_setEntry_self]
    exact set
  · rw [kept_store tree found deep.le _ _ _ short reached here] at present ⊢
    exact flagged probe node key short user reached present

theorem enterTables_flagged {alloc : FrameAllocator σ} (tree : TableTree st.mem root)
    (flagged : Flagged st.mem root) (user : UserPage virt)
    (draws : MapDraws alloc st virt root.val userspaceDefaultPagingFlags false fun mem => Suits mem root) :
    ∃ pt : Frame, (enterTables alloc st virt root.val userspaceDefaultPagingFlags false).1 = applyDirectmap pt.val ∧
      let entered := (enterTables alloc st virt root.val userspaceDefaultPagingFlags false).2.mem
      TableTree entered root ∧ descend (child entered) root (tablePath virt) = some pt ∧ Flagged entered root := by
  have plain := userspace_plain
  obtain ⟨top, middle, bottom⟩ := draws
  simp only [pml4Indexer_key, pdptIndexer_key, pdIndexer_key] at top middle bottom
  simp only [enterTables, pml4Indexer_key, pdptIndexer_key, pdIndexer_key]
  obtain ⟨pdpt, atPdpt, tree, found, flagged⟩ :=
    level_flagged tree flagged descend_nil (by simp) user plain.pml4 (by decide) top
  rw [atPdpt] at middle bottom ⊢
  obtain ⟨pd, atPd, tree, found, flagged⟩ :=
    level_flagged tree flagged found (by simp) user plain.pdpt (by decide) middle
  rw [atPd] at bottom ⊢
  obtain ⟨pt, atPt, tree, found, flagged⟩ :=
    level_flagged tree flagged found (by simp) user plain.pd (by decide) bottom
  exact ⟨pt, atPt, tree, found, flagged⟩

end Levels

section Pages
variable {σ : Type} {alloc : LawfulAllocator σ} {root : Frame} {st : Physical σ}

section Flags
variable (low : LowReserve alloc) (own : OwnPages alloc UserHalf root st)
  (flagged : Flagged st.mem root)
include low own flagged

theorem mapPage_flagged (page : InUserHalf alloc root st virt) :
    Flagged (mapPage alloc root.val userspaceDefaultPagingFlags st virt).mem root := by
  obtain ⟨drawn, user⟩ := page
  have after := (own.draw drawn.1).1
  have spared : Spared alloc root (fun _ => False)
      { st with frames := (alloc.allocatePage st.frames).2 } := fun _ none => none.elim
  obtain ⟨_, _, _, _, _, suits⟩ := enterTables_opens (spared_supports low (userHalf_page user) _)
    ⟨after.blank, after.held, spared⟩ after.tree userspace_plain drawn.2
  obtain ⟨pt, address, tree, found, flagged⟩ := enterTables_flagged after.tree flagged user suits
  simp only [mapPage, pagingMapPageInSpace_eq, address, ptIndexer_key, readEntry_directmap, writeEntry_directmap]
  split
  · refine flagged_leaf tree flagged found rfl ?_
    rw [checkFlag_or, checkFlag_or]
    simp [show checkFlag userspaceDefaultPagingFlags.ptFlags pagetableUsersuper = true by decide]
  · exact flagged

/-- Pages of the user half, mapped one after the other: they are there in the end, what was there
still is, and nothing else. -/
theorem mapPages_leaves (user : EachPage alloc root (InUserHalf alloc root) st pages) :
    let mapped := (mapPages alloc root.val userspaceDefaultPagingFlags st pages).mem
    Flagged mapped root ∧ ∀ path key, path.length = 3 → (leaf mapped root path key ≠ none ↔
      leaf st.mem root path key ≠ none ∨ ∃ virt ∈ pages, path ++ [key] = pagePath virt) := by
  induction pages generalizing st with
  | nil => exact ⟨flagged, by simp [mapPages]⟩
  | cons virt rest ih =>
    obtain ⟨here, later⟩ := user
    obtain ⟨maps, after⟩ := mapPage_own low own userspace_plain (userHalf_page here.2) here.1
    obtain ⟨flagged, leaves⟩ := ih after (mapPage_flagged low own flagged here) later
    refine ⟨flagged, fun path key deep => ?_⟩
    rw [mapPages, List.foldl_cons, ← mapPages, leaves path key deep, maps.leaves path key deep,
      List.exists_mem_cons_iff]
    split
    · rename_i same
      simp [same]
    · rename_i other
      simp [other]

end Flags

end Pages

end LunaOS.UserAccess
