import LunaOS.UserSpace

/-! What user requests do to the kernel half of a space. A page whose address has
bit 47 clear leaves it alone, and so does one that is mapped already; any other
page is entered into it. -/
namespace LunaOS.KernelHalf
open ByteMemory PageArithmetic PageTables PointerTree PageTableTree PageMapping FrameExclusivity PageTranslation
open RangeAllocator UserspaceAllocator UserSpace
open BitmapAllocator (physicalAllocator)

/-- Slots of the last 256 entries of the root and below. -/
def UpperHalf : List Key → Prop
  | [] => False
  | first :: _ => 256 ≤ first.toNat

/-- No entry of the kernel half was created or changed. -/
def KernelKept (before after : Memory) (root : Frame) : Prop :=
  ∀ probe table slot, probe.length ≤ 3 → UpperHalf (probe ++ [slot]) →
    descend (child before) root probe = some table → entryAt after table slot = entryAt before table slot

/-- The address of a page as the map reads it has bit 47 clear. -/
def UserPage (virt : Addr) : Prop := (pml4Key virt).toNat < 256

instance (virt : Addr) : Decidable (UserPage virt) := inferInstanceAs (Decidable (_ < _))

section Pages
variable {σ : Type}

/-- A call of the map for a page of its own, and whether it left the kernel half alone. -/
def KeepsKernel (alloc : FrameAllocator σ) (root : Frame) (st : Physical σ) (virt : Addr) : Prop :=
  KernelKept st.mem (mapPage alloc root.val userspaceDefaultPagingFlags st virt).mem root

/-- The frames drawn for a page are not null. -/
abbrev Drawn (alloc : FrameAllocator σ) (root : Frame) (st : Physical σ) (virt : Addr) : Prop :=
  PageSupplied alloc root userspaceDefaultPagingFlags st virt

/-- The page is mapped already. -/
def Mapped (root : Frame) (st : Physical σ) (virt : Addr) : Prop :=
  leaf st.mem root (tablePath virt) (ptKey virt) ≠ none

variable {alloc : LawfulAllocator σ} {root : Frame} {st : Physical σ} {flags : PagingFlags}

theorem enterTable_present {alloc : FrameAllocator σ} {bits : BitVec 64}
    (present : checkFlag (entryAt st.mem table key) pagetablePresent = true) :
    enterTable alloc st (applyDirectmap table.val) (key.setWidth 64) bits false =
      (applyDirectmap (frameOf (entryAt st.mem table key)).val, st) := by
  simp only [enterTable, readEntry_directmap, present, if_true, Bool.false_eq_true, if_false, frameOf]

/-- The map of a present page without override does nothing. -/
theorem map_present {alloc : FrameAllocator σ}
    (present : leaf st.mem root (tablePath virt) (ptKey virt) ≠ none) (phys : Addr) :
    pagingMapPageInSpace alloc st virt phys root.val flags false = st := by
  obtain ⟨entry, found⟩ := Option.ne_none_iff_exists'.mp present
  rw [leaf, descend_tablePath] at found
  simp only [Option.bind_eq_some_iff, child, Option.ite_none_right_eq_some, Option.some.injEq] at found
  obtain ⟨pt, ⟨pdpt, ⟨top, rfl⟩, pd, ⟨middle, rfl⟩, bottom, rfl⟩, last, rfl⟩ := found
  simp only [pagingMapPageInSpace, pml4Indexer_key, pdptIndexer_key, pdIndexer_key, ptIndexer_key,
    enterTable_present top, enterTable_present middle, enterTable_present bottom, readEntry_directmap, last,
    Bool.not_true, Bool.or_false, Bool.false_eq_true, if_false]

/-- A present slot of a held table. -/
def Lit (alloc : LawfulAllocator σ) (st : Physical σ) (table : Frame) (key : Key) : Prop :=
  alloc.held st.frames table.val ∧ checkFlag (entryAt st.mem table key) pagetablePresent = true

/-- Once present, the slot of a held table stays present; the slot a level works
on becomes so. -/
theorem enterTable_lights {bits : BitVec 64} (sound : alloc.sound st.frames) (plain : PlainFlags bits)
    (draws : DrawsAt alloc st (applyDirectmap own.val) (slot.setWidth 64) fun _ _ frame => frame ≠ 0) :
    let entered := enterTable alloc st (applyDirectmap own.val) (slot.setWidth 64) bits
      false
    alloc.sound entered.2.frames ∧ (∃ next : Frame, entered.1 = applyDirectmap next.val) ∧
      ∀ table key, Lit alloc st table key ∨
        alloc.held st.frames table.val ∧ table = own ∧ key = slot → Lit alloc entered.2 table key := by
  cases present : checkFlag (entryAt st.mem own slot) pagetablePresent with
  | true =>
    simp only [enterTable_present present]
    refine ⟨sound, ⟨_, rfl⟩, ?_⟩
    rintro table key (lit | ⟨held, rfl, rfl⟩)
    · exact lit
    · exact ⟨held, present⟩
  | false =>
    rw [DrawsAt, readEntry_directmap] at draws
    have found := draws present
    obtain ⟨reserve, free⟩ := alloc.drawn _ sound found
    have taken := alloc.taken _ sound found
    have aligned := alloc.aligned _ reserve
    simp only [enterTable, readEntry_directmap, writeEntry_directmap, removeDirectmap_applyDirectmap, present,
      Bool.false_eq_true, if_false, fill_frame ⟨_, aligned⟩]
    refine ⟨alloc.drawn_sound _ sound, ⟨⟨_, aligned⟩, rfl⟩, ?_⟩
    intro table key lit
    have held : alloc.held st.frames table.val := lit.elim (·.1) (·.1)
    refine ⟨(taken _).mpr (.inl held), ?_⟩
    have apart : table ≠ ⟨_, aligned⟩ := by
      rintro rfl
      exact free held
    by_cases here : table = own ∧ key = slot
    · obtain ⟨rfl, rfl⟩ := here
      rw [entryAt_setEntry_self, checkFlag_or, checkFlag_or, plain.present, Bool.or_true, Bool.true_or]
    · rw [entryAt_setEntry_other (not_and_or.mp here), entryAt_clearFrame_other apart]
      exact (lit.resolve_right fun own => here own.2).2

theorem applyDirectmap_inj {first second : Frame} (same : applyDirectmap first.val = applyDirectmap second.val) :
    first = second := by
  have removed := congrArg removeDirectmap same
  rw [removeDirectmap_applyDirectmap, removeDirectmap_applyDirectmap] at removed
  exact Subtype.ext removed

/-- The slots of a path below `table`, as far as it goes, end up present. -/
structure Lights (alloc : LawfulAllocator σ) (path : List Key) (table : Frame) (before after : Physical σ) :
    Prop where
  stay : ∀ node key, Lit alloc before node key → Lit alloc after node key
  along : ∀ probe slot node, probe ++ [slot] <+: path → descend (child before.mem) table probe = some node →
    alloc.held before.frames node.val → Lit alloc after node slot

theorem lights_enter {bits : BitVec 64} (sound : alloc.sound st.frames) (plain : PlainFlags bits)
    (draws : DrawsAt alloc st (applyDirectmap table.val) (key.setWidth 64) fun _ _ frame => frame ≠ 0)
    (rest : ∀ next : Frame, (enterTable alloc st (applyDirectmap table.val) (key.setWidth 64) bits false).1 =
        applyDirectmap next.val → alloc.sound (enterTable alloc st (applyDirectmap table.val) (key.setWidth 64)
        bits false).2.frames → Lights alloc path next (enterTable alloc st (applyDirectmap table.val)
        (key.setWidth 64) bits false).2 after) : Lights alloc (key :: path) table st after := by
  obtain ⟨keeps, ⟨next, address⟩, lit⟩ := enterTable_lights sound plain draws
  have below := rest next address keeps
  refine ⟨fun node slot before => below.stay node slot (lit node slot (.inl before)), ?_⟩
  intro probe slot node along reached held
  cases probe with
  | nil =>
    obtain ⟨rfl, _⟩ := List.cons_prefix_cons.mp along
    cases reached
    exact below.stay table slot (lit table slot (.inr ⟨held, rfl, rfl⟩))
  | cons first probe =>
    obtain ⟨rfl, further⟩ := List.cons_prefix_cons.mp along
    cases present : checkFlag (entryAt st.mem table first) pagetablePresent with
    | false =>
      rw [show descend (child st.mem) table (first :: probe) =
        (child st.mem table first).bind fun node => descend (child st.mem) node probe from rfl,
        child_of_absent present] at reached
      cases reached
    | true =>
      rw [show descend (child st.mem) table (first :: probe) =
        (child st.mem table first).bind fun node => descend (child st.mem) node probe from rfl,
        child_of_present present, Option.bind_some] at reached
      have same : enterTable alloc st (applyDirectmap table.val) (first.setWidth 64) bits
          false = _ := enterTable_present present
      rw [same] at address below
      cases applyDirectmap_inj address
      exact below.along probe slot node further reached held

theorem lights_leaf (plain : PlainFlags bits) (pt : Frame) (slot : Key) (phys : Addr) :
    Lights alloc [slot] pt st (if !checkFlag (entryAt st.mem pt slot) pagetablePresent || false then
        { st with mem := setEntry st.mem pt slot (0 ||| bits ||| phys) } else st) := by
  have single : ∀ probe key node, probe ++ [key] <+: [slot] →
      descend (child st.mem) pt probe = some node → node = pt ∧ key = slot := by
    intro probe key node along reached
    cases probe with
    | nil => exact ⟨(Option.some.inj reached).symm, (List.cons_prefix_cons.mp along).1⟩
    | cons first rest =>
      have lengths := along.length_le
      simp at lengths
  split
  · refine ⟨fun node key lit => ⟨lit.1, ?_⟩, fun probe key node along reached held => ⟨held, ?_⟩⟩
    · by_cases here : node = pt ∧ key = slot
      · obtain ⟨rfl, rfl⟩ := here
        rw [entryAt_setEntry_self, checkFlag_or, checkFlag_or, plain.present, Bool.or_true, Bool.true_or]
      · rw [entryAt_setEntry_other (not_and_or.mp here)]
        exact lit.2
    · obtain ⟨rfl, rfl⟩ := single probe key node along reached
      rw [entryAt_setEntry_self, checkFlag_or, checkFlag_or, plain.present, Bool.or_true, Bool.true_or]
  · rename_i present
    rw [Bool.or_false, Bool.not_eq_true', Bool.not_eq_false] at present
    refine ⟨fun _ _ => id, fun probe key node along reached held => ⟨held, ?_⟩⟩
    obtain ⟨rfl, rfl⟩ := single probe key node along reached
    exact present

/-- Every slot on the path of a page whose table was there ends up present. -/
theorem map_lights (sound : alloc.sound st.frames) (plain : PlainPagingFlags flags)
    (draws : MapDraws alloc st virt root.val flags false fun _ _ frame => frame ≠ 0) (phys : Addr) :
    Lights alloc (pagePath virt) root st (pagingMapPageInSpace alloc st virt phys root.val flags false) := by
  obtain ⟨top, middle, bottom⟩ := draws
  simp only [pml4Indexer_key, pdptIndexer_key, pdIndexer_key] at top middle bottom
  simp only [pagingMapPageInSpace, pml4Indexer_key, pdptIndexer_key, pdIndexer_key, ptIndexer_key]
  refine lights_enter sound plain.pml4 top fun pdpt atPdpt sound => ?_
  rw [atPdpt] at middle bottom ⊢
  refine lights_enter sound plain.pdpt middle fun pd atPd sound => ?_
  rw [atPd] at bottom ⊢
  refine lights_enter sound plain.pd bottom fun pt atPt sound => ?_
  rw [atPt, readEntry_directmap, writeEntry_directmap]
  exact lights_leaf plain.pt pt _ phys

/-- A page that is not mapped has a first slot on its path that is not present. -/
theorem absent_slot (absent : leaf mem root (tablePath virt) (ptKey virt) = none) :
    ∃ probe slot table, probe.length ≤ 3 ∧ probe ++ [slot] <+: pagePath virt ∧
      descend (child mem) root probe = some table ∧ checkFlag (entryAt mem table slot) pagetablePresent = false := by
  cases reached : descend (child mem) root (tablePath virt) with
  | none =>
    obtain ⟨probe, slot, table, along, found, empty⟩ := descend_stuck reached
    have lengths := along.length_le
    simp only [tablePath, List.length_append, List.length_cons, List.length_nil] at lengths
    refine ⟨probe, slot, table, by omega, along.trans (List.prefix_append _ _), found, ?_⟩
    rw [child, ite_eq_right_iff] at empty
    cases flag : checkFlag (entryAt mem table slot) pagetablePresent with
    | false => rfl
    | true => cases empty flag
  | some pt =>
    rw [leaf, reached, Option.bind_some, ite_eq_right_iff] at absent
    refine ⟨tablePath virt, ptKey virt, pt, Nat.le_refl 3, List.prefix_rfl, reached, ?_⟩
    cases flag : checkFlag (entryAt mem pt (ptKey virt)) pagetablePresent with
    | false => rfl
    | true => cases absent flag

/-- A page of the kernel half that is not mapped is entered into it. -/
theorem kernel_page_entered (own : OwnPages alloc UserHalf root st) (kernel : ¬ UserPage virt)
    (absent : ¬ Mapped root st virt) (drawn : Drawn alloc root st virt) : ¬ KeepsKernel alloc root st virt := by
  intro keeps
  obtain ⟨probe, slot, table, short, along, reached, dark⟩ := absent_slot (not_not.mp absent)
  have after := (own.draw drawn.1).1
  have lights := map_lights after.held.sound userspace_plain drawn.2 (alloc.allocatePage st.frames).1
  have lit := (lights.along probe slot table along reached (after.held.held table ⟨probe, short, reached⟩)).2
  have upper : UpperHalf (probe ++ [slot]) := by
    cases probe with
    | nil =>
      obtain ⟨rfl, _⟩ := List.cons_prefix_cons.mp along
      exact Nat.le_of_not_lt kernel
    | cons first rest =>
      obtain ⟨rfl, _⟩ := List.cons_prefix_cons.mp along
      exact Nat.le_of_not_lt kernel
  have same := keeps probe table slot short upper reached
  rw [mapPage] at same
  rw [same, dark] at lit
  cases lit

/-- A user page leaves the kernel half alone. -/
theorem user_page_keeps (low : LowReserve alloc) (own : OwnPages alloc UserHalf root st) (user : UserPage virt)
    (drawn : Drawn alloc root st virt) : KeepsKernel alloc root st virt := by
  intro probe table slot short upper reached
  refine (mapPage_own low own userspace_plain (userHalf_page user) drawn).1.kept probe table slot short reached
    fun along => ?_
  cases probe with
  | nil =>
    obtain ⟨rfl, _⟩ := List.cons_prefix_cons.mp along
    exact Nat.not_lt.mpr upper user
  | cons first rest =>
    obtain ⟨rfl, _⟩ := List.cons_prefix_cons.mp along
    exact Nat.not_lt.mpr upper user

theorem mapped_page_same (mapped : Mapped root st virt) : mapPage alloc root.val flags st virt =
      { st with frames := (alloc.allocatePage st.frames).2 } := by
  have still : leaf (Physical.mk st.mem (alloc.allocatePage st.frames).2).mem root
      (tablePath virt) (ptKey virt) ≠ none := mapped
  simp only [mapPage, map_present still]

section Page
variable (low : LowReserve alloc) (own : OwnPages alloc UserHalf root st)
  (drawn : Drawn alloc root st virt)
include low own drawn

/-- One call of the map, over frames that are not null. -/
theorem page_keeps_iff : KeepsKernel alloc root st virt ↔ UserPage virt ∨ Mapped root st virt := by
  constructor
  · intro keeps
    by_contra neither
    rw [not_or] at neither
    exact kernel_page_entered own neither.1 neither.2 drawn keeps
  · rintro (user | mapped)
    · exact user_page_keeps low own user drawn
    · rw [KeepsKernel, mapped_page_same mapped]
      exact fun _ _ _ _ _ _ => rfl

theorem page_own (spares : UserPage virt ∨ Mapped root st virt) :
    OwnPages alloc UserHalf root (mapPage alloc root.val userspaceDefaultPagingFlags st virt) := by
  rcases spares with user | mapped
  · exact (mapPage_own low own userspace_plain (userHalf_page user) drawn).2
  · rw [mapped_page_same mapped]
    exact (own.draw drawn.1).1

end Page

end Pages

/-! ## Runs of system calls -/

/-- The memory requests of a user thread. -/
inductive Call where
  | vmMap (hint size : BitVec 64)
  | vmUnmap (pointer : Addr)

section Calls
variable {σ : Type}

/-- The process after a call; `none` when the kernel panics in it. -/
def answer (alloc : FrameAllocator σ) (proc : Process σ) : Call → Option (Process σ)
  | .vmMap hint size =>
    match vmMap alloc proc hint size with
    | (none, _) => none
    | (some _, next) => some next
  | .vmUnmap pointer => some (vmUnmap proc pointer).2

/-- The pages a call maps, in order. -/
def callPages (proc : Process σ) : Call → List Addr
  | .vmMap hint size =>
    if size = 0 then []
    else if hint ≠ 0 ∧ (useRange proc.memoryAllocator (alignPageDown hint) (rangePages hint size)).1 = true then
      pagesFrom hint (rangePages hint size)
    else stackPages proc size
  | .vmUnmap _ => []

variable {alloc : FrameAllocator σ} {proc next : Process σ}

theorem vmMapAnywhere_physical (alloc : FrameAllocator σ) (proc : Process σ) (size : BitVec 64) :
    (vmMapAnywhere alloc proc size).2.pml4Physical = proc.pml4Physical ∧ (vmMapAnywhere alloc proc size).2.physical =
        mapPages alloc proc.pml4Physical userspaceDefaultPagingFlags proc.physical (stackPages proc size) := by
  have same : (vmMapAnywhere alloc proc size).2 = (allocateStack alloc proc size).2 := by
    simp only [vmMapAnywhere]
    split <;> rfl
  rw [same, allocateStack_eq]
  exact ⟨rfl, rfl⟩

/-- What a call does: its pages are mapped in order, and those of a range at a
hint are cleared. -/
theorem answer_cases (call : Call) (answered : answer alloc proc call = some next) :
    next.pml4Physical = proc.pml4Physical ∧
      let mapped := mapPages alloc proc.pml4Physical userspaceDefaultPagingFlags proc.physical
        (callPages proc call)
      (next.physical = mapped ∨ ∃ start pages mem, callPages proc call = pagesFrom start pages ∧
        storeBytes mapped.mem proc.pml4Physical (alignPageDown start) (pages * pageSize).toNat (fun _ => 0) =
          some mem ∧ next.physical = { mapped with mem }) := by
  cases call with
  | vmUnmap pointer =>
    cases answered
    exact ⟨rfl, .inl rfl⟩
  | vmMap hint size =>
    have anywhere := vmMapAnywhere_physical alloc proc size
    simp only [answer, vmMap] at answered
    simp only [callPages]
    by_cases empty : size = 0
    · rw [if_pos empty] at answered ⊢
      cases answered
      exact ⟨rfl, .inl rfl⟩
    · rw [if_neg empty] at answered ⊢
      by_cases hinted : hint ≠ 0
      · rw [if_pos hinted] at answered
        rcases rangeAt_cases alloc proc hint size with
          ⟨missed, same⟩ | ⟨found, fault | ⟨mem, stored, done⟩⟩
        · rw [same] at answered
          cases answered
          rw [if_neg (by simp [missed])]
          exact ⟨anywhere.1, .inl anywhere.2⟩
        · cases returned : UserspaceAllocator.allocateRange alloc proc hint size with
          | mk reply after =>
            rw [returned] at fault answered
            cases fault
            cases answered
        · rw [done] at answered
          cases answered
          rw [if_pos ⟨hinted, found⟩]
          exact ⟨rfl, .inr ⟨hint, _, mem, rfl, stored, rfl⟩⟩
      · rw [if_neg hinted] at answered
        cases answered
        rw [if_neg (fun both => hinted both.1)]
        exact ⟨anywhere.1, .inl anywhere.2⟩

/-- A condition at every page, as the pages are mapped one after the other. -/
def EachPage (alloc : FrameAllocator σ) (root : Frame) (holds : Physical σ → Addr → Prop) :
    Physical σ → List Addr → Prop
  | _, [] => True
  | st, virt :: rest => holds st virt ∧
      EachPage alloc root holds (mapPage alloc root.val userspaceDefaultPagingFlags st virt) rest

/-- A condition at every page that a run of calls maps; a panic ends the run. -/
def EachCall (alloc : FrameAllocator σ) (root : Frame) (holds : Physical σ → Addr → Prop) :
    Process σ → List Call → Prop
  | _, [] => True
  | proc, call :: rest => EachPage alloc root holds proc.physical (callPages proc call) ∧
      ∀ next, answer alloc proc call = some next → EachCall alloc root holds next rest

theorem eachPage_imp {holds weaker : Physical σ → Addr → Prop} (weaken : ∀ st virt, holds st virt →
    weaker st virt) {st : Physical σ} (each : EachPage alloc root holds st pages) :
    EachPage alloc root weaker st pages := by
  induction pages generalizing st with
  | nil => trivial
  | cons virt rest ih => exact ⟨weaken _ _ each.1, ih each.2⟩

end Calls

section Runs
variable {σ : Type} {alloc : LawfulAllocator σ} {root : Frame} {st : Physical σ} {proc : Process σ}

/-- The pages of one call: the kernel half is kept at each exactly when each is a
user page or mapped already. -/
theorem pages_keep_iff (low : LowReserve alloc) (own : OwnPages alloc UserHalf root st)
    (drawn : EachPage alloc root (Drawn alloc root) st pages) :
    EachPage alloc root (KeepsKernel alloc root) st pages ↔
      EachPage alloc root (fun st virt => UserPage virt ∨ Mapped root st virt) st pages := by
  induction pages generalizing st with
  | nil => exact Iff.rfl
  | cons virt rest ih =>
    simp only [EachPage, page_keeps_iff low own drawn.1]
    exact and_congr_right fun spares => ih (page_own low own drawn.1 spares) drawn.2

/-- The page of a request: frames that are not null, and bit 47 clear. -/
abbrev InUserHalf (alloc : FrameAllocator σ) (root : Frame) (st : Physical σ) (virt : Addr) : Prop :=
  Drawn alloc root st virt ∧ UserPage virt

theorem user_pages_own (low : LowReserve alloc) (own : OwnPages alloc UserHalf root st)
    (user : EachPage alloc root (InUserHalf alloc root) st pages) : OwnPages alloc UserHalf root
        (mapPages alloc root.val userspaceDefaultPagingFlags st pages) ∧ ∀ virt ∈ pages, UserPage virt := by
  induction pages generalizing st with
  | nil => exact ⟨own, by simp⟩
  | cons virt rest ih =>
    obtain ⟨⟨drawn, here⟩, later⟩ := user
    obtain ⟨own, others⟩ := ih (page_own low own drawn (.inl here)) later
    exact ⟨own, List.forall_mem_cons.mpr ⟨here, others⟩⟩

/-- The bytes cleared for a range begin in the first page mapped for it. -/
theorem cleared_user (user : ∀ virt ∈ pagesFrom start pages, UserPage virt)
    (some : 0 < (pages * pageSize).toNat) : (alignPageDown start).toNat < 0xffff800000000000 := by
  have pos : 0 < pages.toNat := by
    by_contra none
    rw [BitVec.toNat_mul, show pages.toNat = 0 by omega] at some
    omega
  have page := user start (List.mem_map.mpr ⟨0, List.mem_range.mpr pos, by simp⟩)
  rw [UserPage, pml4Key_toNat] at page
  rw [alignPageDown_toNat]
  omega

section Requests
variable (low : LowReserve alloc) (own : OwnPages alloc UserHalf root proc.physical)
  (place : proc.pml4Physical = root.val)
include low own place

/-- A call in the user half keeps the space in order. -/
theorem answer_own (user : EachPage alloc root (InUserHalf alloc root) proc.physical (callPages proc call))
    (answered : answer alloc proc call = some next) :
    next.pml4Physical = root.val ∧ OwnPages alloc UserHalf root next.physical := by
  obtain ⟨own, inside⟩ := user_pages_own low own user
  obtain ⟨same, done⟩ := answer_cases call answered
  rw [place] at same done
  refine ⟨same, ?_⟩
  rcases done with mapped | ⟨start, pages, mem, listed, stored, cleared⟩
  · rw [mapped]
    exact own
  · rw [listed] at inside
    rw [cleared]
    exact own.congr (storeBytes_stores own (cleared_user inside) stored).1.same

theorem user_calls_own (user : EachCall alloc root (InUserHalf alloc root) proc calls) :
    EachCall alloc root (KeepsKernel alloc root) proc calls ∧
      ∀ last, calls.foldlM (answer alloc) proc = some last → OwnPages alloc UserHalf root last.physical := by
  induction calls generalizing proc with
  | nil =>
    refine ⟨trivial, ?_⟩
    rintro last ⟨⟩
    exact own
  | cons call rest ih =>
    obtain ⟨here, later⟩ := user
    have drawn := eachPage_imp (fun _ _ both => both.1) here
    refine ⟨⟨(pages_keep_iff low own drawn).mpr (eachPage_imp (fun _ _ both => .inl both.2) here), ?_⟩, ?_⟩
    · intro next answered
      obtain ⟨place, own⟩ := answer_own low own place here answered
      exact (ih own place (later next answered)).1
    · intro last reached
      rw [List.foldlM_cons, Option.bind_eq_bind, Option.bind_eq_some_iff] at reached
      obtain ⟨next, answered, reached⟩ := reached
      obtain ⟨place, own⟩ := answer_own low own place here answered
      exact (ih own place (later next answered)).2 last reached

end Requests

/-- From a space just constructed: calls whose pages all have bit 47 clear, over
frames that are not null, leave the kernel half alone, and in every state they
reach a further call does so exactly when each of its pages has bit 47 clear or
is mapped already. -/
theorem kernel_half_kept_iff (alloc : LawfulAllocator σ) (low : LowReserve alloc) (st : Physical σ)
    (current root : Frame) (tree : TableTree st.mem current) (held : TablesHeld alloc current st)
    (drawn : (alloc.allocatePage st.frames).1 = root.val) (nonzero : root.val ≠ 0) (calls : List Call)
    (user : EachCall alloc root (InUserHalf alloc root) (constructProcess alloc st current.val) calls) :
    EachCall alloc root (KeepsKernel alloc root) (constructProcess alloc st current.val) calls ∧
      ∀ proc, calls.foldlM (answer alloc) (constructProcess alloc st current.val) = some proc →
        ∀ call, EachPage alloc root (Drawn alloc root) proc.physical (callPages proc call) →
          (EachPage alloc root (KeepsKernel alloc root) proc.physical (callPages proc call) ↔ EachPage alloc root
              (fun st virt => UserPage virt ∨ Mapped root st virt) proc.physical (callPages proc call)) := by
  have stale : Blank (fun path => UserHalf path ∧ ¬ UserHalf path) st.mem current :=
    fun _ _ _ _ _ both => absurd both.1 both.2
  obtain ⟨place, own⟩ := construct_own tree held stale drawn nonzero
  obtain ⟨keeps, reached⟩ := user_calls_own low own place user
  exact ⟨keeps, fun proc found call drawn => pages_keep_iff low (reached proc found) drawn⟩

end Runs

/-! ## A small process -/

/-- A process of the small machine, whose own root is the second page drawn. -/
def smallProcess : Process BitmapAllocator.Allocator :=
  constructProcess physicalAllocator smallSpace smallRoot.val

def processRoot : Frame := ⟨0x3000, by decide⟩

/-- A page at 4 MiB leaves the kernel half alone. -/
theorem kernel_half_kept_low : EachCall physicalAllocator processRoot (KeepsKernel physicalAllocator processRoot)
      smallProcess [.vmMap 0x400000 0x1000] := by
  have drawn : (BitmapAllocator.allocatePage smallSpace.frames).1 = processRoot.val := by decide +kernel
  have user : EachPage physicalAllocator processRoot
      (InUserHalf physicalAllocator processRoot) smallProcess.physical
      (callPages smallProcess (.vmMap 0x400000 0x1000)) := by
    have pages : callPages smallProcess (.vmMap 0x400000 0x1000) = [0x400000] := by decide +kernel
    rw [pages]
    simp only [EachPage, InUserHalf, Drawn, PageSupplied, MapDraws, DrawsAt]
    decide +kernel
  have tree := (represents_cleared (fun _ => 0) smallRoot).tree
  exact (kernel_half_kept_iff smallLaws small_low smallSpace smallRoot processRoot tree small_held drawn (by decide)
    [.vmMap 0x400000 0x1000] ⟨user, fun _ _ => trivial⟩).1

/-- A hint with bit 47 set is accepted and enters a table at index 384 of the root. -/
theorem hint_enters_kernel_half : callPages smallProcess (.vmMap 0xc00000000000 0x1000) = [0xc00000000000] ∧
      entryAt smallProcess.physical.mem processRoot 384 = 0 ∧
      entryAt (mapPage physicalAllocator processRoot.val userspaceDefaultPagingFlags
        smallProcess.physical 0xc00000000000).mem processRoot 384 = 0x5007 ∧ ¬ EachCall physicalAllocator processRoot
        (KeepsKernel physicalAllocator processRoot) smallProcess [.vmMap 0xc00000000000 0x1000] := by
  have facts : callPages smallProcess (.vmMap 0xc00000000000 0x1000) = [0xc00000000000] ∧
      entryAt smallProcess.physical.mem processRoot 384 = 0 ∧
      entryAt (mapPage physicalAllocator processRoot.val userspaceDefaultPagingFlags
        smallProcess.physical 0xc00000000000).mem processRoot 384 = 0x5007 := by decide +kernel
  obtain ⟨pages, before, after⟩ := facts
  refine ⟨pages, before, after, ?_⟩
  rintro ⟨each, _⟩
  rw [pages] at each
  have same := each.1 [] processRoot 384 (by simp) (show 256 ≤ (384 : Key).toNat by decide) rfl
  rw [before, after] at same
  exact absurd same (by decide)

end LunaOS.KernelHalf
