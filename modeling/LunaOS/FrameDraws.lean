import LunaOS.PageRecycling
import LunaOS.UserSpace

/-! Frames, counted. Mapping a page draws one frame for it and one for each table
it lacks, so what mapping a list of pages asks of the allocator can be read off the
tables as they stand before the first of them is mapped. -/
namespace LunaOS.FrameDraws
open BitVec Option
open ByteMemory PageTables PointerTree PageTableTree PageMapping FrameExclusivity PageTranslation PageRecycling
open UserspaceAllocator UserSpace

section Draws
variable {σ : Type}

/-- The allocator after so many draws. -/
def spend (alloc : FrameAllocator σ) : Nat → σ → σ
  | 0, frames => frames
  | count + 1, frames => spend alloc count (alloc.allocatePage frames).2

/-- The frame drawn after so many others. -/
def draw (alloc : FrameAllocator σ) (frames : σ) (index : Nat) : Addr :=
  (alloc.allocatePage (spend alloc index frames)).1

variable {alloc : FrameAllocator σ} {root : Frame}

theorem spend_add (early late : Nat) (frames : σ) :
    spend alloc (early + late) frames = spend alloc late (spend alloc early frames) := by
  induction early generalizing frames with
  | zero => rw [Nat.zero_add, spend]
  | succ early ih => rw [Nat.succ_add, spend, spend, ih]

theorem draw_spend (early late : Nat) (frames : σ) :
    draw alloc (spend alloc early frames) late = draw alloc frames (early + late) := by
  rw [draw, draw, spend_add]

/-- So many draws lie between two states, and none of them failed. -/
structure Draws (alloc : FrameAllocator σ) (count : Nat) (before after : σ) : Prop where
  spent : after = spend alloc count before
  served : ∀ index < count, draw alloc before index ≠ 0

theorem Draws.trans (first : Draws alloc early before middle) (second : Draws alloc late middle after) :
    Draws alloc (early + late) before after where
  spent := by rw [second.spent, first.spent, spend_add]
  served index inside := by
    by_cases soon : index < early
    · exact first.served index soon
    · have served := second.served (index - early) (by omega)
      rwa [first.spent, draw_spend, Nat.add_sub_cancel' (by omega)] at served

/-- The tables over the pages that a space does not have. -/
def missing (mem : Memory) (root : Frame) (pages : List Addr) : List (List Key) :=
  ((pages.flatMap fun virt => (tablePath virt).inits).filter
    fun path => (descend (child mem) root path).isNone).dedup

theorem mem_missing : path ∈ missing mem root pages ↔
    (∃ page ∈ pages, path <+: tablePath page) ∧ descend (child mem) root path = none := by
  simp [missing]

theorem missing_mono (within : pages ⊆ more) : (missing mem root pages).length ≤ (missing mem root more).length := by
  have distinct : (missing mem root pages).Nodup := List.nodup_dedup _
  refine (distinct.subperm fun path member => ?_).length_le
  obtain ⟨⟨page, here, along⟩, absent⟩ := mem_missing.mp member
  exact mem_missing.mpr ⟨⟨page, within here, along⟩, absent⟩

/-- The allocator can serve the pages and the tables that they lack. -/
def Enough (alloc : FrameAllocator σ) (root : Frame) (st : Physical σ) (pages : List Addr) : Prop :=
  ∀ index < pages.length + (missing st.mem root pages).length, draw alloc st.frames index ≠ 0

/-- Between two states there are so many draws for pages and one for each of the
tables, all over these pages, that are new. -/
structure Opened (alloc : FrameAllocator σ) (root : Frame) (pages : List Addr) (turns : Nat)
    (before after : Physical σ) (tables : List (List Key)) : Prop where
  grown : ∀ path, path.length ≤ 3 → descend (child before.mem) root path ≠ none →
    descend (child after.mem) root path ≠ none
  nodup : tables.Nodup
  mem : ∀ path, path ∈ tables ↔ path.length ≤ 3 ∧ descend (child before.mem) root path = none ∧
    descend (child after.mem) root path ≠ none
  leads : ∀ path ∈ tables, ∃ page ∈ pages, path <+: tablePath page
  draws : Draws alloc (turns + tables.length) before.frames after.frames

theorem opened_of_paths (paths : ∀ probe, probe.length ≤ 3 →
      descend (child after.mem) root probe = descend (child before.mem) root probe)
    (draws : Draws alloc turns before.frames after.frames) (pages : List Addr) :
    Opened alloc root pages turns before after [] where
  grown path short := by rw [paths path short]; exact id
  nodup := List.nodup_nil
  mem path := by
    refine iff_of_false (List.not_mem_nil) ?_
    rintro ⟨short, absent, present⟩
    exact present (by rw [paths path short, absent])
  leads := by simp
  draws := draws

theorem draws_zero (frames : σ) : Draws alloc 0 frames frames := ⟨rfl, by simp⟩

theorem Opened.trans (first : Opened alloc root early soon before middle made)
    (second : Opened alloc root late further middle after more) :
    Opened alloc root (early ++ late) (soon + further) before after (made ++ more) where
  grown path short := second.grown path short ∘ first.grown path short
  nodup := by
    refine List.nodup_append.mpr ⟨first.nodup, second.nodup, ?_⟩
    rintro path here _ there rfl
    exact ((first.mem path).mp here).2.2 ((second.mem path).mp there).2.1
  mem path := by
    rw [List.mem_append, first.mem, second.mem]
    constructor
    · rintro (⟨short, absent, present⟩ | ⟨short, absent, present⟩)
      · exact ⟨short, absent, second.grown path short present⟩
      · exact ⟨short, not_not.mp fun there => first.grown path short there absent, present⟩
    · rintro ⟨short, absent, present⟩
      by_cases between : descend (child middle.mem) root path = none
      · exact .inr ⟨short, between, present⟩
      · exact .inl ⟨short, absent, between⟩
  leads path member := by
    rcases List.mem_append.mp member with here | there
    · obtain ⟨page, member, along⟩ := first.leads path here
      exact ⟨page, List.mem_append_left _ member, along⟩
    · obtain ⟨page, member, along⟩ := second.leads path there
      exact ⟨page, List.mem_append_right _ member, along⟩
  draws := by
    have whole := first.draws.trans second.draws
    rwa [Nat.add_add_add_comm, ← List.length_append] at whole

/-- When the tables over the first pages are all there, what the row lacked are the new
ones and what the other pages lack now. -/
theorem Opened.missing_append (opened : Opened alloc root pages turns before after tables)
    (present : ∀ page ∈ pages, descend (child after.mem) root (tablePath page) ≠ none) (rest : List Addr) :
    (missing before.mem root (pages ++ rest)).length = tables.length + (missing after.mem root rest).length := by
  have whole : (missing before.mem root (pages ++ rest)).Nodup := List.nodup_dedup _
  have parts : (tables ++ missing after.mem root rest).Nodup := by
    refine List.nodup_append.mpr ⟨opened.nodup, List.nodup_dedup _, ?_⟩
    rintro path here _ there rfl
    exact ((opened.mem path).mp here).2.2 (mem_missing.mp there).2
  rw [← List.length_append]
  refine ((List.perm_ext_iff_of_nodup whole parts).mpr fun path => ?_).length_eq
  rw [List.mem_append, mem_missing, mem_missing]
  constructor
  · rintro ⟨⟨page, member, along⟩, absent⟩
    by_cases lacks : descend (child after.mem) root path = none
    · rcases List.mem_append.mp member with early | late
      · exact absurd lacks (descend_along (present page early) along)
      · exact .inr ⟨⟨page, late, along⟩, lacks⟩
    · exact .inl ((opened.mem path).mpr ⟨along.length_le, absent, lacks⟩)
  · rintro (here | ⟨⟨page, member, along⟩, lacks⟩)
    · obtain ⟨page, member, along⟩ := opened.leads path here
      exact ⟨⟨page, List.mem_append_left _ member, along⟩, ((opened.mem path).mp here).2.1⟩
    · exact ⟨⟨page, List.mem_append_right _ member, along⟩,
        not_not.mp fun there => opened.grown path along.length_le there lacks⟩

/-- A new table hung in over the page. -/
theorem opened_hung (entered : Enters before.mem after.mem root path next) (short : path.length ≤ 3)
    (along : path <+: tablePath virt) (absent : descend (child before.mem) root path = none)
    (nonzero : next.val ≠ 0) (drawn : alloc.allocatePage before.frames = (next.val, after.frames)) :
    Opened alloc root [virt] 0 before after [path] where
  grown probe short present := by
    rw [entered.paths probe short]
    split
    · simp
    · exact present
  nodup := List.nodup_singleton path
  mem probe := by
    rw [List.mem_singleton]
    constructor
    · rintro rfl
      exact ⟨short, absent, by simp [entered.paths probe short]⟩
    · rintro ⟨short, absent, present⟩
      by_contra other
      rw [entered.paths probe short, if_neg other] at present
      exact present absent
  leads := by simpa using along
  draws := by
    have frames : (alloc.allocatePage before.frames).2 = after.frames := by rw [drawn]
    refine ⟨frames.symm, fun index inside => ?_⟩
    obtain rfl : index = 0 := by simpa using inside
    simpa only [draw, spend, drawn] using nonzero

end Draws

/-! ## One page -/

section Counts
variable {σ : Type} {alloc : LawfulAllocator σ} {root : Frame} {region : List Key → Prop} {virt : Addr}

/-- What the levels of a map keep, with the tables over the page they have hung in. -/
structure Counts (alloc : LawfulAllocator σ) (root : Frame) (region : List Key → Prop) (virt : Addr)
    (start st : Physical σ) : Prop where
  blank : Blank region st.mem root
  held : TablesHeld alloc root st
  opened : ∃ tables, Opened alloc root [virt] 0 start st tables

theorem counts_start {start : Physical σ} (blank : Blank region start.mem root)
    (held : TablesHeld alloc root start) : Counts alloc root region virt start start :=
  ⟨blank, held, [], opened_of_paths (fun _ _ => rfl) (draws_zero _) _⟩

theorem Opened.rests {alloc : FrameAllocator σ} {start before after : Physical σ}
    (opened : Opened alloc root [virt] turns start before tables) (frames : after.frames = before.frames)
    (paths : ∀ probe, probe.length ≤ 3 →
      descend (child after.mem) root probe = descend (child before.mem) root probe) :
    Opened alloc root [virt] turns start after tables := by
  have same : Draws alloc 0 before.frames after.frames := frames ▸ draws_zero _
  simpa using opened.trans (opened_of_paths paths same [])

theorem counts_entered {start before after : Physical σ} {path : List Key} {next : Frame}
    (counts : Counts alloc root region virt start before) (short : path.length ≤ 3)
    (along : path <+: pagePath virt) (enters : Enters before.mem after.mem root path next)
    (source : Sourced alloc before root next after.frames) : Counts alloc root region virt start after := by
  refine ⟨enters.blank _ counts.blank, held_entered counts.held enters source, ?_⟩
  have entered : descend (child after.mem) root path = some next := by rw [enters.paths path short, if_pos rfl]
  obtain ⟨tables, opened⟩ := counts.opened
  rcases source with ⟨⟨old, oldShort, reached⟩, same⟩ | ⟨nonzero, drawn⟩
  · -- the table was reached by this path before, since no other leads to it now
    have kept := (enters.opens List.prefix_rfl).grown old next oldShort reached
    obtain rfl := enters.tree.unshared old path next oldShort short kept entered
    refine ⟨tables, opened.rests same fun probe probeShort => ?_⟩
    rw [enters.paths probe probeShort]
    split
    · rename_i here
      rw [here, reached]
    · rfl
  · have free := (alloc.draw_spec counts.held.sound nonzero drawn).2.1
    have absent : descend (child before.mem) root path = none := by
      by_contra present
      obtain ⟨table, reached⟩ := ne_none_iff_exists'.mp present
      rw [enters.once table reached] at reached
      exact free (counts.held.held next ⟨path, short, reached⟩)
    have inner : path <+: tablePath virt := List.prefix_of_prefix_length_le along (List.prefix_append _ _) short
    obtain ⟨grown, nodup, mem, leads, draws⟩ := opened.trans (opened_hung enters short inner absent nonzero drawn)
    exact ⟨_, grown, nodup, mem, fun probe member => by simpa using leads probe member, draws⟩

theorem counts_supports (low : LowReserve alloc)
    (inside : ∀ probe, probe <+: pagePath virt → probe ≠ [] → region probe) (start : Physical σ) :
    Supports alloc root (pagePath virt) (Counts alloc root region virt start) fun _ _ frame => frame ≠ 0 where
  suited st path table key counts inner found along absent nonzero := by
    refine held_suits low counts.held nonzero ?_
    rw [counts.blank path table key (by omega) found (inside _ along (by simp)) absent]
    exact BitVec.zero_or
  entered _ _ _ _ counts short along enters source := counts_entered counts short along enters source
  rests before after counts frames paths still := by
    obtain ⟨tables, opened⟩ := counts.opened
    exact ⟨still _ counts.blank, held_rests counts.held frames (table_iff_of_paths paths), tables,
      opened.rests frames paths⟩

theorem held_draw {st : Physical σ} (held : TablesHeld alloc root st) (found : (alloc.allocatePage st.frames).1 ≠ 0) :
    TablesHeld alloc root { st with frames := (alloc.allocatePage st.frames).2 } :=
  ⟨alloc.drawn_sound _ held.sound,
    fun table reached => (alloc.taken _ held.sound found _).mpr (.inl (held.held table reached))⟩

/-- With enough frames there is one for every table the page lacks. -/
theorem enough_supports (low : LowReserve alloc)
    (inside : ∀ probe, probe <+: pagePath virt → probe ≠ [] → region probe)
    {st start : Physical σ} (enough : Enough alloc root st [virt])
    (drawn : start = { st with frames := (alloc.allocatePage st.frames).2 }) :
    Supports alloc root (pagePath virt) (Counts alloc root region virt start) fun _ _ _ => True :=
  { counts_supports low inside start with
    suited := by
      intro now path table key counts inner found along absent _
      refine (counts_supports low inside start).suited now path table key counts inner found along absent ?_
      obtain ⟨tables, opened⟩ := counts.opened
      have short : (path ++ [key]).length ≤ 3 := by simpa [Nat.lt_succ_iff] using inner
      have lacks : descend (child now.mem) root (path ++ [key]) = none := by
        rw [descend_snoc, found, bind_some, child, absent]
        rfl
      have before : descend (child start.mem) root (path ++ [key]) = none :=
        not_not.mp fun present => opened.grown _ short present lacks
      have more : ((path ++ [key]) :: tables).Nodup :=
        List.nodup_cons.mpr ⟨fun member => ((opened.mem _).mp member).2.2 lacks, opened.nodup⟩
      have within : (path ++ [key]) :: tables ⊆ missing st.mem root [virt] := by
        intro probe member
        rw [mem_missing, show st.mem = start.mem by rw [drawn]]
        rcases List.mem_cons.mp member with rfl | old
        · exact ⟨⟨virt, by simp, List.prefix_of_prefix_length_le along (List.prefix_append _ _) short⟩, before⟩
        · exact ⟨opened.leads probe old, ((opened.mem probe).mp old).2.1⟩
      have served := enough (1 + tables.length) (Nat.add_lt_add_left (more.subperm within).length_le 1)
      rw [← draw_spend] at served
      rw [opened.draws.spent, Nat.zero_add, drawn]
      exact served }

section Page
variable {st : Physical σ} {flags : PagingFlags} (low : LowReserve alloc)
  (inside : ∀ probe, probe <+: pagePath virt → probe ≠ [] → region probe)
  (tree : TableTree st.mem root) (held : TablesHeld alloc root st)
  (blank : Blank region st.mem root) (plain : PlainPagingFlags flags)
include low inside tree held blank plain

theorem enough_supplied (enough : Enough alloc root st [virt]) : PageSupplied alloc root flags st virt := by
  have found : (alloc.allocatePage st.frames).1 ≠ 0 := enough 0 (Nat.add_pos_left Nat.one_pos _)
  obtain ⟨_, _, _, _, _, top, middle, bottom⟩ := enterTables_opens (enough_supports low inside enough rfl)
    (counts_start blank (held_draw held found)) tree plain ⟨fun _ => trivial, fun _ => trivial, fun _ => trivial⟩
  exact ⟨found, fun absent => (top absent).nonzero, fun absent => (middle absent).nonzero,
    fun absent => (bottom absent).nonzero⟩

/-- A page that was supplied took a frame, and one for each table it lacked. -/
theorem mapPage_opened (supplied : PageSupplied alloc root flags st virt) : ∃ tables, Opened alloc root [virt] 1 st
        (mapPage alloc root.val flags st virt) tables ∧
      descend (child (mapPage alloc root.val flags st virt).mem) root (tablePath virt) ≠ none := by
  obtain ⟨found, fed⟩ := supplied
  let drawn : Physical σ := { st with frames := (alloc.allocatePage st.frames).2 }
  obtain ⟨maps, counts⟩ := map_maps (counts_supports low inside drawn) (counts_start blank (held_draw held found)) tree
    plain fed (alloc.allocatePage st.frames).1
  obtain ⟨tables, opened⟩ := counts.opened
  have one : Draws alloc 1 st.frames drawn.frames := by
    refine ⟨rfl, fun index first => ?_⟩
    obtain rfl : index = 0 := by omega
    exact found
  have paths : ∀ probe, probe.length ≤ 3 →
      descend (child drawn.mem) root probe = descend (child st.mem) root probe := fun _ _ => rfl
  refine ⟨tables, (opened_of_paths paths one []).trans opened, fun absent => ?_⟩
  have lost : leaf (mapPage alloc root.val flags st virt).mem root (tablePath virt) (ptKey virt) = none := by
    rw [leaf, absent]
    rfl
  have mapped := maps.leaves (tablePath virt) (ptKey virt) rfl
  rw [if_pos (show tablePath virt ++ [ptKey virt] = pagePath virt from rfl)] at mapped
  exact absurd (mapped.symm.trans lost) (by simp)

/-- Enough for a row of pages is enough for the first, and then for the others. -/
theorem enough_cons (rest : List Addr) : Enough alloc root st (virt :: rest) ↔ PageSupplied alloc root flags st virt ∧
      Enough alloc root (mapPage alloc root.val flags st virt) rest := by
  constructor
  · intro enough
    have first : Enough alloc root st [virt] := by
      intro index bound
      have fewer : (missing st.mem root [virt]).length ≤ (missing st.mem root (virt :: rest)).length :=
        missing_mono (by simp)
      rw [List.length_singleton] at bound
      exact enough index (by rw [List.length_cons]; omega)
    have supplied := enough_supplied low inside tree held blank plain first
    obtain ⟨tables, opened, present⟩ := mapPage_opened low inside tree held blank plain supplied
    have total := opened.missing_append (by simpa using present) rest
    refine ⟨supplied, fun index bound => ?_⟩
    rw [opened.draws.spent, draw_spend]
    refine enough _ ?_
    rw [List.singleton_append] at total
    rw [List.length_cons, total]
    omega
  · rintro ⟨supplied, enough⟩ index bound
    obtain ⟨tables, opened, present⟩ := mapPage_opened low inside tree held blank plain supplied
    have total := opened.missing_append (by simpa using present) rest
    rw [List.singleton_append] at total
    rw [List.length_cons, total] at bound
    have all : Draws alloc (1 + tables.length +
        (rest.length + (missing (mapPage alloc root.val flags st virt).mem root rest).length))
        st.frames _ := opened.draws.trans ⟨rfl, enough⟩
    exact all.served index (by omega)

end Page
end Counts

/-! ## Allocators that stay exhausted -/

section Persistence
variable {σ : Type} {alloc : LawfulAllocator σ} {root : Frame} {st : Physical σ} {flags : PagingFlags}

/-- An allocator that is exhausted stays so until a frame is given back. -/
def Persistent (alloc : LawfulAllocator σ) : Prop := ∀ frames, alloc.sound frames →
  (alloc.allocatePage frames).1 = 0 → (alloc.allocatePage (alloc.allocatePage frames).2).1 = 0

/-- There is a frame left. -/
def Live (alloc : LawfulAllocator σ) (frames : σ) : Prop := (alloc.allocatePage frames).1 ≠ 0

/-- A bitmap does, unless page zero is in its pool: that page is handed out as null
and the next one is not. -/
theorem bitmap_persistent {pool : BitVec 64 → Prop} (apart : ¬ pool 0) : Persistent (bitmapLaws pool) := by
  intro alloc lends null
  have search := null
  simp only [bitmapLaws, BitmapAllocator.physicalAllocator, BitmapAllocator.allocatePage, BitmapAllocator.nextBlock,
    lends.ready, Bool.not_true, Bool.false_eq_true, if_false] at search
  cases found : (List.range alloc.memoryBitmap.size.toNat).find?
      fun index => alloc.memoryBitmap.get (BitVec.ofNat 64 index) with
  | some index =>
    rw [found] at search
    have inside := List.mem_range.mp (List.mem_of_find?_eq_some found)
    have bounded := lends.bounded
    have value := congrArg BitVec.toNat search
    rw [toNat_mul, toNat_ofNat, PageArithmetic.pageSize_toNat, show (0 : BitVec 64).toNat = 0 from rfl]
      at value
    obtain rfl : index = 0 := by omega
    refine absurd (lends.free 0 ?_ (by simpa using List.find?_some found)) apart
    rw [lt_def]
    exact inside
  | none =>
    have bare := List.find?_eq_none.mp found
    obtain ⟨ready, size, _⟩ := BitmapAllocator.lockBlock_fixed alloc (BitmapAllocator.nextBlock alloc)
    have still : (List.range alloc.memoryBitmap.size.toNat).find? (fun index =>
        (BitmapAllocator.allocatePage alloc).2.memoryBitmap.get (BitVec.ofNat 64 index)) = none := by
      rw [List.find?_eq_none]
      intro index member
      rw [BitmapAllocator.allocatePage, BitmapAllocator.lockBlock_get lends.ready]
      split
      · exact Bool.false_ne_true
      · exact bare index member
    show BitmapAllocator.nextBlock (BitmapAllocator.allocatePage alloc).2 = 0
    rw [BitmapAllocator.nextBlock, show (BitmapAllocator.allocatePage alloc).2.memoryBitmap.size =
      alloc.memoryBitmap.size from size, still]
    split <;> rfl

theorem live_draw (persistent : Persistent alloc) (sound : alloc.sound frames)
    (live : Live alloc (alloc.allocatePage frames).2) : Live alloc frames :=
  fun null => live (persistent frames sound null)

theorem enterTable_live (persistent : Persistent alloc) (sound : alloc.sound st.frames)
    (live : Live alloc (enterTable alloc st pagetable index bits override).2.frames) :
    Live alloc st.frames ∧ DrawsAt alloc st pagetable index fun _ _ frame => frame ≠ 0 := by
  have before : Live alloc st.frames := by
    simp only [enterTable] at live
    split at live
    · split at live <;> exact live
    · exact live_draw persistent sound live
  exact ⟨before, fun _ => before⟩

/-- A page mapped while the frames last was supplied with them. -/
theorem mapPage_live (persistent : Persistent alloc) (sound : alloc.sound st.frames)
    (live : Live alloc (mapPage alloc root.val flags st virt).frames) :
    Live alloc st.frames ∧ PageSupplied alloc root flags st virt := by
  have drawn := alloc.drawn_sound _ sound
  have third : Live alloc (enterTables alloc
      { st with frames := (alloc.allocatePage st.frames).2 } virt root.val flags false).2.frames := by
    simp only [mapPage, pagingMapPageInSpace_eq] at live
    split at live <;> exact live
  rw [enterTables] at third
  obtain ⟨second, bottom⟩ := enterTable_live persistent (enterTable_sound (enterTable_sound drawn _ _ _) _ _ _) third
  obtain ⟨first, middle⟩ := enterTable_live persistent (enterTable_sound drawn _ _ _) second
  obtain ⟨start, top⟩ := enterTable_live persistent drawn first
  have before := live_draw persistent sound start
  exact ⟨before, before, top, middle, bottom⟩

end Persistence

end LunaOS.FrameDraws
