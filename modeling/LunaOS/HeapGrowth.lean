import LunaOS.FrameDraws
import LunaOS.HeapAccounting
import LunaOS.KernelHalf

/-! `heapExpand` on the machine's own memory: each turn of its loop draws a frame
and maps a page. The loop begins at `heapStart`, not at the old end, so a frame is
drawn for every page the heap has already; the map leaves such a page alone and
the frame is lost. A loop that gives up keeps what it drew and mapped. -/
namespace LunaOS.HeapGrowth
open BitVec Option
open ByteMemory BoundedLoop PageArithmetic PageTables PointerTree PageTableTree PageMapping FrameExclusivity
open FreelistAllocator HeapAccounting PageTranslation KernelHalf PageRecycling UserspaceAllocator UserSpace FrameDraws
open BitmapAllocator (physicalAllocator)

section Model
variable {σ : Type} (alloc : FrameAllocator σ)

/-- One page of the loop in `heapExpand`. -/
def growTurn (space limit : Addr) : Addr × Physical σ → Turn (Addr × Physical σ) (Bool × Physical σ)
  | (virt, st) =>
    if virt < limit then
      let (phys, frames) := alloc.allocatePage st.frames
      let st := { st with frames }
      if phys = 0 then .leave (false, st)
      else .again (virt + pageSize, pagingMapPageInSpace alloc st virt phys space pagingDefaultFlags false)
    else .leave (true, st)

/-- `heapExpand` of an initialized heap, while `space` is the current one. -/
def heapExpandIn (space : Addr) (heap : KernelHeap (Physical σ)) : Option (Bool × KernelHeap (Physical σ)) :=
  if heapMaxExpansion < heap.heapEnd + heapExpansionStep then some (false, heap)
  else do
    let (mapped, machine) ← iterate (growTurn alloc space (heap.heapEnd + heapExpansionStep)) maxTurns
      (heap.heapStart, heap.machine)
    if !mapped then some (false, { heap with machine })
    else
      let mem ← expand heap.head heap.mem heapExpansionStep
      some (true, { heap with mem, machine, heapEnd := heap.heapEnd + heapExpansionStep })

/-- The addresses the loop visits. -/
def pagesUp : Addr → Nat → List Addr
  | _, 0 => []
  | virt, pages + 1 => virt :: pagesUp (virt + pageSize) pages

/-- The loop as a recursion over its pages. -/
def growPages (space : Addr) : Physical σ → List Addr → Bool × Physical σ
  | st, [] => (true, st)
  | st, virt :: rest =>
    if (alloc.allocatePage st.frames).1 = 0 then
      (false, { st with frames := (alloc.allocatePage st.frames).2 })
    else growPages space (mapPage alloc space pagingDefaultFlags st virt) rest

theorem next_page {virt : Addr} (room : virt.toNat + 4096 < 2 ^ 64) :
    (virt + pageSize).toNat = virt.toNat + 4096 := by
  rw [toNat_add, pageSize_toNat, Nat.mod_eq_of_lt room]

theorem grow_returns (space limit : Addr) (pages turns : Nat) (virt : Addr) (st : Physical σ)
    (reach : limit.toNat = virt.toNat + pages * 4096) (fuel : pages < turns) :
    iterate (growTurn alloc space limit) turns (virt, st) = some (growPages alloc space st (pagesUp virt pages)) := by
  induction pages generalizing virt st turns with
  | zero =>
    have past : ¬ virt < limit := by rw [lt_def]; omega
    apply iterate_leave _ fuel
    simp only [growTurn, past, ↓reduceIte, pagesUp, growPages]
  | succ pages ih =>
    have inside : virt < limit := by rw [lt_def]; omega
    obtain ⟨rest, rfl⟩ : ∃ rest, turns = rest + 1 := ⟨turns - 1, by omega⟩
    have next : (virt + pageSize).toNat = virt.toNat + 4096 := next_page (by omega)
    by_cases null : (alloc.allocatePage st.frames).1 = 0
    · apply iterate_leave _ (by omega)
      simp only [growTurn, inside, ↓reduceIte, pagesUp, growPages, null]
    · simp only [pagesUp, growPages, null, ↓reduceIte]
      rw [← ih rest _ _ (by omega) (by omega)]
      apply iterate_again
      simp only [growTurn, inside, ↓reduceIte, null, mapPage]

/-- The turn of the loop in the heap over an abstract machine. -/
def drawPage (space : Addr) (st : Physical σ) (virt : Addr) : Option (Physical σ) :=
  let (phys, frames) := alloc.allocatePage st.frames
  if phys = 0 then none
  else some (pagingMapPageInSpace alloc { st with frames } virt phys space pagingDefaultFlags false)

theorem loops_agree (space limit : Addr) (turns : Nat) (state : Addr × Physical σ) :
    iterate (mapTurn (drawPage alloc space) limit) turns state =
      (iterate (growTurn alloc space limit) turns state).map fun run => if run.1 then some run.2 else none := by
  induction turns generalizing state with
  | zero => rfl
  | succ turns ih =>
    obtain ⟨virt, st⟩ := state
    by_cases inside : virt < limit
    · by_cases null : (alloc.allocatePage st.frames).1 = 0
      · simp [iterate, mapTurn, growTurn, drawPage, inside, null]
      · let next := pagingMapPageInSpace alloc { st with frames := (alloc.allocatePage st.frames).2 }
          virt (alloc.allocatePage st.frames).1 space pagingDefaultFlags false
        have asked : mapTurn (drawPage alloc space) limit (virt, st) = .again (virt + pageSize, next) := by
          simp only [mapTurn, drawPage, inside, ↓reduceIte, null, next]
        have goes : growTurn alloc space limit (virt, st) = .again (virt + pageSize, next) := by
          simp only [growTurn, inside, ↓reduceIte, null, next]
        rw [iterate_again asked, iterate_again goes, ih]
    · simp [iterate, mapTurn, growTurn, inside]

/-- The heap over an abstract machine expands when this one does, and to the same heap. -/
theorem heapExpand_refined (space : Addr) (heap after : KernelHeap (Physical σ)) :
    heapExpand (drawPage alloc space) heap = some (true, after) ↔
      heapExpandIn alloc space heap = some (true, after) := by
  unfold heapExpand heapExpandIn
  by_cases full : heapMaxExpansion < heap.heapEnd + heapExpansionStep
  · simp only [if_pos full]
  · simp only [if_neg full, loops_agree]
    cases iterate (growTurn alloc space (heap.heapEnd + heapExpansionStep)) maxTurns
        (heap.heapStart, heap.machine) with
    | none => simp
    | some run =>
      obtain ⟨finished, machine⟩ := run
      cases finished <;> simp

end Model

/-! ## One page -/

/-- Some entry of the space points at the frame. -/
def Referenced (mem : Memory) (root frame : Frame) : Prop :=
  (∃ path, path ≠ [] ∧ path.length ≤ 3 ∧ descend (child mem) root path = some frame) ∨
    ∃ path key entry, path.length = 3 ∧ leaf mem root path key = some entry ∧ frameOf entry = frame

section Pages
variable {σ : Type} {alloc : LawfulAllocator σ} {root : Frame} {region : List Key → Prop} {virt : Addr}

/-- Where the frames drawn since `start` went: they are tables over the page, and new ones. -/
structure Hung (alloc : LawfulAllocator σ) (root : Frame) (region : List Key → Prop) (virt : Addr)
    (start st : Physical σ) : Prop extends Counts alloc root region virt start st where
  keeps : ∀ frame, alloc.held start.frames frame → alloc.held st.frames frame
  taken : ∀ frame, alloc.held st.frames frame →
    alloc.held start.frames frame ∨ ∃ table : Frame, table.val = frame ∧ Table st.mem root table
  fresh : ∀ table, Table st.mem root table → Table start.mem root table ∨ ¬ alloc.held start.frames table.val

theorem hung_start {start : Physical σ} (blank : Blank region start.mem root)
    (held : TablesHeld alloc root start) : Hung alloc root region virt start start :=
  ⟨counts_start blank held, fun _ => id, fun _ => .inl, fun _ => .inl⟩

theorem hung_entered {start before after : Physical σ} {path : List Key} {next : Frame}
    (hung : Hung alloc root region virt start before) (short : path.length ≤ 3) (along : path <+: pagePath virt)
    (enters : Enters before.mem after.mem root path next)
    (source : Sourced alloc before root next after.frames) : Hung alloc root region virt start after := by
  have stays : ∀ table, Table before.mem root table → Table after.mem root table := by
    rintro table ⟨probe, short, reached⟩
    exact ⟨probe, short, (enters.opens List.prefix_rfl).grown probe table short reached⟩
  have carried : ∀ frame, alloc.held before.frames frame → alloc.held start.frames frame ∨
      ∃ table : Frame, table.val = frame ∧ Table after.mem root table := by
    intro frame owned
    rcases hung.taken frame owned with old | ⟨table, here, reached⟩
    · exact .inl old
    · exact .inr ⟨table, here, stays table reached⟩
  have counts := counts_entered hung.toCounts short along enters source
  rcases source with ⟨there, same⟩ | ⟨nonzero, drawn⟩
  · refine ⟨counts, fun frame owned => same ▸ hung.keeps frame owned, fun frame owned => carried frame (same ▸ owned), ?_⟩
    intro table reached
    rcases enters.table_cases reached with rfl | reached
    · exact hung.fresh table there
    · exact hung.fresh table reached
  · obtain ⟨_, free, taken⟩ := alloc.draw_spec hung.held.sound nonzero drawn
    refine ⟨counts, fun frame owned => (taken _).mpr (.inl (hung.keeps frame owned)), ?_, ?_⟩
    · intro frame owned
      rcases (taken _).mp owned with old | rfl
      · exact carried frame old
      · exact .inr ⟨next, rfl, path, short, by rw [enters.paths path short, if_pos rfl]⟩
    · intro table reached
      rcases enters.table_cases reached with rfl | reached
      · exact .inr fun owned => free (hung.keeps _ owned)
      · exact hung.fresh table reached

theorem hung_supports (low : LowReserve alloc)
    (inside : ∀ probe, probe <+: pagePath virt → probe ≠ [] → region probe) (start : Physical σ) :
    Supports alloc root (pagePath virt) (Hung alloc root region virt start) fun _ _ frame => frame ≠ 0 where
  suited st path table key hung := (counts_supports low inside start).suited st path table key hung.toCounts
  entered _ _ _ _ hung short along enters source := hung_entered hung short along enters source
  rests before after hung frames paths still := by
    have tables := table_iff_of_paths paths
    refine ⟨(counts_supports low inside start).rests before after hung.toCounts frames paths still, ?_, ?_, ?_⟩
    · rw [frames]
      exact hung.keeps
    · intro frame owned
      rw [frames] at owned
      simpa only [tables] using hung.taken frame owned
    · intro table reached
      exact hung.fresh table ((tables table).mp reached)

/-- What one turn does with the frame it drew. -/
structure Grows (alloc : LawfulAllocator σ) (root : Frame) (region : List Key → Prop) (virt : Addr) (phys : Frame)
    (before after : Physical σ) : Prop where
  tree : TableTree after.mem root
  held : TablesHeld alloc root after
  blank : Blank region after.mem root
  grown : ∀ probe table, probe.length ≤ 3 → descend (child before.mem) root probe = some table →
    descend (child after.mem) root probe = some table
  leaves : ∀ probe key, probe.length = 3 → leaf after.mem root probe key = if probe ++ [key] = pagePath virt then
      (leaf before.mem root probe key).or (some (0 ||| pagingDefaultFlags.ptFlags ||| phys.val))
    else leaf before.mem root probe key
  same : leaf before.mem root (tablePath virt) (ptKey virt) ≠ none → after.mem = before.mem
  free : ¬ alloc.held before.frames phys.val
  drawn : alloc.held after.frames phys.val
  keeps : ∀ frame, alloc.held before.frames frame → alloc.held after.frames frame
  taken : ∀ frame, alloc.held after.frames frame → alloc.held before.frames frame ∨ frame = phys.val ∨
    ∃ table : Frame, table.val = frame ∧ Table after.mem root table
  fresh : ∀ table, Table after.mem root table → Table before.mem root table ∨ ¬ alloc.held before.frames table.val
  low : phys.val.toNat < 2 ^ 52

theorem turn_grows (low : LowReserve alloc) (inside : ∀ probe, probe <+: pagePath virt → probe ≠ [] → region probe)
    {st : Physical σ} (tree : TableTree st.mem root) (held : TablesHeld alloc root st)
    (blank : Blank region st.mem root) (supplied : PageSupplied alloc root pagingDefaultFlags st virt) :
    ∃ phys : Frame, phys.val = (alloc.allocatePage st.frames).1 ∧ Grows alloc root region virt phys st
        (mapPage alloc root.val pagingDefaultFlags st virt) := by
  obtain ⟨found, fed⟩ := supplied
  obtain ⟨reserve, free⟩ := alloc.drawn _ held.sound found
  have taken := alloc.taken _ held.sound found
  let drawn : Physical σ := { st with frames := (alloc.allocatePage st.frames).2 }
  refine ⟨⟨_, alloc.aligned _ reserve⟩, rfl, ?_⟩
  obtain ⟨maps, hung⟩ := map_maps (hung_supports low inside drawn) (hung_start blank (held_draw held found)) tree
    paging_plain fed
    (alloc.allocatePage st.frames).1
  refine ⟨maps.tree, hung.held, hung.blank, maps.grown, ?_, ?_, free, hung.keeps _ ((taken _).mpr (.inr rfl)), ?_, ?_,
    ?_, low _ reserve⟩
  · intro probe key deep
    rw [mapPage, maps.leaves probe key deep]
    rfl
  · intro mapped
    rw [mapped_page_same mapped]
  · intro frame owned
    exact hung.keeps frame ((taken _).mpr (.inl owned))
  · intro frame owned
    rcases hung.taken frame owned with old | new
    · exact ((taken _).mp old).imp_right .inl
    · exact .inr (.inr new)
  · intro table reached
    refine (hung.fresh table reached).imp_right fun unheld owned => ?_
    exact unheld ((taken _).mpr (.inl owned))

section Step
variable {phys : Frame} {before after : Physical σ}

theorem Grows.referenced (grows : Grows alloc root region virt phys before after)
    (known : Referenced before.mem root frame) : Referenced after.mem root frame := by
  rcases known with ⟨path, nonempty, short, reached⟩ | ⟨path, key, entry, deep, present, here⟩
  · exact .inl ⟨path, nonempty, short, grows.grown path frame short reached⟩
  · refine .inr ⟨path, key, entry, deep, ?_, here⟩
    rw [grows.leaves path key deep, present]
    simp

theorem Grows.mapped (grows : Grows alloc root region virt phys before after) (probe : Addr) :
    Mapped root after probe ↔ Mapped root before probe ∨ pageKey virt = pageKey probe := by
  rw [Mapped, Mapped, grows.leaves _ _ rfl]
  simp only [same_page_iff]
  by_cases own : pageKey virt = pageKey probe
  · simp [own]
  · simp [own]

theorem frameOf_data (low : phys.val.toNat < 2 ^ 52) :
    frameOf (0 ||| pagingDefaultFlags.ptFlags ||| phys.val) = phys :=
  UserSpace.frameOf_entry paging_plain.pt (Nat.lt_trans low (by decide))

/-- A new reference is to a frame the turn drew. -/
theorem Grows.referenced_back (grows : Grows alloc root region virt phys before after)
    (known : Referenced after.mem root frame) : Referenced before.mem root frame ∨
      (alloc.held after.frames frame.val ∧ ¬ alloc.held before.frames frame.val) := by
  rcases known with ⟨path, nonempty, short, reached⟩ | ⟨path, key, entry, deep, present, here⟩
  · have table : Table after.mem root frame := ⟨path, short, reached⟩
    rcases grows.fresh frame table with ⟨old, oldShort, oldReached⟩ | unheld
    · have same := grows.tree.unshared old path frame oldShort short
        (grows.grown old frame oldShort oldReached) reached
      exact .inl (.inl ⟨path, nonempty, short, same ▸ oldReached⟩)
    · exact .inr ⟨grows.held.held frame table, unheld⟩
  · rw [grows.leaves path key deep] at present
    split at present
    · cases old : leaf before.mem root path key with
      | some word =>
        rw [old, some_or] at present
        exact .inl (.inr ⟨path, key, entry, deep, by rw [old, present], here⟩)
      | none =>
        rw [old, none_or, Option.some.injEq] at present
        rw [← present, frameOf_data grows.low] at here
        rw [← here]
        exact .inr ⟨grows.drawn, grows.free⟩
    · exact .inl (.inr ⟨path, key, entry, deep, present, here⟩)

/-- Every frame the turn took is referenced, unless the page was mapped already. -/
theorem Grows.taken_referenced (grows : Grows alloc root region virt phys before after)
    (held : TablesHeld alloc root before) {frame : Addr} (owned : alloc.held after.frames frame)
    (unowned : ¬ alloc.held before.frames frame) :
    (∃ place : Frame, place.val = frame ∧ Referenced after.mem root place) ∨
      (frame = phys.val ∧ Mapped root before virt) := by
  rcases grows.taken frame owned with old | rfl | ⟨table, rfl, path, short, reached⟩
  · exact absurd old unowned
  · by_cases mapped : Mapped root before virt
    · exact .inr ⟨rfl, mapped⟩
    · refine .inl ⟨phys, rfl, .inr ⟨tablePath virt, ptKey virt, _, rfl, ?_, frameOf_data grows.low⟩⟩
      rw [grows.leaves _ _ rfl, if_pos (show tablePath virt ++ [ptKey virt] = pagePath virt from rfl),
        not_not.mp mapped, none_or]
  · refine .inl ⟨table, rfl, .inl ⟨path, ?_, short, reached⟩⟩
    rintro rfl
    cases reached
    exact unowned (held.held root ⟨[], Nat.zero_le 3, descend_nil⟩)

end Step

/-! ## All pages -/

/-- The frame drawn for a page that is mapped: one for each page before it, and one
for each table those lack, come first. -/
def Surplus (alloc : FrameAllocator σ) (root : Frame) (start : Physical σ) (pages : List Addr) (frame : Addr) : Prop :=
  ∃ turn virt, pages[turn]? = some virt ∧ Mapped root start virt ∧
    frame = draw alloc start.frames (turn + (missing start.mem root (pages.take turn)).length)

theorem surplus_snoc {alloc : FrameAllocator σ} {start : Physical σ} {done : List Addr} {frame : Addr} :
    Surplus alloc root start (done ++ [virt]) frame ↔ Surplus alloc root start done frame ∨ (Mapped root start virt ∧
        frame = draw alloc start.frames (done.length + (missing start.mem root done).length)) := by
  constructor
  · rintro ⟨turn, page, here, mapped, rfl⟩
    have bound := (List.getElem?_eq_some_iff.mp here).1
    rw [List.length_append, List.length_singleton] at bound
    by_cases early : turn < done.length
    · rw [List.getElem?_append_left early] at here
      exact .inl ⟨turn, page, here, mapped, by rw [List.take_append_of_le_length early.le]⟩
    · obtain rfl : turn = done.length := by omega
      rw [List.getElem?_concat_length, Option.some.injEq] at here
      exact .inr ⟨here ▸ mapped, by rw [List.take_left]⟩
  · rintro (⟨turn, page, here, mapped, rfl⟩ | ⟨mapped, rfl⟩)
    · have early := (List.getElem?_eq_some_iff.mp here).1
      exact ⟨turn, page, by rw [List.getElem?_append_left early, here], mapped,
        by rw [List.take_append_of_le_length early.le]⟩
    · exact ⟨done.length, virt, List.getElem?_concat_length, mapped, by rw [List.take_left]⟩

/-- What the turns for the pages so far have done, all of them served. -/
structure Progress (alloc : LawfulAllocator σ) (root : Frame) (region : List Key → Prop) (start : Physical σ)
    (done : List Addr) (st : Physical σ) : Prop where
  tree : TableTree st.mem root
  held : TablesHeld alloc root st
  blank : Blank region st.mem root
  opened : ∃ tables, Opened alloc root done done.length start st tables
  mapped : ∀ virt, Mapped root st virt ↔ Mapped root start virt ∨ ∃ page ∈ done, pageKey page = pageKey virt
  keeps : ∀ frame, alloc.held start.frames frame → alloc.held st.frames frame
  referenced : ∀ frame, Referenced start.mem root frame → Referenced st.mem root frame
  back : ∀ frame, Referenced st.mem root frame → Referenced start.mem root frame ∨
    (alloc.held st.frames frame.val ∧ ¬ alloc.held start.frames frame.val)
  taken : ∀ frame, alloc.held st.frames frame → alloc.held start.frames frame ∨
    Surplus alloc root start done frame ∨ ∃ place : Frame, place.val = frame ∧ Referenced st.mem root place
  drawn : ∀ frame, Surplus alloc root start done frame → frame.toNat % 4096 = 0 ∧
    alloc.held st.frames frame ∧ ¬ alloc.held start.frames frame
  lost : ∀ frame : Frame, Surplus alloc root start done frame.val → Referenced st.mem root frame →
    Referenced start.mem root frame

theorem progress_start {start : Physical σ} (tree : TableTree start.mem root)
    (held : TablesHeld alloc root start) (blank : Blank region start.mem root) :
    Progress alloc root region start [] start := by
  have none : ∀ frame, ¬ Surplus alloc root start [] frame := by
    rintro frame ⟨turn, virt, here, _⟩
    simp at here
  exact ⟨tree, held, blank, ⟨[], opened_of_paths (fun _ _ => rfl) (draws_zero _) _⟩, by simp, fun _ => id, fun _ => id,
    fun _ => .inl, fun _ => .inl, fun frame surplus => absurd surplus (none frame),
    fun frame surplus => absurd surplus (none _)⟩

section Progress
variable {start st : Physical σ} {done rest : List Addr}

theorem Progress.present (progress : Progress alloc root region start done st) (member : page ∈ done) :
    descend (child st.mem) root (tablePath page) ≠ none := by
  have mapped := (progress.mapped page).mpr (.inr ⟨page, member, rfl⟩)
  exact fun absent => mapped (by rw [leaf, absent]; rfl)

/-- The draws behind a run are those of its pages and of the tables they lacked. -/
theorem Progress.draws (progress : Progress alloc root region start done st) :
    Draws alloc (done.length + (missing start.mem root done).length) start.frames st.frames := by
  obtain ⟨tables, opened⟩ := progress.opened
  have count := opened.missing_append (fun page member => progress.present member) []
  rw [List.append_nil] at count
  rw [count]
  exact opened.draws

theorem Progress.step {phys : Frame} {after : Physical σ} (progress : Progress alloc root region start done st)
    (grows : Grows alloc root region virt phys st after) (opened : Opened alloc root [virt] 1 st after tables)
    (drew : phys.val = (alloc.allocatePage st.frames).1) (new : ∀ page ∈ done, pageKey page ≠ pageKey virt) :
    Progress alloc root region start (done ++ [virt]) after := by
  have index : phys.val = draw alloc start.frames (done.length + (missing start.mem root done).length) := by
    rw [drew, progress.draws.spent, draw]
  have unmapped : Mapped root st virt ↔ Mapped root start virt := by
    rw [progress.mapped]
    refine or_iff_left ?_
    rintro ⟨page, member, same⟩
    exact new page member same
  refine ⟨grows.tree, grows.held, grows.blank, ?_, ?_, fun frame => grows.keeps frame ∘ progress.keeps frame,
    fun frame known => grows.referenced (progress.referenced frame known), ?_, ?_, ?_, ?_⟩
  · obtain ⟨made, first⟩ := progress.opened
    exact ⟨_, by simpa only [List.length_append, List.length_singleton] using first.trans opened⟩
  · intro probe
    rw [grows.mapped, progress.mapped]
    simp only [List.mem_append, List.mem_singleton, or_and_right, exists_or, exists_eq_left]
    grind
  · intro frame known
    rcases grows.referenced_back known with earlier | ⟨owned, unowned⟩
    · exact (progress.back frame earlier).imp_right fun new => ⟨grows.keeps _ new.1, new.2⟩
    · exact .inr ⟨owned, fun old => unowned (progress.keeps _ old)⟩
  · intro frame owned
    by_cases old : alloc.held st.frames frame
    · rcases progress.taken frame old with older | surplus | ⟨place, here, known⟩
      · exact .inl older
      · exact .inr (.inl (surplus_snoc.mpr (.inl surplus)))
      · exact .inr (.inr ⟨place, here, grows.referenced known⟩)
    · rcases grows.taken_referenced progress.held owned old with known | ⟨rfl, mapped⟩
      · exact .inr (.inr known)
      · exact .inr (.inl (surplus_snoc.mpr (.inr ⟨unmapped.mp mapped, index⟩)))
  · intro frame surplus
    rcases surplus_snoc.mp surplus with earlier | ⟨_, rfl⟩
    · obtain ⟨aligned, owned, unowned⟩ := progress.drawn frame earlier
      exact ⟨aligned, grows.keeps _ owned, unowned⟩
    · rw [← index]
      exact ⟨phys.property, grows.drawn, fun old => grows.free (progress.keeps _ old)⟩
  · intro frame surplus known
    rcases surplus_snoc.mp surplus with earlier | ⟨mapped, own⟩
    · have before := (grows.referenced_back known).resolve_right fun new => new.2 (progress.drawn _ earlier).2.1
      exact progress.lost frame earlier before
    · -- the map left the page alone, so nothing came to point at the frame
      rw [grows.same (unmapped.mpr mapped)] at known
      exact (progress.back frame known).resolve_right fun new => grows.free (index ▸ own ▸ new.1)

section Loop
variable (low : LowReserve alloc) (progress : Progress alloc root region start done st)
  (inside : ∀ page ∈ rest, ∀ probe, probe <+: pagePath page → probe ≠ [] → region probe)
  (distinct : ((done ++ rest).map pageKey).Nodup)
include low progress inside distinct

theorem Progress.next (split : rest = virt :: later)
    (supplied : PageSupplied alloc root pagingDefaultFlags st virt) : growPages alloc root.val st rest =
        growPages alloc root.val (mapPage alloc root.val pagingDefaultFlags st virt) later ∧
      Progress alloc root region start (done ++ [virt]) (mapPage alloc root.val pagingDefaultFlags st virt) := by
  subst split
  have here := inside virt (by simp)
  obtain ⟨phys, same, grows⟩ := turn_grows low here progress.tree progress.held progress.blank supplied
  obtain ⟨tables, opened, _⟩ :=
    mapPage_opened low here progress.tree progress.held progress.blank paging_plain supplied
  refine ⟨by rw [growPages, if_neg supplied.1], progress.step grows opened same fun page member alike => ?_⟩
  rw [List.map_append, List.nodup_append] at distinct
  exact distinct.2.2 _ (List.mem_map_of_mem member) _ (List.mem_map_of_mem (by simp)) alike

/-- With enough frames the loop comes to its end. -/
theorem Progress.finishes (enough : Enough alloc root st rest) :
    ∃ after, growPages alloc root.val st rest = (true, after) ∧
      Progress alloc root region start (done ++ rest) after := by
  induction rest generalizing done st with
  | nil => exact ⟨st, rfl, by rwa [List.append_nil]⟩
  | cons virt rest ih =>
    obtain ⟨supplied, enough⟩ := (enough_cons low (inside virt (by simp)) progress.tree progress.held progress.blank
      paging_plain rest).mp enough
    obtain ⟨turned, further⟩ := progress.next low inside distinct rfl supplied
    rw [List.append_cons] at distinct ⊢
    rw [turned]
    exact ih further (fun page member => inside page (by simp [member])) distinct enough

/-- Without, it gives up: a turn that lacks a frame for a table leaves none for the
page after it, and the last page finds its tables there. -/
theorem Progress.gives_up (persistent : Persistent alloc)
    (last : ∀ front virt, done ++ rest = front ++ [virt] → ∃ page ∈ front, tablePath page = tablePath virt)
    (short : ¬ Enough alloc root st rest) : (growPages alloc root.val st rest).1 = false := by
  induction rest generalizing done st with
  | nil => exact absurd (fun index none => absurd none (Nat.not_lt_zero index)) short
  | cons virt rest ih =>
    have here := inside virt (by simp)
    by_cases supplied : PageSupplied alloc root pagingDefaultFlags st virt
    · obtain ⟨turned, further⟩ := progress.next low inside distinct rfl supplied
      rw [List.append_cons] at distinct last
      rw [turned]
      refine ih further (fun page member => inside page (by simp [member])) distinct last fun enough => short ?_
      exact (enough_cons low here progress.tree progress.held progress.blank paging_plain rest).mpr ⟨supplied, enough⟩
    · by_cases null : (alloc.allocatePage st.frames).1 = 0
      · rw [growPages, if_pos null]
      · rw [growPages, if_neg null]
        have spent : ¬ Live alloc (mapPage alloc root.val pagingDefaultFlags st virt).frames :=
          fun live => supplied (mapPage_live persistent progress.held.sound live).2
        cases rest with
        | cons next rest => rw [growPages, if_pos (not_not.mp spent)]
        | nil =>
          obtain ⟨page, member, same⟩ := last done virt rfl
          have none : missing st.mem root [virt] = [] := by
            refine List.eq_nil_iff_forall_not_mem.mpr fun path lacks => ?_
            obtain ⟨⟨_, here, along⟩, absent⟩ := mem_missing.mp lacks
            rw [List.mem_singleton.mp here, ← same] at along
            exact descend_along (progress.present member) along absent
          refine absurd (enough_supplied low here progress.tree progress.held progress.blank paging_plain ?_) supplied
          intro index inside
          rw [none] at inside
          obtain rfl : index = 0 := by simpa using inside
          exact null

end Loop
end Progress

theorem growPages_keeps {alloc : FrameAllocator σ} {kept : σ → Prop}
    (draw : ∀ frames, kept frames → kept (alloc.allocatePage frames).2) {st : Physical σ}
    (start : kept st.frames) (space : Addr) (pages : List Addr) : kept (growPages alloc space st pages).2.frames := by
  induction pages generalizing st with
  | nil => exact start
  | cons virt rest ih =>
    rw [growPages]
    split
    · exact draw _ start
    · exact ih (pagingMapPageInSpace_keeps draw (draw _ start) _ _ _ _)

/-- A run that drew a frame never gives it back. -/
theorem growPages_changed {st : Physical σ} (sound : alloc.sound st.frames)
    (found : (alloc.allocatePage st.frames).1 ≠ 0) (space virt : Addr) (rest : List Addr) :
    (growPages alloc space st (virt :: rest)).2 ≠ st := by
  obtain ⟨_, free⟩ := alloc.drawn _ sound found
  have first := (alloc.taken _ sound found _).mpr (.inr rfl)
  have draw : ∀ frames, alloc.sound frames ∧ alloc.held frames (alloc.allocatePage st.frames).1 →
      alloc.sound (alloc.allocatePage frames).2 ∧
        alloc.held (alloc.allocatePage frames).2 (alloc.allocatePage st.frames).1 := by
    rintro frames ⟨sound, owned⟩
    refine ⟨alloc.drawn_sound _ sound, ?_⟩
    by_cases null : (alloc.allocatePage frames).1 = 0
    · exact (alloc.exhausted _ sound null _).mpr owned
    · exact (alloc.taken _ sound null _).mpr (.inl owned)
  have turned : alloc.sound (mapPage alloc space pagingDefaultFlags st virt).frames ∧
      alloc.held (mapPage alloc space pagingDefaultFlags st virt).frames
        (alloc.allocatePage st.frames).1 :=
    pagingMapPageInSpace_keeps draw ⟨alloc.drawn_sound _ sound, first⟩ _ _ _ _
  rw [growPages, if_neg found]
  intro same
  exact free (same ▸ growPages_keeps draw turned space rest).2

end Pages

/-! ## The expansion -/

theorem mem_pagesUp {virt probe : Addr} {pages : Nat} (room : virt.toNat + pages * 4096 ≤ 2 ^ 64) :
    probe ∈ pagesUp virt pages ↔ ∃ page < pages, probe.toNat = virt.toNat + page * 4096 := by
  induction pages generalizing virt with
  | zero => simp [pagesUp]
  | succ pages ih =>
    rw [pagesUp, List.mem_cons]
    by_cases last : pages = 0
    · subst last
      simp [pagesUp, toNat_inj]
    · have next : (virt + pageSize).toNat = virt.toNat + 4096 := next_page (by omega)
      rw [ih (by omega), next]
      constructor
      · rintro (rfl | ⟨page, inside, place⟩)
        · exact ⟨0, by omega, by simp⟩
        · exact ⟨page + 1, by omega, by omega⟩
      · rintro ⟨page, inside, place⟩
        cases page with
        | zero => exact .inl (eq_of_toNat_eq (by omega))
        | succ page => exact .inr ⟨page, by omega, by omega⟩

theorem pagesUp_snoc (virt : Addr) (pages : Nat) (room : virt.toNat + pages * 4096 < 2 ^ 64) :
    ∃ last : Addr, last.toNat = virt.toNat + pages * 4096 ∧ pagesUp virt (pages + 1) = pagesUp virt pages ++ [last] := by
  induction pages generalizing virt with
  | zero => exact ⟨virt, by simp, rfl⟩
  | succ pages ih =>
    have next : (virt + pageSize).toNat = virt.toNat + 4096 := next_page (by omega)
    obtain ⟨last, place, split⟩ := ih (virt + pageSize) (by omega)
    exact ⟨last, by omega, by rw [pagesUp, split, pagesUp, List.cons_append]⟩

/-- No two pages of the kernel's half have one key. -/
theorem pagesUp_distinct (virt : Addr) (pages : Nat) (high : 0xFFFF800000000000 ≤ virt.toNat)
    (aligned : virt.toNat % 4096 = 0) (room : virt.toNat + pages * 4096 < 2 ^ 64) :
    ((pagesUp virt pages).map pageKey).Nodup := by
  induction pages generalizing virt with
  | zero => exact List.nodup_nil
  | succ pages ih =>
    have next : (virt + pageSize).toNat = virt.toNat + 4096 := next_page (by omega)
    refine List.nodup_cons.mpr ⟨?_, ih _ (by omega) (by omega) (by omega)⟩
    intro member
    obtain ⟨page, later, same⟩ := List.mem_map.mp member
    obtain ⟨index, inside, place⟩ := (mem_pagesUp (by omega)).mp later
    have keys := congrArg BitVec.toNat same
    rw [pageKey_toNat, pageKey_toNat] at keys
    omega

/-- Pages of one table have one path to it. -/
theorem tablePath_eq {first second : Addr} (same : first.toNat / 0x200000 = second.toNat / 0x200000) :
    tablePath first = tablePath second := by
  have key : ∀ shift, 21 ≤ shift → first.extractLsb' shift 9 = second.extractLsb' shift 9 := by
    intro shift far
    obtain ⟨more, rfl⟩ := Nat.exists_eq_add_of_le far
    apply eq_of_toNat_eq
    simp only [extractLsb'_toNat, Nat.shiftRight_add]
    rw [Nat.shiftRight_eq_div_pow _ 21, Nat.shiftRight_eq_div_pow _ 21, same]
  rw [tablePath, tablePath, pml4Key, pdptKey, pdKey, key 39 (by decide), key 30 (by decide), key 21 (by decide)]
  rfl

section Expansion
variable {σ : Type}

/-- The pages from `heapStart` to the end after an expansion. -/
def window (heap : KernelHeap (Physical σ)) : List Addr :=
  pagesUp heap.heapStart ((heap.heapEnd.toNat + heapExpansionStep.toNat - heap.heapStart.toNat) / 4096)

/-- An expansion that succeeds has a use for every frame it took and maps the new
area; one that fails leaves the heap and the machine as they were. -/
structure Conserves (alloc : LawfulAllocator σ) (root : Frame) (heap after : KernelHeap (Physical σ))
    (expanded : Bool) : Prop where
  frames : expanded = true → ∀ frame, alloc.held after.machine.frames frame → alloc.held heap.machine.frames frame ∨
      ∃ place : Frame, place.val = frame ∧ Referenced after.machine.mem root place
  mapped : expanded = true → ∀ virt : Addr, heap.heapEnd.toNat ≤ virt.toNat →
    virt.toNat < heap.heapEnd.toNat + heapExpansionStep.toNat → Mapped root after.machine virt
  undone : expanded = false → after = heap

/-- The heap occupies whole pages of the kernel's half, in the space whose tables the
allocator holds; over its pages and those to come no entry is stale, and the last
page to come is not the first of its table. -/
structure Placed (alloc : LawfulAllocator σ) (root : Frame) (heap : KernelHeap (Physical σ)) : Prop where
  startAligned : heap.heapStart.toNat % 4096 = 0
  endAligned : heap.heapEnd.toNat % 4096 = 0
  inner : (heap.heapEnd.toNat + 0xFF000) % 0x200000 ≠ 0
  high : 0xFFFF800000000000 ≤ heap.heapStart.toNat
  order : heap.heapStart.toNat ≤ heap.heapEnd.toNat
  bounded : heap.heapEnd.toNat ≤ heapMaxExpansion.toNat
  tree : TableTree heap.machine.mem root
  held : TablesHeld alloc root heap.machine
  blank : Blank (fun slots => ∃ page ∈ window heap, slots <+: pagePath page) heap.machine.mem root
  mapped : ∀ virt : Addr, heap.heapStart.toNat ≤ virt.toNat → virt.toNat < heap.heapEnd.toNat →
    Mapped root heap.machine virt

variable {alloc : LawfulAllocator σ} {root : Frame} {heap : KernelHeap (Physical σ)}

theorem end_toNat (bounded : heap.heapEnd.toNat ≤ heapMaxExpansion.toNat) :
    (heap.heapEnd + heapExpansionStep).toNat = heap.heapEnd.toNat + 0x100000 := by
  have top : heapMaxExpansion.toNat = 0xFFFF800150100000 := rfl
  have step : heapExpansionStep.toNat = 0x100000 := rfl
  rw [toNat_add, step, Nat.mod_eq_of_lt (by omega)]

/-- The heap in pages, with room for one more step before the addresses end. -/
theorem Placed.span (placed : Placed alloc root heap) :
    ∃ first pages, heap.heapStart.toNat = first * 4096 ∧ heap.heapEnd.toNat = (first + pages) * 4096 ∧
      heapExpansionStep.toNat = 0x100000 ∧ (first + pages + 256) * 4096 < 2 ^ 64 := by
  have top : heapMaxExpansion.toNat = 0xFFFF800150100000 := rfl
  have order := placed.order
  have bounded := placed.bounded
  have startAligned := placed.startAligned
  have endAligned := placed.endAligned
  exact ⟨heap.heapStart.toNat / 4096, heap.heapEnd.toNat / 4096 - heap.heapStart.toNat / 4096,
    by omega, by omega, rfl, by omega⟩

/-- The expansion below the limit is the loop over the window, then the chunk list. -/
theorem heapExpandIn_eq (placed : Placed alloc root heap)
    (below : ¬ heapMaxExpansion < heap.heapEnd + heapExpansionStep)
    (grown : expand heap.head heap.mem heapExpansionStep = some mem)
    (ran : growPages alloc root.val heap.machine (window heap) = (finished, machine)) :
    heapExpandIn alloc root.val heap = some (finished, if finished then
      { heap with mem, machine, heapEnd := heap.heapEnd + heapExpansionStep } else { heap with machine }) := by
  obtain ⟨first, pages, starts, ends, step, room⟩ := placed.span
  have place := end_toNat placed.bounded
  have loop := grow_returns alloc root.val (heap.heapEnd + heapExpansionStep)
    ((heap.heapEnd.toNat + heapExpansionStep.toNat - heap.heapStart.toNat) / 4096) maxTurns heap.heapStart
    heap.machine (by omega) (by rw [maxTurns]; omega)
  rw [window] at ran
  rw [heapExpandIn, if_neg below, loop, ran]
  cases finished with
  | false => rfl
  | true => simp only [bind_eq_bind, bind_some, grown, Bool.not_true, Bool.false_eq_true, ↓reduceIte]

theorem window_cons (order : heap.heapStart.toNat ≤ heap.heapEnd.toNat) :
    ∃ rest, window heap = heap.heapStart :: rest := by
  have step : heapExpansionStep.toNat = 0x100000 := rfl
  obtain ⟨pages, count⟩ : ∃ pages, (heap.heapEnd.toNat + heapExpansionStep.toNat - heap.heapStart.toNat) / 4096 =
      pages + 1 := ⟨_, (Nat.sub_add_cancel (by omega)).symm⟩
  exact ⟨_, by rw [window, count, pagesUp]⟩

/-- The new area lies in the window. -/
theorem window_new (placed : Placed alloc root heap) {virt : Addr} (above : heap.heapEnd.toNat ≤ virt.toNat)
    (below : virt.toNat < heap.heapEnd.toNat + heapExpansionStep.toNat) :
    ∃ page ∈ window heap, pageKey page = pageKey virt := by
  obtain ⟨first, pages, starts, ends, step, room⟩ := placed.span
  have own : (BitVec.ofNat 64 (virt.toNat / 4096 * 4096)).toNat = virt.toNat / 4096 * 4096 := by
    rw [toNat_ofNat, Nat.mod_eq_of_lt (Nat.lt_of_le_of_lt (Nat.div_mul_le_self _ _) virt.isLt)]
  refine ⟨BitVec.ofNat 64 (virt.toNat / 4096 * 4096), (mem_pagesUp (by omega)).mpr ?_, ?_⟩
  · exact ⟨virt.toNat / 4096 - heap.heapStart.toNat / 4096, by omega, by omega⟩
  · apply eq_of_toNat_eq
    rw [pageKey_toNat, pageKey_toNat, own, Nat.mul_div_cancel _ (by decide)]

theorem window_distinct (placed : Placed alloc root heap) : ((window heap).map pageKey).Nodup := by
  obtain ⟨first, pages, starts, ends, step, room⟩ := placed.span
  exact pagesUp_distinct _ _ placed.high placed.startAligned (by omega)

/-- The last page of the window finds its table there: it is that of the page before. -/
theorem window_last (placed : Placed alloc root heap) {front : List Addr} {virt : Addr}
    (split : window heap = front ++ [virt]) : ∃ page ∈ front, tablePath page = tablePath virt := by
  obtain ⟨first, pages, starts, ends, step, room⟩ := placed.span
  have inner := placed.inner
  obtain ⟨more, count, size⟩ : ∃ more, (heap.heapEnd.toNat + heapExpansionStep.toNat - heap.heapStart.toNat) / 4096 =
      more + 1 + 1 ∧ more = pages + 254 := ⟨pages + 254, by omega, rfl⟩
  obtain ⟨last, place, shape⟩ := pagesUp_snoc heap.heapStart (more + 1) (by omega)
  rw [window, count, shape] at split
  obtain ⟨rfl, same⟩ := List.append_inj' split rfl
  obtain rfl : last = virt := by simpa using same
  have prior : (last - pageSize).toNat = last.toNat - 4096 := by
    rw [toNat_sub_of_le (by rw [le_def, pageSize_toNat]; omega), pageSize_toNat]
  exact ⟨last - pageSize, (mem_pagesUp (by omega)).mpr ⟨more, by omega, by omega⟩, tablePath_eq (by omega)⟩

/-- An expansion that ran to its end conserves frames when other entries refer to
the frames it drew for mapped pages, and not otherwise. -/
theorem finished_conserves_iff (placed : Placed alloc root heap)
    (run : Progress alloc root region heap.machine (window heap) machine) (mem : Memory) (heapEnd : Addr) :
    Conserves alloc root heap { heap with mem, machine, heapEnd } true ↔
      ∀ frame : Frame, Surplus alloc root heap.machine (window heap) frame.val →
        Referenced heap.machine.mem root frame := by
  constructor
  · intro conserves frame surplus
    obtain ⟨_, owned, unowned⟩ := run.drawn _ surplus
    obtain ⟨place, here, known⟩ := (conserves.frames rfl _ owned).resolve_left unowned
    obtain rfl : place = frame := Subtype.ext here
    exact run.lost place surplus known
  · intro elsewhere
    refine ⟨fun _ frame owned => ?_, fun _ virt above below => ?_, nofun⟩
    · rcases run.taken frame owned with old | surplus | known
      · exact .inl old
      · have aligned := (run.drawn frame surplus).1
        exact .inr ⟨⟨frame, aligned⟩, rfl, run.referenced _ (elsewhere ⟨frame, aligned⟩ surplus)⟩
      · exact .inr known
    · obtain ⟨page, member, same⟩ := window_new placed above below
      exact (run.mapped virt).mpr (.inr ⟨page, member, same⟩)

/-- An expansion that gave up conserves frames only if nothing happened at all. -/
theorem gave_up_conserves_iff (placed : Placed alloc root heap)
    (ran : growPages alloc root.val heap.machine (window heap) = (false, machine)) :
    Conserves alloc root heap { heap with machine } false ↔
      alloc.allocatePage heap.machine.frames = (0, heap.machine.frames) := by
  obtain ⟨rest, shape⟩ := window_cons placed.order
  rw [shape] at ran
  have undone : Conserves alloc root heap { heap with machine } false ↔ machine = heap.machine :=
    ⟨fun conserves => congrArg KernelHeap.machine (conserves.undone rfl),
      fun same => ⟨nofun, nofun, fun _ => by rw [same]⟩⟩
  rw [undone]
  by_cases null : (alloc.allocatePage heap.machine.frames).1 = 0
  · simp only [growPages, null, ↓reduceIte, Prod.mk.injEq, true_and] at ran
    rw [← ran]
    constructor
    · exact fun same => Prod.ext null (congrArg Physical.frames same)
    · exact fun same => congrArg (Physical.mk heap.machine.mem) (congrArg Prod.snd same)
  · have changed := growPages_changed placed.held.sound null root.val heap.heapStart rest
    rw [ran] at changed
    exact iff_of_false changed fun same => null (congrArg Prod.fst same)

/-- An expansion conserves frames exactly when the limit rejects it, when the first
draw fails without a trace, or when the allocator can serve all pages and the tables
they lack, and other entries refer to the frames that go to pages mapped already,
among them every page of the old heap. -/
theorem expand_conserves_iff (alloc : LawfulAllocator σ) (low : LowReserve alloc)
    (persistent : Persistent alloc) (root : Frame) (heap : KernelHeap (Physical σ))
    (live : List (Addr × BitVec 64)) (blocks : List FreelistLayout.Block) (placed : Placed alloc root heap)
    (accounted : Accounted heap live blocks) :
    ∃ expanded after, heapExpandIn alloc root.val heap = some (expanded, after) ∧
      (Conserves alloc root heap after expanded ↔ heapMaxExpansion < heap.heapEnd + heapExpansionStep ∨
        alloc.allocatePage heap.machine.frames = (0, heap.machine.frames) ∨
        (Enough alloc root heap.machine (window heap) ∧ ∀ frame : Frame,
          Surplus alloc root heap.machine (window heap) frame.val → Referenced heap.machine.mem root frame)) := by
  by_cases full : heapMaxExpansion < heap.heapEnd + heapExpansionStep
  · refine ⟨false, heap, by rw [heapExpandIn, if_pos full], ?_⟩
    exact ⟨fun _ => .inl full, fun _ => ⟨nofun, nofun, fun _ => rfl⟩⟩
  · obtain ⟨mem, _, grown, _⟩ := accounted.expands
    have start := progress_start placed.tree placed.held placed.blank
    have inside : ∀ page ∈ window heap, ∀ probe, probe <+: pagePath page → probe ≠ [] →
        ∃ page ∈ window heap, probe <+: pagePath page := fun page member _ along _ => ⟨page, member, along⟩
    -- left to the kernel, this equation unfolds the window instead
    have whole : [] ++ window heap = window heap := List.nil_append _
    have distinct : (([] ++ window heap).map pageKey).Nodup := by rw [whole]; exact window_distinct placed
    by_cases enough : Enough alloc root heap.machine (window heap)
    · obtain ⟨machine, ran, run⟩ := start.finishes low inside distinct enough
      rw [whole] at run
      have drew : alloc.allocatePage heap.machine.frames ≠ (0, heap.machine.frames) := by
        intro null
        obtain ⟨rest, shape⟩ := window_cons placed.order
        exact enough 0 (by rw [shape]; exact Nat.add_pos_left (Nat.succ_pos _) _) (congrArg Prod.fst null)
      refine ⟨_, _, heapExpandIn_eq placed full grown ran, ?_⟩
      rw [if_pos rfl, finished_conserves_iff placed run]
      simp only [full, false_or, drew, enough, true_and]
    · have gave := start.gives_up low inside distinct persistent
        (fun _ _ split => window_last placed (whole.symm.trans split)) enough
      obtain ⟨machine, ran⟩ : ∃ machine, growPages alloc root.val heap.machine (window heap) =
          (false, machine) := ⟨_, Prod.ext gave rfl⟩
      refine ⟨_, _, heapExpandIn_eq placed full grown ran, ?_⟩
      rw [if_neg Bool.false_ne_true, gave_up_conserves_iff placed ran]
      simp only [full, false_or, enough, false_and, or_false]

end Expansion

theorem list_persistent : Persistent listLaws := by
  rintro ⟨_ | ⟨frame, free⟩, out⟩ ⟨_, sound⟩ null
  · rfl
  · exact absurd null (sound frame (by simp)).1

/-- The page of a heap, and one beside it. -/
def besidePage : Addr := 0xFFFF8001000FF000

def besideAlias : Addr := 0xFFFF8001000FE000

/-- The page beside refers to the frame that is the next one free when both are mapped. -/
def besidePages : List MapRequest :=
  [⟨besidePage, ⟨0x300000, by decide⟩, pagingDefaultFlags, false, by decide, paging_plain⟩,
   ⟨besideAlias, ⟨0x6000, by decide⟩, pagingDefaultFlags, false, by decide, paging_plain⟩]

def besideSpace : Physical (List Addr × List Addr) :=
  ⟨clearFrame (fun _ => 0) smallRoot, frameRow 3 260, [smallRoot.val]⟩

def besideMachine : Physical (List Addr × List Addr) :=
  mapAll listLaws smallRoot besideSpace besidePages

def besideHeap : KernelHeap (Physical (List Addr × List Addr)) :=
  heapInitialize (fun _ => 0) besidePage (besidePage + pageSize) besideMachine

theorem beside_machine : besideHeap.machine = besideMachine := by
  simp only [besideHeap, heapInitialize]

theorem beside_frames : besideMachine.frames = (frameRow 6 257, [0x5000, 0x4000, 0x3000, 0x2000]) := by
  decide +kernel

theorem beside_represents :
    Represents besideMachine.mem smallRoot besidePages ∧ TablesHeld listLaws smallRoot besideMachine := by
  have start := represents_cleared (fun _ => 0) smallRoot
  have held : TablesHeld listLaws smallRoot besideSpace :=
    cleared_held _ (row_sound (by decide) (by decide) (by simp; decide)) (List.mem_singleton_self _)
  have draws : Supplied listLaws smallRoot (fun _ _ frame => frame ≠ 0) besideSpace besidePages := by
    simp only [besidePages, Supplied, MapDraws, DrawsAt]
    decide +kernel
  have represents := represents_run start (lawful_supplied list_low start.tree start.blank held draws)
  exact ⟨represents, lawful_held list_low start.tree start.blank held draws⟩

theorem beside_mapped (virt : Addr) : Mapped smallRoot besideMachine virt ↔
    pageKey virt = pageKey besidePage ∨ pageKey virt = pageKey besideAlias := by
  rw [Mapped, beside_represents.1.leaves]
  by_cases own : pageKey virt = pageKey besidePage
  · simp [governing, besidePages, own]
  · by_cases beside : pageKey virt = pageKey besideAlias
    · simp [governing, besidePages, beside]
    · simp [governing, besidePages, own, beside, Ne.symm own, Ne.symm beside]

theorem beside_placed : Placed listLaws smallRoot besideHeap := by
  obtain ⟨represents, held⟩ := beside_represents
  have mapped := beside_mapped
  rw [← beside_machine] at represents held mapped
  refine ⟨rfl, rfl, by decide, by decide, by decide, by decide, represents.tree, held, ?_, ?_⟩
  · intro probe table slot short reached _
    exact represents.blank probe table slot short reached trivial
  · intro virt above below
    refine (mapped virt).mpr (.inl (eq_of_toNat_eq ?_))
    rw [pageKey_toNat, pageKey_toNat]
    have first : besidePage.toNat = 0xFFFF8001000FF000 := rfl
    have above : besidePage.toNat ≤ virt.toNat := above
    have below : virt.toNat < 0xFFFF800100100000 := below
    omega

/-- All pages of the window are in one table, and only the first is mapped. -/
theorem beside_window (member : page ∈ window besideHeap) : tablePath page = tablePath besidePage ∧
    (Mapped smallRoot besideMachine page → page = besidePage) := by
  have first : besidePage.toNat = 0xFFFF8001000FF000 := rfl
  have second : besideAlias.toNat = 0xFFFF8001000FE000 := rfl
  have start : besideHeap.heapStart = besidePage := rfl
  have finish : besideHeap.heapEnd.toNat + heapExpansionStep.toNat = 0xFFFF800100200000 := rfl
  rw [window, start, finish] at member
  obtain ⟨index, inside, place⟩ := (mem_pagesUp (by omega)).mp member
  refine ⟨tablePath_eq (by omega), fun mapped => eq_of_toNat_eq ?_⟩
  rcases (beside_mapped page).mp mapped with same | same
  all_goals
    have keys := congrArg BitVec.toNat same
    rw [pageKey_toNat, pageKey_toNat] at keys
    omega

theorem beside_missing (within : pages ⊆ window besideHeap) : missing besideMachine.mem smallRoot pages = [] := by
  refine List.eq_nil_iff_forall_not_mem.mpr fun path lacks => ?_
  obtain ⟨⟨page, member, along⟩, absent⟩ := mem_missing.mp lacks
  rw [(beside_window (within member)).1] at along
  refine descend_along (fun none => ?_) along absent
  exact (beside_mapped besidePage).mpr (.inl rfl) (by rw [leaf, none]; rfl)

theorem beside_enough : Enough listLaws smallRoot besideMachine (window besideHeap) := by
  have count : (window besideHeap).length = 257 := by decide +kernel
  have served : ∀ index < 257, draw listLaws besideMachine.frames index ≠ 0 := by
    rw [beside_frames]
    decide +kernel
  rw [Enough, beside_missing (List.Subset.refl _), count]
  exact served

/-- The frame that the expansion draws for the page the heap has is the one that the
page beside it refers to, and there is one frame for each of the others. -/
theorem expand_conserves_iff_beside : Mapped smallRoot besideHeap.machine besideHeap.heapStart ∧
    (listLaws.allocatePage besideHeap.machine.frames).1 = 0x6000 ∧ ∃ expanded after,
    heapExpandIn listLaws smallRoot.val besideHeap = some (expanded, after) ∧
      Conserves listLaws smallRoot besideHeap after expanded := by
  have next : draw listLaws besideMachine.frames 0 = 0x6000 := by
    rw [beside_frames]
    rfl
  have served : Served (drawPage listLaws smallRoot.val) (fun _ => 0) besidePage
      (besidePage + pageSize) besideHeap [] := .initialized _
  obtain ⟨blocks, accounted⟩ := served.accounted (by decide) (by decide) (by decide)
  obtain ⟨expanded, after, returned, conserves⟩ := expand_conserves_iff listLaws list_low list_persistent smallRoot
    besideHeap [] blocks beside_placed accounted
  rw [beside_machine] at conserves ⊢
  refine ⟨(beside_mapped besidePage).mpr (.inl rfl), next, expanded, after, returned, conserves.mpr (.inr (.inr
    ⟨beside_enough, ?_⟩))⟩
  rintro frame ⟨turn, virt, here, mapped, drawn⟩
  obtain rfl := (beside_window (List.mem_of_getElem? here)).2 mapped
  obtain ⟨rest, shape⟩ := window_cons beside_placed.order
  have first : (window besideHeap)[0]? = some besidePage := by rw [shape]; rfl
  have start : 0 < (window besideHeap).length := by rw [shape]; exact Nat.succ_pos _
  obtain rfl := (List.getElem?_inj start (window_distinct beside_placed).of_map).mp (first.trans here.symm)
  obtain rfl : frame = ⟨0x6000, by decide⟩ := Subtype.ext (drawn.trans next)
  refine .inr ⟨tablePath besideAlias, ptKey besideAlias, _, rfl, ?_, frameOf_data (by decide)⟩
  rw [beside_represents.1.leaves]
  rfl

/-- A heap of one page on a machine with seven frames to lend; with its tables and
the root it takes five of them. -/
def narrowHeap : Option (KernelHeap (Physical BitmapAllocator.Allocator)) := do
  let frames ← BitmapAllocator.initializeAllocator BitmapAllocator.constructed (scarceMemmap 0x9000) 0 fun _ => 0
  let machine ← drawPage physicalAllocator smallRoot.val
    ⟨clearFrame (fun _ => 0) smallRoot, (BitmapAllocator.allocatePage frames).2⟩ 0xFFFF800100100000
  pure (heapInitialize (fun _ => 0) 0xFFFF800100100000 0xFFFF800100101000 machine)

/-- The expansion takes both frames that are left, one for the page the heap has
and one for a new page, and then fails: the new page stays mapped and no frame is
given back. -/
theorem failed_expansion_keeps_frames : ∃ heap machine, narrowHeap = some heap ∧
    heapExpandIn physicalAllocator smallRoot.val heap = some (false, { heap with machine }) ∧
    (BitmapAllocator.allocatePage heap.machine.frames).1 = 0x7000 ∧
    (BitmapAllocator.allocatePage machine.frames).1 = 0 ∧
    pagingVirtualToPhysical heap.machine.mem smallRoot.val 0xFFFF800100101123 = 0 ∧
    pagingVirtualToPhysical machine.mem smallRoot.val 0xFFFF800100101123 = 0x8123 := by
  let heap := narrowHeap.get (by decide +kernel)
  have finish : heap.heapEnd = 0xFFFF800100101000 := by decide +kernel
  have start : heap.heapStart = 0xFFFF800100100000 := by decide +kernel
  refine ⟨heap, (growPages physicalAllocator smallRoot.val heap.machine
    (pagesUp 0xFFFF800100100000 257)).2, by simp [heap], ?_, ?_⟩
  · have gave : (growPages physicalAllocator smallRoot.val heap.machine
        (pagesUp 0xFFFF800100100000 257)).1 = false := by decide +kernel
    have loop := grow_returns physicalAllocator smallRoot.val (heap.heapEnd + heapExpansionStep) 257
      maxTurns heap.heapStart heap.machine (by rw [finish, start]; decide) (by decide)
    rw [start] at loop
    rw [heapExpandIn, if_neg (by rw [finish]; decide), start, loop]
    simp only [Option.bind_eq_bind, Option.bind_some, gave, Bool.not_false, ↓reduceIte]
  · decide +kernel

end LunaOS.HeapGrowth
