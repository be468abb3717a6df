import LunaOS.UserSpace

/-! The space the kernel builds at boot. `pagingInitialize` draws a root, never
clears it, and maps three windows over whatever the frame held. Nothing else
that was in memory matters: every other table is cleared when it is drawn. -/
namespace LunaOS.PagingInitialize
open BitVec hiding or_assoc
open ByteMemory BoundedLoop PageArithmetic PageTables PageTableTree PageMapping PageTranslation
  UserspaceAllocator UserSpace

/-- `GiB_SIZE` -/
def gibSize : BitVec 64 := 0x40000000

/-- Where the kernel is linked to. -/
def kernelStart : Addr := 0xffffffff80000000

section Model
variable {σ : Type} (alloc : FrameAllocator σ)

def mapTurn (virt phys : Addr) (size : BitVec 64) (pml4Addr : Addr) (flags : PagingFlags) (override : Bool) :
    Physical σ × BitVec 64 → Turn (Physical σ × BitVec 64) (Physical σ)
  | (st, offset) =>
    if offset < size then
      .again (pagingMapPageInSpace alloc st (virt + offset) (phys + offset) pml4Addr flags override,
        offset + pageSize)
    else .leave st

/-- `pagingMapMemoryInTable` -/
def pagingMapMemoryInTable (st : Physical σ) (virt phys : Addr) (size : BitVec 64) (pml4Addr : Addr)
    (flags : PagingFlags) (override : Bool) : Option (Physical σ) :=
  iterate (mapTurn alloc virt phys size pml4Addr flags override) maxTurns (st, 0)

/-- `pagingInitialize`, with the space it switches to. -/
def pagingInitialize (st : Physical σ) (kernelBase hhdm : Addr) : Option (Addr × Physical σ) := do
  let (pml4Addr, frames) := alloc.allocatePage st.frames
  let st ← pagingMapMemoryInTable alloc { st with frames := frames } 0 0 (4 * gibSize) pml4Addr
    pagingDefaultFlags true
  let st ← pagingMapMemoryInTable alloc st hhdm 0 (4 * gibSize) pml4Addr pagingDefaultFlags true
  let st ← pagingMapMemoryInTable alloc st kernelStart kernelBase 0x80000000 pml4Addr
    pagingDefaultFlags true
  some (pml4Addr, st)

end Model

/-! ## What is to be mapped -/

/-- Where the boot loader put the kernel and the direct map. -/
structure Layout where
  kernelBase : Frame
  hhdm : Frame
  low : kernelBase.val.toNat < 2 ^ 52
  high : 0xffff800000000000 ≤ hhdm.val.toNat
  below : hhdm.val.toNat + 2 ^ 32 ≤ 0xffffffff80000000

/-- In none of the three windows. -/
structure Layout.Outside (layout : Layout) (virt : Addr) : Prop where
  identity : 2 ^ 32 ≤ virt.toNat
  direct : ∀ x : Addr, x.toNat < 2 ^ 32 → virt ≠ layout.hhdm.val + x
  kernel : ∀ y : Addr, y.toNat < 2 ^ 31 → virt ≠ kernelStart + y

/-- The space translates the three windows, and nothing else. -/
structure Layout.Exact (layout : Layout) (mem : Memory) (pml4Addr : Addr) : Prop where
  identity : ∀ x : Addr, x.toNat < 2 ^ 32 → resolve mem pml4Addr x = some x
  direct : ∀ x : Addr, x.toNat < 2 ^ 32 → resolve mem pml4Addr (layout.hhdm.val + x) = some x
  kernel : ∀ y : Addr, y.toNat < 2 ^ 31 → resolve mem pml4Addr (kernelStart + y) = some (layout.kernelBase.val + y)
  others : ∀ virt, layout.Outside virt → resolve mem pml4Addr virt = none

/-- Pages of a window from its page `start` on, each with its frame. -/
def stretch (virt phys : Addr) (start count : Nat) : List (Addr × Addr) :=
  (List.range' start count).map fun i => (virt + BitVec.ofNat 64 (i * 4096), phys + BitVec.ofNat 64 (i * 4096))

/-- The pages `pagingInitialize` maps, in order. -/
def Layout.plan (layout : Layout) : List (Addr × Addr) :=
  stretch 0 0 0 (2 ^ 20) ++ stretch layout.hhdm.val 0 0 (2 ^ 20) ++
    stretch kernelStart layout.kernelBase.val 0 (2 ^ 19)

theorem mem_stretch {virt phys : Addr} (room : virt.toNat + count * 4096 ≤ 2 ^ 64)
    (wide : phys.toNat + count * 4096 ≤ 2 ^ 64) (page : Addr × Addr) : page ∈ stretch virt phys 0 count ↔
      ∃ i < count, page.1.toNat = virt.toNat + i * 4096 ∧ page.2.toNat = phys.toNat + i * 4096 := by
  have place : ∀ base : Addr, base.toNat + count * 4096 ≤ 2 ^ 64 → ∀ i < count,
      (base + BitVec.ofNat 64 (i * 4096)).toNat = base.toNat + i * 4096 := by
    intro base fits i inside
    rw [toNat_add, toNat_ofNat]
    omega
  simp only [stretch, List.mem_map, List.mem_range'_1, Nat.zero_le, true_and, Nat.zero_add]
  constructor
  · rintro ⟨i, inside, rfl⟩
    exact ⟨i, inside, place virt room i inside, place phys wide i inside⟩
  · rintro ⟨i, inside, first, second⟩
    refine ⟨i, inside, Prod.ext (eq_of_toNat_eq ?_) (eq_of_toNat_eq ?_)⟩
    · rw [place virt room i inside, first]
    · rw [place phys wide i inside, second]

theorem Layout.mem_plan (layout : Layout) (page : Addr × Addr) : page ∈ layout.plan ↔
    (∃ i < 2 ^ 20, page.1.toNat = i * 4096 ∧ page.2.toNat = i * 4096) ∨
      (∃ i < 2 ^ 20, page.1.toNat = layout.hhdm.val.toNat + i * 4096 ∧ page.2.toNat = i * 4096) ∨
      ∃ i < 2 ^ 19, page.1.toNat = 0xffffffff80000000 + i * 4096 ∧
        page.2.toNat = layout.kernelBase.val.toNat + i * 4096 := by
  have low := layout.low
  have below := layout.below
  have zero : (0 : Addr).toNat = 0 := rfl
  have start : kernelStart.toNat = 0xffffffff80000000 := rfl
  rw [plan, List.mem_append, List.mem_append, mem_stretch (by omega) (by omega), mem_stretch (by omega) (by omega),
    mem_stretch (by omega) (by omega), or_assoc]
  simp only [zero, start, Nat.zero_add]

/-! ## The loops -/

section Runs
variable {σ : Type} (alloc : FrameAllocator σ)

/-- Maps one page over what was there. -/
def mapOver (pml4Addr : Addr) (st : Physical σ) (page : Addr × Addr) : Physical σ :=
  pagingMapPageInSpace alloc st page.1 page.2 pml4Addr pagingDefaultFlags true

def mapAllOver (pml4Addr : Addr) (st : Physical σ) (pages : List (Addr × Addr)) : Physical σ :=
  pages.foldl (mapOver alloc pml4Addr) st

variable {alloc}

theorem iterate_stretch {flags : PagingFlags} {override : Bool} (covers : size.toNat ≤ (start + count) * 4096)
    (needed : ∀ i < start + count, i * 4096 < size.toNat) (small : (start + count) * 4096 < 2 ^ 64)
    (fuel : count < turns) : iterate (mapTurn alloc virt phys size pml4Addr flags override) turns
        (st, BitVec.ofNat 64 (start * 4096)) = some ((stretch virt phys start count).foldl (fun st page =>
        pagingMapPageInSpace alloc st page.1 page.2 pml4Addr flags override) st) := by
  have offset : (BitVec.ofNat 64 (start * 4096)).toNat = start * 4096 := by
    rw [toNat_ofNat]
    omega
  induction count generalizing start turns st with
  | zero =>
    refine iterate_leave ?_ fuel
    rw [mapTurn, if_neg (by rw [lt_def, offset]; omega)]
    rfl
  | succ count ih =>
    obtain ⟨turns, rfl⟩ : ∃ rest, turns = rest + 1 := ⟨turns - 1, by omega⟩
    have inside : BitVec.ofNat 64 (start * 4096) < size := by
      rw [lt_def, offset]
      exact needed start (by omega)
    have next : (BitVec.ofNat 64 ((start + 1) * 4096)).toNat = (start + 1) * 4096 := by
      rw [toNat_ofNat]
      omega
    have step : BitVec.ofNat 64 (start * 4096) + pageSize = BitVec.ofNat 64 ((start + 1) * 4096) := by
      apply eq_of_toNat_eq
      rw [toNat_add, offset, next, pageSize_toNat]
      omega
    have asked : mapTurn alloc virt phys size pml4Addr flags override
        (st, BitVec.ofNat 64 (start * 4096)) = .again (_, _) := if_pos inside
    rw [iterate_again asked, step]
    rw [show start + (count + 1) = start + 1 + count by omega] at covers needed small
    rw [ih covers needed small (by omega) next]
    rfl

/-- The loop maps a page for every 4096 of the size it is given. -/
theorem pagingMapMemoryInTable_stretch {flags : PagingFlags} {override : Bool} (count : Nat)
    (covers : size.toNat ≤ count * 4096) (needed : ∀ i < count, i * 4096 < size.toNat)
    (small : count * 4096 < 2 ^ 64) : pagingMapMemoryInTable alloc st virt phys size pml4Addr flags override =
      some ((stretch virt phys 0 count).foldl (fun st page =>
        pagingMapPageInSpace alloc st page.1 page.2 pml4Addr flags override) st) := by
  have fuel : count < maxTurns := by
    unfold maxTurns
    omega
  have loop : iterate (mapTurn alloc virt phys size pml4Addr flags override) maxTurns
      (st, BitVec.ofNat 64 (0 * 4096)) = _ :=
    iterate_stretch (by rwa [Nat.zero_add]) (by rwa [Nat.zero_add]) (by rwa [Nat.zero_add]) fuel
  exact loop

/-- A window of whole pages is mapped page by page. -/
theorem pagingMapMemoryInTable_returns (count : Nat) (small : count * 4096 + 4096 ≤ 2 ^ 64)
    (whole : size = BitVec.ofNat 64 (count * 4096)) :
    pagingMapMemoryInTable alloc st virt phys size pml4Addr pagingDefaultFlags true =
      some (mapAllOver alloc pml4Addr st (stretch virt phys 0 count)) := by
  have value : size.toNat = count * 4096 := by
    rw [whole, toNat_ofNat]
    omega
  apply pagingMapMemoryInTable_stretch count <;> omega

theorem pagingInitialize_returns (layout : Layout) (drawn : alloc.allocatePage st.frames = (pml4Addr, frames)) :
    pagingInitialize alloc st layout.kernelBase.val layout.hhdm.val =
      some (pml4Addr, mapAllOver alloc pml4Addr { st with frames := frames } layout.plan) := by
  have wide : 4 * gibSize = BitVec.ofNat 64 (2 ^ 20 * 4096) := rfl
  have narrow : (0x80000000 : BitVec 64) = BitVec.ofNat 64 (2 ^ 19 * 4096) := rfl
  simp only [pagingInitialize, drawn, pagingMapMemoryInTable_returns (2 ^ 20) (by decide) wide,
    pagingMapMemoryInTable_returns (2 ^ 19) (by decide) narrow, Option.bind_eq_bind, Option.bind_some]
  simp only [Layout.plan, mapAllOver, List.foldl_append]

/-! ## What the run leaves -/

/-- Every frame the run draws suits the slot it goes to: it is a new frame, and
what the slot held before is no bit that the frame's address lacks. -/
def Suited (alloc : FrameAllocator σ) (root : Frame) : Physical σ → List (Addr × Addr) → Prop
  | _, [] => True
  | st, page :: rest =>
    MapDraws alloc st page.1 root.val pagingDefaultFlags true (fun mem => Suits mem root) ∧
      Suited alloc root (mapOver alloc root.val st page) rest

theorem suits_supports : Supports alloc root target (fun _ => True) fun mem => Suits mem root where
  suited _ _ _ _ _ _ _ _ _ suits := suits
  entered _ _ _ _ _ _ _ _ _ := trivial
  rests _ _ _ _ _ _ := trivial

/-- The entry a page gets. -/
def entryFor (phys : Addr) : BitVec 64 := 0 ||| pagingDefaultFlags.ptFlags ||| phys

theorem entryFor_address (aligned : phys.toNat % 4096 = 0) (wide : phys.toNat < 2 ^ 60) :
    addressExclude (entryFor phys) = phys := by
  have kept := addressExclude_frame ⟨phys, aligned⟩ wide
  rw [entryFor, addressExclude_or, addressExclude_or, paging_plain.pt.address]
  exact (congrArg _ kept).trans zero_or

/-- The pages mapped over, and what shows beside them. -/
structure Overlays (before after : Memory) (root : Frame) (pages : List (Addr × Addr)) : Prop where
  tree : TableTree after root
  beside : ∀ virt, (∀ page ∈ pages, pageKey page.1 ≠ pageKey virt) →
    leaf after root (tablePath virt) (ptKey virt) = leaf before root (tablePath virt) (ptKey virt)
  shown : ∀ virt phys, (∀ page ∈ pages, pageKey page.1 = pageKey virt → page.2 = phys) →
    (∃ page ∈ pages, pageKey page.1 = pageKey virt) →
    leaf after root (tablePath virt) (ptKey virt) = some (entryFor phys)

theorem mapOver_leaves (tree : TableTree st.mem root)
    (draws : MapDraws alloc st page.1 root.val pagingDefaultFlags true fun mem => Suits mem root) :
    TableTree (mapOver alloc root.val st page).mem root ∧
      ∀ virt, leaf (mapOver alloc root.val st page).mem root (tablePath virt) (ptKey virt) =
        if pageKey page.1 = pageKey virt then some (entryFor page.2)
        else leaf st.mem root (tablePath virt) (ptKey virt) := by
  have maps := (map_maps suits_supports trivial tree paging_plain draws page.2).1
  refine ⟨maps.tree, ?_⟩
  intro virt
  have leaves := maps.leaves (tablePath virt) (ptKey virt) rfl
  simp only [same_page_iff] at leaves
  exact leaves

theorem mapAllOver_overlays (tree : TableTree st.mem root) (suited : Suited alloc root st pages) :
    Overlays st.mem (mapAllOver alloc root.val st pages).mem root pages := by
  induction pages generalizing st with
  | nil => exact ⟨tree, fun _ _ => rfl, fun _ _ _ ⟨_, member, _⟩ => absurd member List.not_mem_nil⟩
  | cons page rest ih =>
    obtain ⟨mapped, leaves⟩ := mapOver_leaves tree suited.1
    have later := ih mapped suited.2
    refine ⟨later.tree, ?_, ?_⟩
    · intro virt away
      refine (later.beside virt fun other member => away other (List.mem_cons_of_mem _ member)).trans ?_
      rw [leaves, if_neg (away page List.mem_cons_self)]
    · intro virt phys only covered
      by_cases again : ∃ other ∈ rest, pageKey other.1 = pageKey virt
      · exact later.shown virt phys (fun other member => only other (List.mem_cons_of_mem _ member)) again
      · have own : pageKey page.1 = pageKey virt := by
          obtain ⟨other, member, same⟩ := covered
          rcases List.mem_cons.mp member with rfl | member
          · exact same
          · exact absurd ⟨other, member, same⟩ again
        refine (later.beside virt fun other member same => again ⟨other, member, same⟩).trans ?_
        rw [leaves, if_pos own, only page List.mem_cons_self own]

end Runs

/-! ## The windows -/

theorem canonical_page_iff (accepted : canonical virt = true) (other : canonical probe = true) :
    pageKey virt = pageKey probe ↔ virt.toNat / 4096 = probe.toNat / 4096 := by
  rw [canonical_iff] at accepted other
  rw [toNat_inj.symm, pageKey_toNat, pageKey_toNat]
  omega

theorem Layout.plan_canonical (layout : Layout) (member : page ∈ layout.plan) : canonical page.1 = true := by
  have high := layout.high
  rw [canonical_iff]
  rcases (layout.mem_plan page).mp member with ⟨i, inside, place, _⟩ | ⟨i, inside, place, _⟩ | ⟨i, inside, place, _⟩
    <;> omega

/-- The windows do not meet. -/
theorem Layout.plan_unique (layout : Layout) (member : page ∈ layout.plan) (other : probe ∈ layout.plan)
    (same : page.1.toNat / 4096 = probe.1.toNat / 4096) : page.2 = probe.2 := by
  have high := layout.high
  have below := layout.below
  have aligned := layout.hhdm.property
  apply eq_of_toNat_eq
  rcases (layout.mem_plan page).mp member with ⟨i, inside, place, frame⟩ | ⟨i, inside, place, frame⟩ |
      ⟨i, inside, place, frame⟩ <;>
    rcases (layout.mem_plan probe).mp other with ⟨j, within, spot, target⟩ | ⟨j, within, spot, target⟩ |
      ⟨j, within, spot, target⟩ <;>
    omega

theorem Layout.plan_frame (layout : Layout) (member : page ∈ layout.plan) :
    page.2.toNat % 4096 = 0 ∧ page.2.toNat < 2 ^ 60 := by
  have low := layout.low
  have aligned := layout.kernelBase.property
  rcases (layout.mem_plan page).mp member with ⟨i, inside, _, frame⟩ | ⟨i, inside, _, frame⟩ | ⟨i, inside, _, frame⟩
    <;> omega

section Translation
variable {layout : Layout} {before after : Memory} {root : Frame}

theorem Layout.resolve_page (overlays : Overlays before after root layout.plan) (accepted : canonical virt = true)
    (member : page ∈ layout.plan) (same : page.1.toNat / 4096 = virt.toNat / 4096) :
    resolve after root.val virt = some (page.2 + offsetExclude virt) := by
  obtain ⟨aligned, wide⟩ := layout.plan_frame member
  have key := (canonical_page_iff (layout.plan_canonical member) accepted).mpr same
  have shown : leaf after root (tablePath virt) (ptKey virt) = some (entryFor page.2) := by
    apply overlays.shown virt page.2 _ ⟨page, member, key⟩
    intro other listed own
    refine layout.plan_unique listed member ?_
    exact ((canonical_page_iff (layout.plan_canonical listed) accepted).mp own).trans same.symm
  rw [resolve_eq overlays.tree, accepted, if_pos rfl, shown, Option.map_some, entryFor_address aligned wide]

theorem Layout.resolve_outside (tree : TableTree before root) (overlays : Overlays before after root layout.plan)
    (outside : layout.Outside virt) : resolve after root.val virt = resolve before root.val virt := by
  rw [resolve_eq overlays.tree, resolve_eq tree]
  cases accepted : canonical virt with
  | false => rw [if_neg Bool.false_ne_true, if_neg Bool.false_ne_true]
  | true =>
    rw [overlays.beside virt]
    intro page member own
    have same := (canonical_page_iff (layout.plan_canonical member) accepted).mp own
    have below := layout.below
    have aligned := layout.hhdm.property
    rcases (layout.mem_plan page).mp member with ⟨i, inside, place, _⟩ | ⟨i, inside, place, _⟩ |
      ⟨i, inside, place, _⟩
    · have identity := outside.identity
      omega
    · refine outside.direct (virt - layout.hhdm.val) ?_ (by rw [BitVec.add_comm, BitVec.sub_add_cancel])
      rw [toNat_sub]
      omega
    · refine outside.kernel (virt - kernelStart) ?_ (by rw [BitVec.add_comm, BitVec.sub_add_cancel])
      rw [toNat_sub, show kernelStart.toNat = 0xffffffff80000000 from rfl]
      omega

/-- One window, whole. -/
theorem Layout.resolve_window (overlays : Overlays before after root layout.plan)
    (listed : stretch virt phys 0 count ⊆ layout.plan)
    (aligned : virt.toNat % 4096 = 0) (room : virt.toNat + count * 4096 ≤ 2 ^ 64)
    (wide : phys.toNat + count * 4096 ≤ 2 ^ 64)
    (accepted : virt.toNat + count * 4096 ≤ 2 ^ 47 ∨ 0xffff800000000000 ≤ virt.toNat)
    (x : Addr) (inside : x.toNat < count * 4096) : resolve after root.val (virt + x) = some (phys + x) := by
  have place : ∀ base : Addr, base.toNat + count * 4096 ≤ 2 ^ 64 →
      (BitVec.ofNat 64 (base.toNat + x.toNat / 4096 * 4096)).toNat = base.toNat + x.toNat / 4096 * 4096 := by
    intro base fits
    rw [toNat_ofNat]
    omega
  have sum : (virt + x).toNat = virt.toNat + x.toNat := by
    rw [toNat_add]
    omega
  have member : (BitVec.ofNat 64 (virt.toNat + x.toNat / 4096 * 4096),
      BitVec.ofNat 64 (phys.toNat + x.toNat / 4096 * 4096)) ∈ stretch virt phys 0 count :=
    (mem_stretch room wide _).mpr ⟨_, by omega, place virt room, place phys wide⟩
  have same : (BitVec.ofNat 64 (virt.toNat + x.toNat / 4096 * 4096)).toNat / 4096 = (virt + x).toNat / 4096 := by
    rw [place virt room, sum]
    omega
  rw [layout.resolve_page overlays ((canonical_iff _).mpr (by omega)) (listed member) same, Option.some.injEq,
    offsetExclude_eq]
  apply eq_of_toNat_eq
  rw [toNat_add, place phys wide, sum, toNat_ofNat, toNat_add]
  omega

theorem Layout.exact_iff (tree : TableTree before root) (overlays : Overlays before after root layout.plan) :
    layout.Exact after root.val ↔ ∀ virt, layout.Outside virt → resolve before root.val virt = none := by
  have low := layout.low
  have high := layout.high
  have below := layout.below
  constructor
  · intro exact virt outside
    rw [← layout.resolve_outside tree overlays outside, exact.others virt outside]
  · intro bare
    refine ⟨?_, ?_, ?_, fun virt outside => (layout.resolve_outside tree overlays outside).trans (bare virt outside)⟩
    · intro x inside
      have listed : stretch 0 0 0 (2 ^ 20) ⊆ layout.plan := by simp [plan]
      have window := layout.resolve_window overlays listed rfl (by decide) (by decide) (.inl (by decide)) x inside
      rwa [show 0 + x = x from BitVec.zero_add x] at window
    · intro x inside
      have listed : stretch layout.hhdm.val 0 0 (2 ^ 20) ⊆ layout.plan := by simp [plan]
      have window := layout.resolve_window overlays listed layout.hhdm.property (by omega) (by decide) (.inr high) x
        inside
      rwa [show 0 + x = x from BitVec.zero_add x] at window
    · intro y inside
      have listed : stretch kernelStart layout.kernelBase.val 0 (2 ^ 19) ⊆ layout.plan := by simp [plan]
      exact layout.resolve_window overlays listed rfl (by decide) (by omega) (.inr (by decide)) y inside

end Translation

/-! ## Frames from a list -/

section Lists
variable {root : Frame} {st : Physical (List Addr × List Addr)}

theorem list_nonzero (sound : listLaws.sound frames) (more : 0 < frames.1.length) :
    (listLaws.allocatePage frames).1 ≠ 0 := by
  obtain ⟨_ | ⟨frame, free⟩, out⟩ := frames
  · exact absurd more (Nat.lt_irrefl 0)
  · exact (sound.2 frame (by simp)).1

/-- A level takes at most one frame. -/
theorem enterTable_left (sound : listLaws.sound st.frames) (pagetable index flags : BitVec 64) (override : Bool) :
    listLaws.sound (enterTable listLaws st pagetable index flags override).2.frames ∧
      st.frames.1.length ≤ (enterTable listLaws st pagetable index flags override).2.frames.1.length + 1 := by
  have drawn : st.frames.1.length ≤ (listLaws.allocatePage st.frames).2.1.length + 1 := by
    obtain ⟨mem, _ | ⟨frame, free⟩, out⟩ := st
    · exact Nat.zero_le _
    · exact Nat.le_refl _
  simp only [enterTable]
  split
  · split <;> exact ⟨sound, Nat.le_succ _⟩
  · exact ⟨listLaws.drawn_sound _ sound, drawn⟩

section Levels
variable (sound : listLaws.sound st.frames) (virt pml4Addr : Addr)
include sound

/-- A page takes at most three tables. -/
theorem enterTables_left : st.frames.1.length ≤
    (enterTables listLaws st virt pml4Addr pagingDefaultFlags true).2.frames.1.length + 3 := by
  obtain ⟨first, top⟩ := enterTable_left sound (applyDirectmap pml4Addr) (pml4Indexer virt)
    pagingDefaultFlags.pml4Flags true
  obtain ⟨second, middle⟩ := enterTable_left first _ (pdptIndexer virt) pagingDefaultFlags.pdptFlags true
  obtain ⟨_, bottom⟩ := enterTable_left second _ (pdIndexer virt) pagingDefaultFlags.pdFlags true
  exact Nat.le_trans top (Nat.succ_le_succ (Nat.le_trans middle (Nat.succ_le_succ bottom)))

theorem list_draws (room : 3 ≤ st.frames.1.length) :
    MapDraws listLaws st virt pml4Addr pagingDefaultFlags true fun _ _ frame => frame ≠ 0 := by
  obtain ⟨first, top⟩ := enterTable_left sound (applyDirectmap pml4Addr) (pml4Indexer virt)
    pagingDefaultFlags.pml4Flags true
  obtain ⟨second, middle⟩ := enterTable_left first _ (pdptIndexer virt) pagingDefaultFlags.pdptFlags true
  exact ⟨fun _ => list_nonzero sound (by omega), fun _ => list_nonzero first (by omega),
    fun _ => list_nonzero second (by omega)⟩

end Levels

theorem list_suited (tree : TableTree st.mem root) (blank : Blank (fun _ => True) st.mem root)
    (held : TablesHeld listLaws root st) (room : 3 * pages.length ≤ st.frames.1.length) :
    Suited listLaws root st pages := by
  induction pages generalizing st with
  | nil => trivial
  | cons page rest ih =>
    rw [List.length_cons] at room
    have supports : Supports listLaws.toFrameAllocator root (pagePath page.1) _ _ :=
      blank_held_supports list_low fun _ _ => trivial
    have draws := list_draws held.sound page.1 root.val (by omega)
    obtain ⟨_, _, _, _, _, suits⟩ := enterTables_opens supports ⟨blank, held⟩ tree paging_plain draws
    obtain ⟨maps, blank, later⟩ := map_maps supports ⟨blank, held⟩ tree paging_plain draws page.2
    have left : st.frames.1.length ≤ (mapOver listLaws root.val st page).frames.1.length + 3 := by
      rw [mapOver, pagingMapPageInSpace_eq]
      simp only [Bool.or_true, if_true]
      exact enterTables_left held.sound page.1 root.val
    exact ⟨suits, ih maps.tree blank later (by omega)⟩

end Lists

/-! ## Booting -/

/-- The new space is exact if and only if what its root frame held before
translates nothing outside the windows. Nothing else in memory is asked about. -/
theorem initialize_exact_iff {σ : Type} (alloc : FrameAllocator σ) (layout : Layout) (mem : Memory)
    (frames rest : σ) (root : Frame) (drawn : alloc.allocatePage frames = (root.val, rest))
    (tree : TableTree mem root) (suited : Suited alloc root ⟨mem, rest⟩ layout.plan) :
    ∃ space, pagingInitialize alloc ⟨mem, frames⟩ layout.kernelBase.val layout.hhdm.val = some (root.val, space) ∧
      (layout.Exact space.mem root.val ↔ ∀ virt, layout.Outside virt → resolve mem root.val virt = none) :=
  ⟨_, pagingInitialize_returns layout drawn, layout.exact_iff tree (mapAllOver_overlays tree suited)⟩

theorem Layout.plan_length (layout : Layout) : layout.plan.length = 2 ^ 20 + 2 ^ 20 + 2 ^ 19 := by
  simp only [plan, stretch, List.length_append, List.length_map, List.length_range']

def bootLayout : Layout where
  kernelBase := ⟨0x200000, by decide⟩
  hhdm := ⟨0xffff800000000000, by decide⟩
  low := by decide
  high := by decide
  below := by decide

def bootRoot : Frame := ⟨0x8000, by decide⟩

/-- The root is the first frame that is free, and behind it there are enough. -/
def bootFrames (out : List Addr) : List Addr × List Addr := (bootRoot.val :: frameRow 12 (2 ^ 23), out)

theorem boot_suited (tree : TableTree mem bootRoot) (blank : Blank (fun _ => True) mem bootRoot)
    (held : TablesHeld listLaws bootRoot ⟨mem, frameRow 12 (2 ^ 23), out⟩) :
    Suited listLaws.toFrameAllocator bootRoot ⟨mem, frameRow 12 (2 ^ 23), out⟩ bootLayout.plan := by
  refine list_suited tree blank held ?_
  rw [Layout.plan_length, frameRow, List.length_map, List.length_range']
  decide

/-- Memory full of ones, but for the root. -/
theorem initialize_exact_iff_cleared : ∃ space,
    pagingInitialize listLaws ⟨clearFrame (fun _ => 0xff) bootRoot, bootFrames []⟩ 0x200000 0xffff800000000000 =
      some (0x8000, space) ∧ bootLayout.Exact space.mem 0x8000 := by
  have start := represents_cleared (fun _ => 0xff) bootRoot
  have held : TablesHeld listLaws bootRoot ⟨clearFrame (fun _ => 0xff) bootRoot, frameRow 12 (2 ^ 23), [bootRoot.val]⟩ :=
    cleared_held _ (row_sound (by decide) (by decide) (by simp; decide)) (List.mem_singleton_self _)
  obtain ⟨space, returned, exact_iff⟩ := initialize_exact_iff listLaws bootLayout
    (clearFrame (fun _ => 0xff) bootRoot) (bootFrames []) _ bootRoot rfl start.tree
    (boot_suited start.tree start.blank held)
  refine ⟨space, returned, exact_iff.mpr ?_⟩
  intro virt _
  rw [resolve_eq start.tree, start.leaves, governing_nil, Option.map_none, Option.map_none, ite_self]

def staleStart : Physical (List Addr × List Addr) :=
  ⟨clearFrame (fun _ => 0) bootRoot, frameRow 9 3, [bootRoot.val]⟩

/-- What an earlier boot left in the root: one page at 512 GiB. -/
@[irreducible] def staleSpace : Physical (List Addr × List Addr) :=
  mapOver listLaws bootRoot.val staleStart (0x8000000000, 0x5000)

/-- The tables it hung in. -/
def staleTables : List Addr := [0xb000, 0xa000, 0x9000]

theorem stale_held : TableTree staleSpace.mem bootRoot ∧ Blank (fun _ => True) staleSpace.mem bootRoot ∧
    TablesHeld listLaws bootRoot ⟨staleSpace.mem, frameRow 12 (2 ^ 23), bootRoot.val :: staleTables⟩ := by
  have start := represents_cleared (fun _ => 0) bootRoot
  have sound : listLaws.sound staleStart.frames := row_sound (by decide) (by decide) (by simp; decide)
  have held : TablesHeld listLaws bootRoot staleStart := cleared_held _ sound (List.mem_singleton_self _)
  obtain ⟨maps, blank, held⟩ := map_maps (blank_held_supports list_low fun _ _ => trivial) ⟨start.blank, held⟩ start.tree
    paging_plain (list_draws sound 0x8000000000 bootRoot.val (Nat.le_refl 3)) 0x5000
  have space : staleSpace = pagingMapPageInSpace listLaws staleStart 0x8000000000 0x5000 bootRoot.val
      pagingDefaultFlags true := by rw [staleSpace, mapOver]
  have out : staleSpace.frames.2 = staleTables ++ [bootRoot.val] := by decide +kernel
  rw [← space] at maps blank held
  refine ⟨maps.tree, blank, row_sound (by decide) (by decide) (by simp [staleTables]; decide), fun table reached => ?_⟩
  have lent : table.val ∈ staleSpace.frames.2 := held.held table reached
  rw [out, List.mem_append, Or.comm, List.mem_singleton, ← List.mem_cons] at lent
  exact lent

theorem stale_outside (low : virt.toNat < 2 ^ 47) (high : 2 ^ 32 ≤ virt.toNat) : bootLayout.Outside virt := by
  refine ⟨high, ?_, ?_⟩
  · rintro x inside rfl
    rw [toNat_add, show bootLayout.hhdm.val.toNat = 0xffff800000000000 from rfl] at low
    omega
  · rintro y inside rfl
    rw [toNat_add, show kernelStart.toNat = 0xffffffff80000000 from rfl] at low
    omega

/-- Booted over such a root, the kernel still translates the old page. -/
theorem stale_root_kept : ∃ space,
    pagingInitialize listLaws ⟨staleSpace.mem, bootFrames staleTables⟩ 0x200000 0xffff800000000000 =
      some (0x8000, space) ∧ resolve space.mem 0x8000 0x8000000123 = some 0x5123 ∧
      ¬ bootLayout.Exact space.mem 0x8000 := by
  obtain ⟨tree, blank, held⟩ := stale_held
  have overlays := mapAllOver_overlays (by exact tree) (boot_suited tree blank held)
  have outside : bootLayout.Outside 0x8000000123 := stale_outside (by decide) (by decide)
  have before : resolve staleSpace.mem 0x8000 0x8000000123 = some 0x5123 := by decide +kernel
  have after := (bootLayout.resolve_outside tree overlays outside).trans before
  refine ⟨_, pagingInitialize_returns bootLayout rfl, after, ?_⟩
  intro exact
  exact absurd (after.symm.trans (exact.others _ outside)) (by simp)

end LunaOS.PagingInitialize
