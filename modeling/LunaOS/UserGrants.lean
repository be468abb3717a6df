import LunaOS.RangeGrants
import LunaOS.UserAccess

/-! What `vmMap` promises: memory that the caller may touch and nobody else was
given. The pages of a grant keep the promise, but away from a hint the pointer lies
eight bytes below them, so a few bytes spill over into the page before. -/
namespace LunaOS.UserGrants
open BitVec
open ByteMemory PageArithmetic PageTables PointerTree PageTableTree PageMapping FrameExclusivity PageTranslation
open RangeAllocator RangePartition RangeGrants Tiling UserspaceAllocator UserSpace KernelHalf UserAccess
open BitmapAllocator (physicalAllocator)

/-! ## Grants -/

/-- The bytes `[pointer, pointer + size)`, as the machine counts them. -/
def Within (pointer : Addr) (size : BitVec 64) (virt : Addr) : Prop := (virt - pointer).toNat < size.toNat

/-- What `vmMap` returned, and the pages taken for it. -/
structure Grant where
  pointer : Addr
  size : BitVec 64
  base : Addr
  pages : BitVec 64
  deriving DecidableEq, Repr

def Grant.Has (grant : Grant) (virt : Addr) : Prop := Within grant.pointer grant.size virt

/-- The bytes of the pages. -/
def Grant.Backs (grant : Grant) (point : Nat) : Prop := Asked grant.base grant.pages point

/-- A byte returned to the caller outside the pages taken for it. -/
def Grant.Spills (grant : Grant) (virt : Addr) : Prop := grant.Has virt ∧ ¬ grant.Backs virt.toNat

/-- A process, and the grants that were not unmapped. -/
structure Session (σ : Type) where
  proc : Process σ
  live : List Grant

section Sessions
variable {σ : Type}

/-- The range allocator has the range of a hint. -/
abbrev Hinted (proc : Process σ) (hint size : BitVec 64) : Prop :=
  hint ≠ 0 ∧ (useRange proc.memoryAllocator (alignPageDown hint) (rangePages hint size)).1 = true

/-- Where the memory of a granted request begins: at its hint, or eight bytes below its pages. -/
def startOf (proc : Process σ) (hint size : BitVec 64) : Addr :=
  if Hinted proc hint size then hint
  else (RangeAllocator.allocateRange proc.memoryAllocator (alignPageUp size / pageSize)).1 - 8

/-- The grant of a request that returned `pointer`. -/
def grantOf (proc : Process σ) (hint size pointer : BitVec 64) : Grant :=
  if Hinted proc hint size then ⟨pointer, size, alignPageDown hint, rangePages hint size⟩
  else
    let pages := alignPageUp size / pageSize
    ⟨pointer, size, (RangeAllocator.allocateRange proc.memoryAllocator pages).1, pages⟩

/-- A request of a user thread; `none` when the kernel panics in it. -/
def request (alloc : FrameAllocator σ) (session : Session σ) : Call → Option (Session σ)
  | .vmMap hint size =>
    match vmMap alloc session.proc hint size with
    | (none, _) => none
    | (some reply, next) => some ⟨next,
        if reply.result then grantOf session.proc hint size (reply.allocatedRange.getD 0) :: session.live
        else session.live⟩
  | .vmUnmap pointer =>
    some ⟨(vmUnmap session.proc pointer).2, session.live.filter (·.pointer ≠ pointer)⟩

/-- The pages of a request are drawn and have bit 47 clear; an unmap releases nothing that is free
already or belongs to another grant. -/
def Orderly (alloc : FrameAllocator σ) (root : Frame) (session : Session σ) : Call → Prop
  | .vmMap hint size => EachPage alloc root (InUserHalf alloc root) session.proc.physical
      (callPages session.proc (.vmMap hint size))
  | .vmUnmap pointer => ∀ range ∈ session.proc.memoryAllocator, range.used = true → range.base = pointer →
      (∀ other ∈ session.proc.memoryAllocator, ∀ point, Free other point → ¬ Covers (extent range) point) ∧
        ∀ grant ∈ session.live, grant.pointer ≠ pointer → ∀ point, grant.Backs point → ¬ Covers (extent range) point

/-- The sessions of a process. -/
inductive Reached (alloc : FrameAllocator σ) (root : Frame) (proc : Process σ) : Session σ → Prop
  | start : Reached alloc root proc ⟨proc, []⟩
  | step : Reached alloc root proc session → Orderly alloc root session call →
      request alloc session call = some next → Reached alloc root proc next

/-- Memory a user thread can use: it does not wrap around, every byte is mapped for the user, and
none belongs to an earlier grant. -/
structure Usable (proc : Process σ) (live : List Grant) (pointer : Addr) (size : BitVec 64) : Prop where
  whole : pointer.toNat + size.toNat ≤ 2 ^ 64
  mapped : ∀ virt, Within pointer size virt → userAccess proc.physical.mem proc.pml4Physical virt = true
  apart : ∀ virt, Within pointer size virt → ∀ grant ∈ live, ¬ grant.Has virt

/-- Nothing goes wrong at the spilled bytes: those of the new grant could be touched before and belong
to nobody, and those of earlier grants are not in it. -/
structure Sheltered (session : Session σ) (grant : Grant) : Prop where
  low : grant.pointer.toNat + grant.size.toNat ≤ 2 ^ 47
  own : ∀ virt, grant.Spills virt → userAccess session.proc.physical.mem session.proc.pml4Physical virt = true ∧
      ∀ other ∈ session.live, ¬ other.Has virt
  others : ∀ other ∈ session.live, ∀ virt, other.Spills virt → ¬ grant.Has virt

end Sessions

/-! ## What a call does -/

section Calls
variable {σ : Type} {alloc : FrameAllocator σ} {proc next : Process σ}

theorem callPages_hinted (pos : size ≠ 0) (hinted : Hinted proc hint size) :
    callPages proc (.vmMap hint size) = pagesFrom hint (rangePages hint size) := by
  simp only [callPages, if_neg pos]
  exact if_pos hinted

theorem callPages_elsewhere (pos : size ≠ 0) (elsewhere : ¬ Hinted proc hint size) :
    callPages proc (.vmMap hint size) = stackPages proc size := by
  simp only [callPages, if_neg pos]
  exact if_neg elsewhere

theorem vmMap_taken (pos : size ≠ 0) (replied : vmMap alloc proc hint size = (some reply, next)) :
    (Hinted proc hint size ∧ reply = ⟨some hint, true, none⟩ ∧
        next.memoryAllocator = (useRange proc.memoryAllocator (alignPageDown hint) (rangePages hint size)).2 ∧
        ∃ mem, storeBytes (mapPages alloc proc.pml4Physical userspaceDefaultPagingFlags proc.physical
          (pagesFrom hint (rangePages hint size))).mem proc.pml4Physical (alignPageDown hint)
          (rangePages hint size * pageSize).toNat (fun _ => 0) = some mem) ∨ ¬ Hinted proc hint size ∧
        next.memoryAllocator = (RangeAllocator.allocateRange proc.memoryAllocator (alignPageUp size / pageSize)).2 ∧
        (reply.result = true →
          (RangeAllocator.allocateRange proc.memoryAllocator (alignPageUp size / pageSize)).1 ≠ 0 ∧
            reply.allocatedRange =
              some ((RangeAllocator.allocateRange proc.memoryAllocator (alignPageUp size / pageSize)).1 - 8)) := by
  have anywhere : ∀ answered, vmMapAnywhere alloc proc size = (answered, next) → next.memoryAllocator =
          (RangeAllocator.allocateRange proc.memoryAllocator (alignPageUp size / pageSize)).2 ∧
        (answered.result = true →
          (RangeAllocator.allocateRange proc.memoryAllocator (alignPageUp size / pageSize)).1 ≠ 0 ∧
            answered.allocatedRange =
              some ((RangeAllocator.allocateRange proc.memoryAllocator (alignPageUp size / pageSize)).1 - 8)) := by
    intro answered made
    simp only [vmMapAnywhere, allocateStack] at made
    split at made
    · rename_i null
      rw [if_pos rfl] at made
      cases made
      exact ⟨rfl, by simp⟩
    · rename_i found
      split at made
      · cases made
        exact ⟨rfl, by simp⟩
      · cases made
        exact ⟨rfl, fun _ => ⟨found, rfl⟩⟩
  simp only [vmMap, if_neg pos] at replied
  by_cases hinted : hint ≠ 0
  · rw [if_pos hinted] at replied
    rcases rangeAt_cases alloc proc hint size with ⟨missed, same⟩ | ⟨found, fault | ⟨mem, stored, done⟩⟩
    · rw [same] at replied
      simp only [Prod.mk.injEq, Option.some.injEq] at replied
      exact .inr ⟨fun both => by simp [both.2] at missed, anywhere reply (Prod.ext replied.1 replied.2)⟩
    · cases returned : UserspaceAllocator.allocateRange alloc proc hint size with
      | mk answered after =>
        rw [returned] at fault replied
        cases fault
        cases replied
    · rw [done] at replied
      cases replied
      exact .inl ⟨⟨hinted, found⟩, rfl, rfl, mem, stored⟩
  · rw [if_neg hinted] at replied
    simp only [Prod.mk.injEq, Option.some.injEq] at replied
    exact .inr ⟨fun both => hinted both.1, anywhere reply (Prod.ext replied.1 replied.2)⟩

theorem startOf_eq (pos : size ≠ 0) (granted : vmMap alloc proc hint size = (some ⟨some pointer, true, none⟩, next)) :
    pointer = startOf proc hint size := by
  rcases vmMap_taken pos granted with ⟨hinted, same, _⟩ | ⟨elsewhere, _, found⟩
  · rw [startOf, if_pos hinted]
    exact Option.some.inj (congrArg VMMapReply.allocatedRange same)
  · rw [startOf, if_neg elsewhere]
    exact Option.some.inj (found rfl).2

end Calls

/-! ## Pages of a call -/

theorem pagesFrom_toNat {start pages : BitVec 64} (bound : start.toNat + pages.toNat * 4096 ≤ 2 ^ 64)
    (member : virt ∈ pagesFrom start pages) : ∃ page < pages.toNat, virt.toNat = start.toNat + page * 4096 := by
  obtain ⟨page, inside, rfl⟩ := List.mem_map.mp member
  rw [List.mem_range] at inside
  refine ⟨page, inside, ?_⟩
  rw [toNat_add, toNat_mul, toNat_ofNat, pageSize_toNat]
  omega

/-- Pages in a row with bit 47 clear do not pass 2^47. -/
theorem user_stretch {start pages : BitVec 64} (user : ∀ virt ∈ pagesFrom start pages, UserPage virt)
    (low : (alignPageDown start).toNat ≤ 2 ^ 47) : (alignPageDown start).toNat + pages.toNat * 4096 ≤ 2 ^ 47 := by
  have down := alignPageDown_toNat start
  by_contra past
  have inside : (2 ^ 47 - (alignPageDown start).toNat) / 4096 < pages.toNat := by omega
  have page := user _ (List.mem_map.mpr ⟨_, List.mem_range.mpr inside, rfl⟩)
  rw [UserPage, pml4Key_toNat, toNat_add, toNat_mul, toNat_ofNat, pageSize_toNat] at page
  omega

/-- The addresses whose page is among those a call maps. -/
theorem pagesFrom_iff {start pages virt : BitVec 64}
    (low : (alignPageDown start).toNat + pages.toNat * 4096 ≤ 2 ^ 47) (user : virt.toNat < 2 ^ 47) :
    (∃ page ∈ pagesFrom start pages, tablePath virt ++ [ptKey virt] = pagePath page) ↔
      Asked (alignPageDown start) pages virt.toNat := by
  have down := alignPageDown_toNat start
  rw [Asked]
  constructor
  · rintro ⟨page, member, same⟩
    obtain ⟨index, inside, place⟩ := pagesFrom_toNat (by omega) member
    have pages := (user_page_iff (by omega) user).mp same
    omega
  · rintro ⟨above, below⟩
    have inside : (virt.toNat - (alignPageDown start).toNat) / 4096 < pages.toNat := by omega
    have member : start + BitVec.ofNat 64 ((virt.toNat - (alignPageDown start).toNat) / 4096) * pageSize ∈
        pagesFrom start pages := List.mem_map.mpr ⟨_, List.mem_range.mpr inside, rfl⟩
    refine ⟨_, member, ?_⟩
    have place : (start + BitVec.ofNat 64 ((virt.toNat - (alignPageDown start).toNat) / 4096) * pageSize).toNat =
        start.toNat + (virt.toNat - (alignPageDown start).toNat) / 4096 * 4096 := by
      rw [toNat_add, toNat_mul, toNat_ofNat, pageSize_toNat]
      omega
    exact (user_page_iff (by omega) user).mpr (by omega)

section Spaces
variable {σ : Type} {alloc : LawfulAllocator σ} {root : Frame} {proc next : Process σ}

theorem flagged_congr (tree : TableTree before root) (flagged : Flagged before root)
    (same : ∀ table, Table before root table → ∀ key, entryAt after table key = entryAt before table key) :
    Flagged after root := by
  obtain ⟨_, _, paths, _⟩ := tree_congr same tree
  intro probe table slot short user reached present
  rw [paths probe short] at reached
  rw [same table ⟨probe, short, reached⟩] at present ⊢
  exact flagged probe table slot short user reached present

/-- A call in the user half, as the walks see it. -/
theorem answer_leaves (low : LowReserve alloc) (own : OwnPages alloc UserHalf root proc.physical)
    (flagged : Flagged proc.physical.mem root) (place : proc.pml4Physical = root.val)
    (user : EachPage alloc root (InUserHalf alloc root) proc.physical (callPages proc call))
    (answered : answer alloc proc call = some next) : Flagged next.physical.mem root ∧ ∀ path key, path.length = 3 →
      (leaf next.physical.mem root path key ≠ none ↔ leaf proc.physical.mem root path key ≠ none ∨
        ∃ virt ∈ callPages proc call, path ++ [key] = pagePath virt) := by
  obtain ⟨mapped, inside⟩ := user_pages_own low own user
  obtain ⟨flagged, leaves⟩ := mapPages_leaves low own flagged user
  obtain ⟨_, done⟩ := answer_cases call answered
  rw [place] at done
  rcases done with same | ⟨start, pages, mem, listed, stored, cleared⟩
  · rw [same]
    exact ⟨flagged, leaves⟩
  · rw [listed] at inside
    have same := (storeBytes_stores mapped (cleared_user inside) stored).1.same
    rw [cleared]
    refine ⟨flagged_congr mapped.tree flagged same, fun path key deep => ?_⟩
    rw [(tree_congr same mapped.tree).2.2.2 path key deep.le]
    exact leaves path key deep

end Spaces

/-! ## The invariant -/

section Invariants
variable {σ : Type} {alloc : LawfulAllocator σ} {root : Frame} {proc next : Process σ} {session : Session σ}

/-- Where the ranges of a process end. -/
abbrev ceiling : Nat := userspaceStackMax.toNat

/-- The point is in the pages of a grant. -/
def Backed (live : List Grant) (point : Nat) : Prop := ∃ grant ∈ live, grant.Backs point

structure Kept (alloc : LawfulAllocator σ) (root : Frame) (session : Session σ) : Prop where
  place : session.proc.pml4Physical = root.val
  own : OwnPages alloc UserHalf root session.proc.physical
  flagged : Flagged session.proc.physical.mem root
  unspent : Unspent ceiling (Backed session.live) session.proc.memoryAllocator
  fits : Fits ceiling session.proc.memoryAllocator

theorem rangePages_bytes (start size : BitVec 64) : (rangePages start size).toNat * 4096 < 2 ^ 64 := by
  rw [rangePages, toNat_udiv, pageSize_toNat]
  omega

/-- The pages of a hint were cleared, so they end where the user's addresses do or before. -/
theorem hint_cleared (low : LowReserve alloc) (own : OwnPages alloc UserHalf root proc.physical)
    (place : proc.pml4Physical = root.val) (user : EachPage alloc root (InUserHalf alloc root) proc.physical
      (pagesFrom hint (rangePages hint size)))
    (stored : storeBytes (mapPages alloc proc.pml4Physical userspaceDefaultPagingFlags
      proc.physical (pagesFrom hint (rangePages hint size))).mem proc.pml4Physical (alignPageDown hint)
      (rangePages hint size * pageSize).toNat (fun _ => 0) = some mem) : 0 < (rangePages hint size).toNat →
      (alignPageDown hint).toNat + (rangePages hint size).toNat * 4096 ≤ 2 ^ 47 := by
  obtain ⟨mapped, inside⟩ := user_pages_own low own user
  rw [place] at stored
  have bound := (storeBytes_stores mapped (cleared_user inside) stored).2
  rw [pages_bytes (rangePages_bytes hint size)] at bound
  exact fun pos => bound (by omega)

/-- What a request does to the ranges. -/
theorem vmMap_unspent (low : LowReserve alloc) (kept : Kept alloc root session) (pos : size ≠ 0)
    (orderly : Orderly alloc root session (.vmMap hint size))
    (replied : vmMap alloc session.proc hint size = (some reply, next)) (pointer : Addr) :
    Unspent ceiling (fun point => Backed session.live point ∨
        reply.result = true ∧ (grantOf session.proc hint size pointer).Backs point) next.memoryAllocator ∧
      Fits ceiling next.memoryAllocator ∧
      (reply.result = true → ∀ point, (grantOf session.proc hint size pointer).Backs point →
        ¬ Backed session.live point) := by
  have top : ceiling < 2 ^ 64 := by decide
  rcases vmMap_taken pos replied with ⟨hinted, rfl, ranges, mem, stored⟩ | ⟨elsewhere, ranges, result⟩
  · have down := alignPageDown_toNat hint
    simp only [Orderly, callPages_hinted pos hinted] at orderly
    have cleared := hint_cleared low kept.own kept.place orderly stored
    have wraps : (alignPageDown hint).toNat + (rangePages hint size).toNat * 4096 < 2 ^ 64 := by omega
    obtain ⟨unspent, fresh⟩ := use_unspent kept.unspent top (by omega) wraps hinted.2
    simp only [ranges, grantOf, if_pos hinted, Grant.Backs, true_and, true_implies]
    exact ⟨unspent, use_fits kept.fits top (by omega) wraps, fresh⟩
  · rw [ranges]
    simp only [grantOf, if_neg elsewhere, Grant.Backs]
    refine ⟨?_, allocate_fits kept.fits top _, ?_⟩
    all_goals rcases allocate_grants kept.unspent top (alignPageUp size / pageSize) with
      missed | ⟨unspent, fresh, _⟩
    · rw [missed] at result ⊢
      refine kept.unspent.weaken ?_
      rintro point (old | ⟨granted, _⟩)
      · exact old
      · exact absurd rfl (result granted).1
    · exact unspent.weaken fun point => Or.imp_right And.right
    · rw [missed] at result
      exact fun granted => absurd rfl (result granted).1
    · exact fun _ => fresh

/-- Every orderly request keeps the session in order. -/
theorem request_kept (low : LowReserve alloc) (kept : Kept alloc root session)
    (orderly : Orderly alloc root session call)
    (requested : request alloc session call = some after) : Kept alloc root after := by
  cases call with
  | vmUnmap pointer =>
    cases requested
    have less : ∀ point, Backed (session.live.filter (·.pointer ≠ pointer)) point → Backed session.live point := by
      rintro point ⟨grant, member, backs⟩
      exact ⟨grant, List.mem_of_mem_filter member, backs⟩
    obtain ⟨unspent, fits⟩ := release_unspent kept.unspent kept.fits (by decide) less
      fun range member used same => ⟨(orderly range member used same).1, by
        rintro point ⟨grant, live, backs⟩
        obtain ⟨earlier, other⟩ := List.mem_filter.mp live
        exact (orderly range member used same).2 grant earlier (by simpa using other) point backs⟩
    exact ⟨kept.place, kept.own, kept.flagged, unspent, fits⟩
  | vmMap hint size =>
    cases replied : vmMap alloc session.proc hint size with
    | mk answered next =>
      cases answered with
      | none => simp [request, replied] at requested
      | some reply =>
        have answers : answer alloc session.proc (.vmMap hint size) = some next := by
          simp [answer, replied]
        obtain ⟨place, own⟩ := answer_own low kept.own kept.place orderly answers
        obtain ⟨flagged, _⟩ := answer_leaves low kept.own kept.flagged kept.place orderly answers
        simp only [request, replied, Option.some.injEq] at requested
        subst requested
        by_cases empty : size = 0
        · simp only [vmMap, if_pos empty, Prod.mk.injEq, Option.some.injEq] at replied
          obtain ⟨rfl, rfl⟩ := replied
          exact ⟨place, own, flagged, kept.unspent, kept.fits⟩
        · obtain ⟨unspent, fits, _⟩ := vmMap_unspent low kept empty orderly replied _
          refine ⟨place, own, flagged, unspent.weaken ?_, fits⟩
          intro point backed
          dsimp only at backed
          split at backed
          · rename_i granted
            obtain ⟨grant, member, backs⟩ := backed
            rcases List.mem_cons.mp member with rfl | member
            · exact .inr ⟨granted, backs⟩
            · exact .inl ⟨grant, member, backs⟩
          · exact .inl backed

theorem reached_kept (low : LowReserve alloc) (start : Kept alloc root ⟨proc, []⟩)
    (reached : Reached alloc root proc session) : Kept alloc root session := by
  induction reached with
  | start => exact start
  | step _ orderly requested ih => exact request_kept low ih orderly requested

/-- A process just constructed. -/
theorem construct_kept {st : Physical σ} {current : Frame} (tree : TableTree st.mem current)
    (held : TablesHeld alloc current st) (drawn : (alloc.allocatePage st.frames).1 = root.val)
    (nonzero : root.val ≠ 0) : Kept alloc root ⟨constructProcess alloc st current.val, []⟩ := by
  have stale : Blank (fun path => UserHalf path ∧ ¬ UserHalf path) st.mem current :=
    fun _ _ _ _ _ both => absurd both.1 both.2
  obtain ⟨place, own⟩ := construct_own tree held stale drawn nonzero
  have entries := (construct_entries (drawn_fresh held drawn nonzero).2 drawn).2
  have bare : ∀ key : Key, key.toNat < 256 → checkFlag (entryAt
      (constructProcess alloc st current.val).physical.mem root key)
      pagetablePresent = false := by
    intro key user
    rw [entries key, if_neg (by omega)]
    rfl
  have ranges : (constructProcess alloc st current.val).memoryAllocator = [⟨0x1000, 0xffff3ffffffff, false⟩] := by
    change addRange [] _ _ = _
    decide
  refine ⟨place, own, ?_, ?_, ?_⟩
  · intro probe table slot short user reached present
    cases probe with
    | nil =>
      cases reached
      rw [bare slot user] at present
      cases present
    | cons first rest =>
      simp [descend, child_of_absent (bare first user)] at reached
  · rw [ranges]
    refine ⟨List.pairwise_singleton _ _, ?_, ?_⟩
    · simp only [List.mem_singleton, forall_eq]
      decide
    · rintro _ _ _ _ ⟨_, none, _⟩
      cases none
  · rw [ranges]
    simp only [Fits, List.mem_singleton, forall_eq]
    decide

end Invariants

/-! ## Usable memory -/

section Promise
variable {σ : Type} {alloc : LawfulAllocator σ} {root : Frame} {session : Session σ} {next : Process σ}
  {hint size pointer : BitVec 64}

theorem within_toNat (low : pointer.toNat + size.toNat ≤ 2 ^ 64) :
    Within pointer size virt ↔ pointer.toNat ≤ virt.toNat ∧ virt.toNat < pointer.toNat + size.toNat := by
  have first := virt.isLt
  rw [Within, toNat_sub]
  omega

/-- Where the pages of a granted request begin: at the hint, or eight bytes above the pointer. -/
theorem grant_place (kept : Kept alloc root session) (pos : size ≠ 0)
    (granted : vmMap alloc session.proc hint size = (some ⟨some pointer, true, none⟩, next)) :
    ∃ start, callPages session.proc (.vmMap hint size) =
        pagesFrom start (grantOf session.proc hint size pointer).pages ∧
      (grantOf session.proc hint size pointer).base = alignPageDown start ∧
      (pointer = start ∧ (grantOf session.proc hint size pointer).pages = rangePages pointer size ∨
        (start.toNat % 4096 = 0 ∧ pointer.toNat + 8 = start.toNat ∧ start.toNat ≤ ceiling) ∧
          (grantOf session.proc hint size pointer).pages = alignPageUp size / pageSize) := by
  rcases vmMap_taken pos granted with ⟨hinted, reply, _⟩ | ⟨elsewhere, _, result⟩
  · obtain rfl : pointer = hint := by simpa using reply
    have grant : grantOf session.proc pointer size pointer = ⟨pointer, size, _, _⟩ := if_pos hinted
    rw [grant, callPages_hinted pos hinted]
    exact ⟨pointer, rfl, rfl, .inl ⟨rfl, rfl⟩⟩
  · obtain ⟨found, same⟩ := result rfl
    obtain ⟨_, bound, aligned⟩ := allocate_unspent kept.unspent (by decide) (alignPageUp size / pageSize)
    have pages : stackPages session.proc size = pagesFrom _ _ := if_neg found
    simp only [callPages_elsewhere pos elsewhere, pages, rangeGiven, grantOf, if_neg elsewhere]
    generalize (RangeAllocator.allocateRange session.proc.memoryAllocator (alignPageUp size / pageSize)).1 = start
      at found same bound aligned ⊢
    have page : start.toNat ≠ 0 := fun zero => found (eq_of_toNat_eq zero)
    have down := alignPageDown_toNat start
    refine ⟨start, rfl, eq_of_toNat_eq (by omega), .inr ⟨⟨aligned, ?_, bound⟩, trivial⟩⟩
    cases same
    rw [toNat_sub, show (8 : BitVec 64).toNat = 8 from rfl]
    omega

/-- A request that is not at the end of the addresses asks for a page. -/
theorem rangePages_zero (whole : hint.toNat + size.toNat ≤ 2 ^ 64) (pos : size ≠ 0)
    (none : (rangePages hint size).toNat = 0) : hint.toNat < 4096 := by
  have filled : size.toNat ≠ 0 := fun zero => pos (eq_of_toNat_eq zero)
  have down := alignPageDown_toNat hint
  have up := alignPageUp_mod (hint + size)
  rw [toNat_add] at up
  rw [rangePages, toNat_udiv, toNat_sub, pageSize_toNat] at none
  omega

/-- Beyond 2^47 the processor refuses an address of the range. -/
theorem usable_low (kept : Kept alloc root session) (pos : size ≠ 0)
    (orderly : Orderly alloc root session (.vmMap hint size)) (low : LowReserve alloc)
    (granted : vmMap alloc session.proc hint size = (some ⟨some pointer, true, none⟩, next))
    (usable : Usable next session.live pointer size) : pointer.toNat + size.toNat ≤ 2 ^ 47 := by
  have filled : size.toNat ≠ 0 := fun zero => pos (eq_of_toNat_eq zero)
  have whole := usable.whole
  have below : pointer.toNat < 0xffff800000000000 := by
    obtain ⟨start, pages, _, ⟨rfl, count⟩ | ⟨⟨_, above, bound⟩, _⟩⟩ := grant_place kept pos granted
    · by_cases none : (rangePages pointer size).toNat = 0
      · have := rangePages_zero whole pos none
        omega
      · simp only [Orderly, pages, count] at orderly
        have first : pointer ∈ pagesFrom pointer (rangePages pointer size) :=
          List.mem_map.mpr ⟨0, List.mem_range.mpr (by omega), by simp⟩
        have user := (user_pages_own low kept.own orderly).2 pointer first
        rw [UserPage, pml4Key_toNat] at user
        omega
    · have value : ceiling = 0xffff400000000000 := rfl
      omega
  by_contra past
  have refused : ∀ virt : Addr, Within pointer size virt → virt.toNat < 0xffff800000000000 → virt.toNat < 2 ^ 47 :=
    fun virt inside => canonical_below (userAccess_canonical (usable.mapped virt inside))
  by_cases first : pointer.toNat < 2 ^ 47
  · have value : (0x800000000000 : Addr).toNat = 2 ^ 47 := rfl
    have beyond := refused 0x800000000000 ((within_toNat whole).mpr (by omega)) (by omega)
    omega
  · exact first (refused pointer ((within_toNat whole).mpr (by omega)) below)

/-- Below 2^47, a call opens the pages of its grant to the user and nothing else. -/
theorem access_iff (low : LowReserve alloc) (kept : Kept alloc root session) (pos : size ≠ 0)
    (orderly : Orderly alloc root session (.vmMap hint size))
    (granted : vmMap alloc session.proc hint size = (some ⟨some pointer, true, none⟩, next))
    (ends : pointer.toNat + size.toNat ≤ 2 ^ 47) (user : virt.toNat < 2 ^ 47) :
    userAccess next.physical.mem next.pml4Physical virt = true ↔
      userAccess session.proc.physical.mem session.proc.pml4Physical virt = true ∨
        (grantOf session.proc hint size pointer).Backs virt.toNat := by
  have answers : answer alloc session.proc (.vmMap hint size) = some next := by
    simp [answer, granted]
  obtain ⟨place, own⟩ := answer_own low kept.own kept.place orderly answers
  obtain ⟨flagged, leaves⟩ := answer_leaves low kept.own kept.flagged kept.place orderly answers
  obtain ⟨start, pages, base, where'⟩ := grant_place kept pos granted
  have begins : (alignPageDown start).toNat ≤ 2 ^ 47 := by
    have down := alignPageDown_toNat start
    rcases where' with ⟨rfl, _⟩ | ⟨⟨_, above, _⟩, _⟩ <;> omega
  simp only [Orderly, pages] at orderly
  have stretch := user_stretch (user_pages_own low kept.own orderly).2 begins
  rw [place, kept.place, userAccess_iff own.tree flagged user, userAccess_iff kept.own.tree kept.flagged user,
    leaves _ _ rfl, pages, pagesFrom_iff stretch user, Grant.Backs, base]

/-- Only bytes below the pages spill, and at most eight of them. -/
theorem spills_below (kept : Kept alloc root session) (pos : size ≠ 0)
    (granted : vmMap alloc session.proc hint size = (some ⟨some pointer, true, none⟩, next))
    (ends : pointer.toNat + size.toNat ≤ 2 ^ 47) (inside : Within pointer size virt)
    (outside : ¬ (grantOf session.proc hint size pointer).Backs virt.toNat) :
    virt.toNat < (grantOf session.proc hint size pointer).base.toNat ∧
      (grantOf session.proc hint size pointer).base.toNat ≤ pointer.toNat + 8 := by
  rw [within_toNat (by omega)] at inside
  obtain ⟨start, _, base, ⟨rfl, pages⟩ | ⟨⟨aligned, above, _⟩, pages⟩⟩ := grant_place kept pos granted
  · exfalso
    have down := alignPageDown_toNat pointer
    have sum : (pointer + size).toNat = pointer.toNat + size.toNat := by
      rw [toNat_add]
      omega
    have up : (alignPageUp (pointer + size)).toNat = (pointer.toNat + size.toNat + 4095) / 4096 * 4096 := by
      rw [alignPageUp_toNat (by omega), sum]
    have count : (rangePages pointer size).toNat =
        ((pointer.toNat + size.toNat + 4095) / 4096 * 4096 - (alignPageDown pointer).toNat) / 4096 := by
      rw [rangePages, toNat_udiv, toNat_sub_of_le (by rw [le_def]; omega), up, pageSize_toNat]
    apply outside
    rw [Grant.Backs, Asked, base, pages, count]
    omega
  · have down := alignPageDown_toNat start
    have count : (alignPageUp size / pageSize).toNat = (size.toNat + 4095) / 4096 := by
      rw [toNat_udiv, alignPageUp_toNat (by omega), pageSize_toNat]
      omega
    rw [Grant.Backs, Asked, base, pages, count] at outside
    rw [base]
    omega

end Promise

/-- In every session of a new process, over frames that are not null, with the pages of every request
in the user half and no unmap that releases what is free or belongs to another grant: a request that
`vmMap` granted is usable exactly when nothing goes wrong at the spilled bytes; these are below the
pages and at most eight. -/
theorem vmMap_usable_iff {σ : Type} (alloc : LawfulAllocator σ) (low : LowReserve alloc)
    (st : Physical σ) (current root : Frame) (tree : TableTree st.mem current) (held : TablesHeld alloc current st)
    (drawn : (alloc.allocatePage st.frames).1 = root.val) (nonzero : root.val ≠ 0)
    (session : Session σ) (reached : Reached alloc root (constructProcess alloc st current.val) session)
    (hint size pointer : BitVec 64) (pos : size ≠ 0)
    (orderly : Orderly alloc root session (.vmMap hint size)) (next : Process σ)
    (granted : vmMap alloc session.proc hint size = (some ⟨some pointer, true, none⟩, next)) :
    pointer = startOf session.proc hint size ∧ (Usable next session.live pointer size ↔
        Sheltered session (grantOf session.proc hint size (startOf session.proc hint size))) ∧
      (pointer.toNat + size.toNat ≤ 2 ^ 47 → ∀ virt, (grantOf session.proc hint size pointer).Spills virt →
        virt.toNat < (grantOf session.proc hint size pointer).base.toNat ∧
          (grantOf session.proc hint size pointer).base.toNat ≤ pointer.toNat + 8) := by
  have place := startOf_eq pos granted
  rw [← place]
  have kept := reached_kept low (construct_kept tree held drawn nonzero) reached
  have fresh := (vmMap_unspent low kept pos orderly granted pointer).2.2 rfl
  have bytes : (grantOf session.proc hint size pointer).pointer = pointer ∧
      (grantOf session.proc hint size pointer).size = size := by
    unfold grantOf
    split <;> exact ⟨rfl, rfl⟩
  have has : ∀ virt, (grantOf session.proc hint size pointer).Has virt ↔ Within pointer size virt := by
    intro virt
    rw [Grant.Has, bytes.1, bytes.2]
  refine ⟨rfl, ⟨?_, ?_⟩, fun ends virt spills =>
    spills_below kept pos granted ends ((has virt).mp spills.1) spills.2⟩
  · intro usable
    have ends := usable_low kept pos orderly low granted usable
    refine ⟨by rwa [bytes.1, bytes.2], ?_, ?_⟩
    · rintro virt ⟨inside, outside⟩
      rw [has] at inside
      have user := ((within_toNat usable.whole).mp inside).2
      have opened := (access_iff low kept pos orderly granted ends (by omega)).mp (usable.mapped virt inside)
      exact ⟨opened.resolve_right (fun backs => outside backs), usable.apart virt inside⟩
    · intro other member virt spills inside
      exact usable.apart virt ((has virt).mp inside) other member spills.1
  · intro sheltered
    have ends := sheltered.low
    rw [bytes.1, bytes.2] at ends
    refine ⟨by omega, ?_, ?_⟩
    · intro virt inside
      have user := ((within_toNat (by omega)).mp inside).2
      apply (access_iff low kept pos orderly granted ends (by omega)).mpr
      by_cases backs : (grantOf session.proc hint size pointer).Backs virt.toNat
      · exact .inr backs
      · exact .inl (sheltered.own virt ⟨(has virt).mpr inside, backs⟩).1
    · intro virt inside other member claimed
      by_cases backs : (grantOf session.proc hint size pointer).Backs virt.toNat
      · by_cases spills : other.Backs virt.toNat
        · exact fresh virt.toNat backs ⟨other, member, spills⟩
        · exact sheltered.others other member virt ⟨claimed, spills⟩ ((has virt).mpr inside)
      · exact (sheltered.own virt ⟨(has virt).mpr inside, backs⟩).2 other member claimed

/-! ## The small process -/

/-- The small process after it was given half a page at 0x1000. -/
@[irreducible] def halfProcess : Process BitmapAllocator.Allocator :=
  (vmMap physicalAllocator smallProcess 0x1000 0x800).2

def halfSession : Session BitmapAllocator.Allocator := ⟨halfProcess, [⟨0x1000, 0x800, 0x1000, 1⟩]⟩

theorem half_reached : Reached physicalAllocator processRoot smallProcess halfSession := by
  have reply : (vmMap physicalAllocator smallProcess 0x1000 0x800).1 =
      some ⟨some 0x1000, true, none⟩ := by decide +kernel
  have pages : callPages smallProcess (.vmMap 0x1000 0x800) = [0x1000] := by decide +kernel
  have grant : grantOf smallProcess 0x1000 0x800 0x1000 = ⟨0x1000, 0x800, 0x1000, 1⟩ := by decide +kernel
  have orderly : Orderly physicalAllocator processRoot ⟨smallProcess, []⟩ (.vmMap 0x1000 0x800) := by
    simp only [Orderly, pages, EachPage, InUserHalf, Drawn, PageSupplied, MapDraws, DrawsAt]
    decide +kernel
  refine .step .start orderly ?_
  have called : vmMap physicalAllocator smallProcess 0x1000 0x800 =
      (some ⟨some 0x1000, true, none⟩, halfProcess) := by
    unfold halfProcess
    exact Prod.fst_eq_iff.mp reply
  simp only [request, called, Option.getD_some, if_true, grant, halfSession]

/-- The rest of the page at 0x1000 was given to nobody, so the eight bytes of the next grant that
lie in it do no harm. -/
theorem vmMap_usable_iff_half : ∃ next, vmMap physicalAllocator halfSession.proc 0 0x800 =
        (some ⟨some 0x1ff8, true, none⟩, next) ∧ Usable next halfSession.live 0x1ff8 0x800 := by
  have reply : (vmMap physicalAllocator halfSession.proc 0 0x800).1 =
      some ⟨some 0x1ff8, true, none⟩ := by decide +kernel
  have drawn : (BitmapAllocator.allocatePage smallSpace.frames).1 = processRoot.val := by decide +kernel
  have pages : callPages halfSession.proc (.vmMap 0 0x800) = [0x2000] := by decide +kernel
  have place : startOf halfSession.proc 0 0x800 = 0x1ff8 := by decide +kernel
  have grant : grantOf halfSession.proc 0 0x800 0x1ff8 = ⟨0x1ff8, 0x800, 0x2000, 1⟩ := by decide +kernel
  have orderly : Orderly physicalAllocator processRoot halfSession (.vmMap 0 0x800) := by
    simp only [Orderly, pages, EachPage, InUserHalf, Drawn, PageSupplied, MapDraws, DrawsAt]
    decide +kernel
  have spare : ∀ offset < 8, userAccess halfSession.proc.physical.mem halfSession.proc.pml4Physical
      (0x1ff8 + BitVec.ofNat 64 offset) = true := by decide +kernel
  generalize called : vmMap physicalAllocator halfSession.proc 0 0x800 = result at reply ⊢
  obtain ⟨_, next⟩ := result
  cases reply
  obtain ⟨_, usable, spills⟩ := vmMap_usable_iff smallLaws small_low smallSpace smallRoot processRoot
    (represents_cleared (fun _ => 0) smallRoot).tree small_held drawn (by decide) halfSession half_reached
    0 0x800 0x1ff8 (by decide) orderly next called
  rw [place] at usable
  rw [grant] at usable spills
  have first : ∀ virt, ∀ other ∈ halfSession.live, other.Has virt → virt.toNat < 0x1800 := by
    intro virt other member has
    simp only [halfSession, List.mem_singleton] at member
    subst member
    exact ((within_toNat (by decide)).mp has).2
  have second : ∀ virt, Within 0x1ff8 0x800 virt → 0x1ff8 ≤ virt.toNat := fun virt inside =>
    ((within_toNat (by decide)).mp inside).1
  refine ⟨next, rfl, usable.mpr ⟨by decide, fun virt spilled => ⟨?_, fun other member has => ?_⟩, ?_⟩⟩
  · have below : virt.toNat < 0x2000 := (spills (by decide) virt spilled).1
    have above := second virt spilled.1
    have same : virt = 0x1ff8 + BitVec.ofNat 64 (virt.toNat - 0x1ff8) := by
      apply eq_of_toNat_eq
      rw [toNat_add, toNat_ofNat]
      change _ = (0x1ff8 + _) % _
      omega
    rw [same]
    exact spare _ (by omega)
  · have early := first virt other member has
    have late := second virt spilled.1
    omega
  · intro other member virt spilled inside
    have early := first virt other member spilled.1
    have late := second virt inside
    omega

/-- The first byte asked for anywhere is returned at 0xff8, where nothing is mapped. After a page at
0x1000 the next one is returned at 0x1ff8, inside the first. -/
theorem spilled_bytes : (vmMap physicalAllocator smallProcess 0 1).1 = some ⟨some 0xff8, true, none⟩ ∧
      ¬ Usable (vmMap physicalAllocator smallProcess 0 1).2 [] 0xff8 1 ∧
      let first := vmMap physicalAllocator smallProcess 0x1000 0x1000
      first.1 = some ⟨some 0x1000, true, none⟩ ∧
        (vmMap physicalAllocator first.2 0 0x1000).1 = some ⟨some 0x1ff8, true, none⟩ ∧
        Within 0x1000 0x1000 0x1ff8 := by
  refine ⟨by decide +kernel, ?_, by decide +kernel, by decide +kernel, by unfold Within; decide⟩
  intro usable
  have touched := usable.mapped 0xff8 (by unfold Within; decide)
  revert touched
  decide +kernel

end LunaOS.UserGrants
