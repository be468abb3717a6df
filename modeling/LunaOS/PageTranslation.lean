import LunaOS.PageMapping

/-! Page tables as a map of pages. A run of `pagingMapPageInSpace` calls on a
cleared root is read back by the walk as the first mapping of each page, or the
latest one that overrides. -/
namespace LunaOS.PageTranslation
open ByteMemory PageTables PointerTree PageTableTree PageMapping FrameExclusivity

/-- A call of the map, as every caller makes it. -/
structure MapRequest where
  virt : Addr
  phys : Frame
  flags : PagingFlags
  override : Bool
  low : phys.val.toNat < 2 ^ 52
  plain : PlainPagingFlags flags

/-- The mapping that governs a page: the latest override, or else the first. -/
def governing (requests : List MapRequest) (page : BitVec 36) : Option MapRequest :=
  let own := requests.filter fun request => pageKey request.virt = page
  (own.filter fun request => request.override).getLast?.or own.head?

/-- Where the governing mapping sends an address. -/
def translation (requests : List MapRequest) (virt : Addr) : Addr :=
  match governing requests (pageKey virt) with
  | none => 0
  | some request => request.phys.val + offsetExclude virt

theorem governing_nil (page : BitVec 36) : governing [] page = none := rfl

theorem governing_snoc (requests : List MapRequest) (request : MapRequest) (page : BitVec 36) :
    governing (requests ++ [request]) page = if pageKey request.virt = page then
        if request.override then some request else (governing requests page).or (some request)
      else governing requests page := by
  simp only [governing, List.filter_append, List.filter_singleton]
  by_cases own : pageKey request.virt = page
  · cases overrides : request.override with
    | true => simp [own, overrides]
    | false => simp [own, overrides]
  · simp [own]

/-- The entry a request leaves. -/
def MapRequest.entry (request : MapRequest) : BitVec 64 := 0 ||| request.flags.ptFlags ||| request.phys.val

theorem MapRequest.entry_address (request : MapRequest) : addressExclude request.entry = request.phys.val := by
  have flags := request.plain.pt.address
  have kept := addressExclude_frame request.phys (Nat.lt_trans request.low (by decide))
  rw [entry, addressExclude_or, addressExclude_or, flags, kept]
  exact BitVec.zero_or

section Runs
variable {σ : Type} (alloc : FrameAllocator σ) (root : Frame)

def mapRequest (st : Physical σ) (request : MapRequest) : Physical σ :=
  pagingMapPageInSpace alloc st request.virt request.phys.val root.val request.flags request.override

def mapAll (st : Physical σ) (requests : List MapRequest) : Physical σ :=
  requests.foldl (mapRequest alloc root) st

/-- A frame fit to become a table: not null, aligned, low, and no table yet. -/
structure NewFrame (mem : Memory) (frame : Addr) : Prop where
  nonzero : frame ≠ 0
  aligned : frame.toNat % 4096 = 0
  low : frame.toNat < 2 ^ 52
  fresh : ∀ table, Table mem root table → table.val ≠ frame

/-- Every frame the run draws is new. -/
def Supplied (good : Memory → BitVec 64 → Addr → Prop) : Physical σ → List MapRequest → Prop
  | _, [] => True
  | st, request :: rest =>
    MapDraws alloc st request.virt root.val request.flags request.override good ∧
      Supplied good (mapRequest alloc root st request) rest

variable {alloc root}

theorem blank_supports : Supports alloc root target
    (fun st => Blank (fun _ => True) st.mem root) fun mem _ frame => NewFrame root mem frame where
  suited st path table key blank inner found _ absent new := by
    refine ⟨new.nonzero, new.aligned, new.low, new.fresh, ?_⟩
    rw [blank path table key (by omega) found trivial absent]
    exact BitVec.zero_or
  entered _ _ _ _ blank _ _ enters _ := enters.blank _ blank
  rests _ _ blank _ _ still := still _ blank

/-- The tables hold what the requests ask for. -/
structure Represents (mem : Memory) (root : Frame) (requests : List MapRequest) : Prop where
  tree : TableTree mem root
  blank : Blank (fun _ => True) mem root
  leaves : ∀ virt, leaf mem root (tablePath virt) (ptKey virt) =
    (governing requests (pageKey virt)).map MapRequest.entry

theorem cleared_bare (mem : Memory) (root : Frame) (key : Key) : child (clearFrame mem root) root key = none := by
  refine child_of_absent ?_
  rw [entryAt_clearFrame_self]
  rfl

theorem cleared_table (held : Table (clearFrame mem root) root table) : table = root := by
  obtain ⟨path, _, found⟩ := held
  exact (descend_bare (cleared_bare mem root) found).2

theorem represents_cleared (mem : Memory) (root : Frame) : Represents (clearFrame mem root) root [] := by
  have bare := cleared_bare mem root
  refine ⟨⟨?_, ?_⟩, ?_, ?_⟩
  · intro first second node _ _ here there
    rw [(descend_bare bare here).1, (descend_bare bare there).1]
  · intro path table nonempty _ found
    exact absurd (descend_bare bare found).1 nonempty
  · intro path table key _ found _ _
    rw [(descend_bare bare found).2]
    exact entryAt_clearFrame_self mem root key
  · intro virt
    cases found : descend (child (clearFrame mem root)) root (tablePath virt) with
    | none => rw [leaf, found, governing_nil, Option.bind_none, Option.map_none]
    | some table => cases (descend_bare bare found).1

/-- A represented space translates as its requests ask. -/
theorem Represents.walk (represents : Represents mem root requests) (virt : Addr) :
    pagingVirtualToPhysical mem root.val virt = translation requests virt := by
  rw [walk_eq represents.tree, represents.leaves, translation]
  cases governing requests (pageKey virt) with
  | none => rfl
  | some request => simp only [Option.map_some, located, request.entry_address]

theorem same_page_iff (first second : Addr) :
    tablePath first ++ [ptKey first] = pagePath second ↔ pageKey second = pageKey first := by
  rw [pageKey_eq_iff, pagePath]
  constructor
  · intro same
    obtain ⟨path, last⟩ := List.append_inj' same rfl
    exact ⟨path.symm, (List.cons.inj last).1.symm⟩
  · rintro ⟨path, last⟩
    rw [path, last]

theorem represents_step (represents : Represents st.mem root requests) (request : MapRequest)
    (draws : MapDraws alloc st request.virt root.val request.flags request.override
      fun mem _ frame => NewFrame root mem frame) :
    Represents (mapRequest alloc root st request).mem root (requests ++ [request]) := by
  obtain ⟨maps, blank⟩ := map_maps blank_supports represents.blank represents.tree request.plain draws
    request.phys.val
  refine ⟨maps.tree, blank, ?_⟩
  intro virt
  rw [mapRequest, maps.leaves _ _ rfl, represents.leaves, governing_snoc]
  by_cases own : pageKey request.virt = pageKey virt
  · rw [if_pos ((same_page_iff virt request.virt).mpr own), if_pos own]
    cases request.override with
    | true => rfl
    | false => cases governing requests (pageKey virt) <;> rfl
  · rw [if_neg (fun same => own ((same_page_iff virt request.virt).mp same)), if_neg own]

theorem represents_run (represents : Represents st.mem root done)
    (supplied : Supplied alloc root (fun mem _ frame => NewFrame root mem frame) st requests) :
    Represents (mapAll alloc root st requests).mem root (done ++ requests) := by
  induction requests generalizing st done with
  | nil =>
    rw [List.append_nil]
    exact represents
  | cons request rest ih =>
    rw [List.append_cons]
    exact ih (represents_step represents request supplied.1) supplied.2

theorem supplied_append {good : Memory → BitVec 64 → Addr → Prop} (st : Physical σ)
    (front back : List MapRequest) : Supplied alloc root good st (front ++ back) ↔
      Supplied alloc root good st front ∧ Supplied alloc root good (mapAll alloc root st front) back := by
  induction front generalizing st with
  | nil => simp [Supplied, mapAll]
  | cons request rest ih => simp [Supplied, mapAll, ih, and_assoc]

/-- From a cleared root, any run of map calls over new frames translates each
address as its governing mapping says, and each call changes its own page only. -/
theorem run_translates (alloc : FrameAllocator σ) (root : Frame) (mem : Memory) (frames : σ)
    (requests : List MapRequest) (supplied : Supplied alloc root (fun mem _ frame => NewFrame root mem frame)
      ⟨clearFrame mem root, frames⟩ requests) :
    (∀ virt, pagingVirtualToPhysical (mapAll alloc root ⟨clearFrame mem root, frames⟩ requests).mem
        root.val virt = translation requests virt) ∧
      ∀ front request back, requests = front ++ request :: back → ∀ virt, pageKey virt ≠ pageKey request.virt →
        pagingVirtualToPhysical
            (mapAll alloc root ⟨clearFrame mem root, frames⟩ (front ++ [request])).mem root.val virt =
          pagingVirtualToPhysical (mapAll alloc root ⟨clearFrame mem root, frames⟩ front).mem root.val virt := by
  have whole : ∀ requests, Supplied alloc root (fun mem _ frame => NewFrame root mem frame)
      ⟨clearFrame mem root, frames⟩ requests →
      Represents (mapAll alloc root ⟨clearFrame mem root, frames⟩ requests).mem root requests :=
    fun _ supplied => represents_run (show Represents (Physical.mk (clearFrame mem root) frames).mem root []
      from represents_cleared mem root) supplied
  refine ⟨(whole requests supplied).walk, ?_⟩
  rintro front request back rfl virt other
  rw [List.append_cons] at supplied
  have after := ((supplied_append _ _ back).mp supplied).1
  have before := ((supplied_append _ front _).mp after).1
  rw [(whole _ after).walk, (whole _ before).walk, translation, governing_snoc, if_neg (Ne.symm other)]
  rfl

end Runs

/-! ## Lawful allocators -/

section Lawful
variable {σ : Type} {alloc : LawfulAllocator σ} {root : Frame}

theorem blank_held_supports (low : LowReserve alloc) {region : List Key → Prop}
    (inside : ∀ probe, probe <+: target → region probe) : Supports alloc root target
      (fun st => Blank region st.mem root ∧ TablesHeld alloc root st) fun _ _ frame => frame ≠ 0 where
  suited st path table key invariant inner found along absent nonzero := by
    refine held_suits low invariant.2 nonzero ?_
    rw [invariant.1 path table key (by omega) found (inside _ along) absent]
    exact BitVec.zero_or
  entered _ _ _ _ invariant _ _ enters source :=
    ⟨enters.blank _ invariant.1, held_entered invariant.2 enters source⟩
  rests _ _ invariant frames paths still :=
    ⟨still _ invariant.1, held_rests invariant.2 frames (table_iff_of_paths paths)⟩

section Supply
variable {st : Physical σ} (low : LowReserve alloc) (tree : TableTree st.mem root)
  (blank : Blank (fun _ => True) st.mem root) (held : TablesHeld alloc root st)
  (supplied : Supplied alloc root (fun _ _ frame => frame ≠ 0) st requests)
include low tree blank held supplied

/-- A lawful allocator that is never exhausted supplies every run. -/
theorem lawful_supplied : Supplied alloc root (fun mem _ frame => NewFrame root mem frame) st requests := by
  induction requests generalizing st with
  | nil => trivial
  | cons request rest ih =>
    have supports : Supports alloc.toFrameAllocator root (pagePath request.virt) _ _ :=
      blank_held_supports low fun _ _ => trivial
    obtain ⟨_, _, _, _, _, top, middle, bottom⟩ :=
      enterTables_opens supports ⟨blank, held⟩ tree request.plain supplied.1
    obtain ⟨maps, blank, held⟩ :=
      map_maps supports ⟨blank, held⟩ tree request.plain supplied.1 request.phys.val
    have new : ∀ {mem entry frame}, Suits mem root entry frame → NewFrame root mem frame :=
      fun suits => ⟨suits.nonzero, suits.aligned, suits.low, suits.fresh⟩
    exact ⟨⟨new ∘ top, new ∘ middle, new ∘ bottom⟩, ih maps.tree blank held supplied.2⟩

/-- The tables such a run leaves are the allocator's. -/
theorem lawful_held : TablesHeld alloc root (mapAll alloc root st requests) := by
  induction requests generalizing st with
  | nil => exact held
  | cons request rest ih =>
    obtain ⟨maps, blank, held⟩ := map_maps (blank_held_supports low fun _ _ => trivial) ⟨blank, held⟩ tree
      request.plain supplied.1 request.phys.val
    exact ih maps.tree blank held supplied.2

end Supply

theorem cleared_held (mem : Memory) (sound : alloc.sound frames)
    (held : alloc.held frames root.val) : TablesHeld alloc root ⟨clearFrame mem root, frames⟩ :=
  ⟨sound, fun _ reached => cleared_table reached ▸ held⟩

end Lawful

/-! ## A list of frames -/

/-- An allocator with a list of the frames that are free and one of those lent. -/
def listLaws : LawfulAllocator (List Addr × List Addr) where
  allocatePage
    | (frame :: free, out) => (frame, free, frame :: out)
    | ([], out) => (0, [], out)
  freePage frames frame := (frames.1, frames.2.filter (· ≠ frame))
  reserve frame := frame.toNat % 4096 = 0 ∧ frame.toNat < 2 ^ 52
  held frames frame := frame ∈ frames.2
  sound frames := frames.1.Nodup ∧ ∀ frame ∈ frames.1,
    frame ≠ 0 ∧ frame ∉ frames.2 ∧ frame.toNat % 4096 = 0 ∧ frame.toNat < 2 ^ 52
  aligned _ := And.left
  drawn := by
    rintro ⟨_ | ⟨frame, free⟩, out⟩ ⟨_, sound⟩ found
    · exact absurd rfl found
    · exact ⟨(sound frame (by simp)).2.2, (sound frame (by simp)).2.1⟩
  taken := by
    rintro ⟨_ | ⟨frame, free⟩, out⟩ _ found other
    · exact absurd rfl found
    · exact List.mem_cons.trans or_comm
  exhausted := by
    rintro ⟨_ | ⟨frame, free⟩, out⟩ ⟨_, sound⟩ null _
    · rfl
    · exact absurd null (sound frame (by simp)).1
  freed frames frame _ _ other := by simp
  drawn_sound := by
    rintro ⟨_ | ⟨frame, free⟩, out⟩ ⟨distinct, sound⟩
    · exact ⟨distinct, sound⟩
    · obtain ⟨new, distinct⟩ := List.nodup_cons.mp distinct
      refine ⟨distinct, fun other member => ?_⟩
      obtain ⟨nonzero, unheld, place⟩ := sound other (by simp [member])
      exact ⟨nonzero, by simp [unheld, ne_of_mem_of_not_mem member new], place⟩
  freed_sound frames frame sound _ := by
    refine ⟨sound.1, fun other member => ?_⟩
    obtain ⟨nonzero, unheld, place⟩ := sound.2 other member
    exact ⟨nonzero, by simp [unheld], place⟩

theorem list_low : LowReserve listLaws := fun _ => And.right

/-- So many frames, one after the other. -/
def frameRow (first count : Nat) : List Addr :=
  (List.range' first count).map fun page => BitVec.ofNat 64 (page * 4096)

theorem row_sound (started : 0 < first) (bounded : first + count ≤ 2 ^ 40)
    (below : ∀ frame ∈ out, frame.toNat < first * 4096) : listLaws.sound (frameRow first count, out) := by
  have place : ∀ page ∈ List.range' first count, (BitVec.ofNat 64 (page * 4096)).toNat = page * 4096 := by
    intro page member
    rw [List.mem_range'_1] at member
    rw [BitVec.toNat_ofNat]
    omega
  have distinct : (List.range' first count).Nodup := List.nodup_range'
  refine ⟨distinct.map_on fun page early other late same => ?_, fun frame member => ?_⟩
  · have values := congrArg BitVec.toNat same
    rw [place page early, place other late] at values
    omega
  · obtain ⟨page, listed, rfl⟩ := List.mem_map.mp member
    have value := place page listed
    rw [List.mem_range'_1] at listed
    refine ⟨fun null => ?_, fun out => ?_, by omega, by omega⟩
    · rw [null, show (0 : Addr).toNat = 0 from rfl] at value
      omega
    · have early := below _ out
      omega

/-! ## A small space -/

/-- The allocator of a small machine, by the pages it lends. -/
def smallLaws : LawfulAllocator BitmapAllocator.Allocator :=
  bitmapLaws (Lendable smallMemmap smallAllocator.memoryBitmap)

theorem small_low : LowReserve smallLaws := by
  intro frame pooled
  have bound := small_pool pooled
  omega

/-- The first page of the small machine that is drawn. -/
def smallRoot : Frame := ⟨0x2000, by decide⟩

def smallSpace : Physical BitmapAllocator.Allocator :=
  ⟨clearFrame (fun _ => 0) smallRoot, (BitmapAllocator.allocatePage smallAllocator).2⟩

theorem small_held : TablesHeld smallLaws smallRoot smallSpace := by
  have sound : smallLaws.sound smallAllocator := (initialize_lends small_initialized).1
  have first : (BitmapAllocator.allocatePage smallAllocator).1 = 0x2000 := by decide +kernel
  refine cleared_held _ (smallLaws.drawn_sound _ sound) ?_
  refine (smallLaws.taken _ sound ?_ _).mpr (.inr first.symm)
  exact fun null => absurd (first.symm.trans null) (by decide)

theorem userspace_plain : PlainPagingFlags userspaceDefaultPagingFlags := by
  refine ⟨?_, ?_, ?_, ?_⟩ <;> exact ⟨rfl, rfl, rfl⟩

theorem paging_plain : PlainPagingFlags pagingDefaultFlags := by
  refine ⟨?_, ?_, ?_, ?_⟩ <;> exact ⟨rfl, rfl, rfl⟩

def userRequest (virt : Addr) (phys : Frame) (override : Bool) (low : phys.val.toNat < 2 ^ 52) : MapRequest :=
  ⟨virt, phys, userspaceDefaultPagingFlags, override, low, userspace_plain⟩

/-- The frames 0x70000, 0x71000 and 0x72000. -/
def userFrame (index : Fin 3) : Frame := ⟨0x70000 + 0x1000 * BitVec.ofNat 64 index, by revert index; decide⟩

theorem userFrame_low (index : Fin 3) : (userFrame index).val.toNat < 2 ^ 52 := by
  revert index
  decide

/-- A page that is mapped for the first time. -/
def userPage (virt : Addr) (index : Fin 3) : MapRequest :=
  userRequest virt (userFrame index) false (userFrame_low index)

/-- Two mappings of one page and one of its neighbour. -/
def smallRequests : List MapRequest :=
  [userRequest 0x400000 ⟨0x70000, by decide⟩ false (by decide),
   userRequest 0x401000 ⟨0x71000, by decide⟩ false (by decide),
   userRequest 0x400000 ⟨0x72000, by decide⟩ true (by decide)]

theorem run_translates_small :
    let mem := (mapAll BitmapAllocator.physicalAllocator smallRoot smallSpace smallRequests).mem
    pagingVirtualToPhysical mem smallRoot.val 0x400123 = 0x72123 ∧
      pagingVirtualToPhysical mem smallRoot.val 0x401123 = 0x71123 ∧
      pagingVirtualToPhysical mem smallRoot.val 0x402123 = 0 := by
  intro mem
  have start := represents_cleared (fun _ => 0) smallRoot
  have draws : Supplied BitmapAllocator.physicalAllocator smallRoot (fun _ _ frame => frame ≠ 0) smallSpace
      smallRequests := by
    simp only [smallRequests, Supplied, MapDraws, DrawsAt]
    decide +kernel
  have supplied := lawful_supplied small_low start.tree start.blank small_held draws
  have walk := (run_translates _ _ _ _ _ supplied).1
  exact ⟨walk 0x400123, walk 0x401123, walk 0x402123⟩

end LunaOS.PageTranslation
