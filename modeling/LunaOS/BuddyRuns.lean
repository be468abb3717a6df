import LunaOS.BuddyCalls

/-! Runs of the buddy allocator: requests and releases in any order, with the
owners writing to what they were given in between. -/
namespace LunaOS.BuddyRuns
open ByteMemory BuddyAllocator BuddyHeaders BuddyInvariant BuddyCalls CircularList DyadicTiling BitVec

/-- The memory, and the pointers handed out and not released with the sizes asked for. -/
structure State where
  mem : Memory
  live : List (Addr × BitVec 64)

inductive Action where
  | allocate (size : BitVec 64)
  | deallocate (pointer : Addr)
  | store (address : Addr) (byte : Byte)

/-- Requests are not larger than half the addresses, only live pointers are
released, and stores go to a live payload. -/
def Allowed (state : State) : Action → Prop
  | .allocate size => size.toNat + 18 ≤ 2 ^ 63
  | .deallocate pointer => ∃ size, (pointer, size) ∈ state.live
  | .store address _ => ∃ entry ∈ state.live, (address - entry.1).toNat < entry.2.toNat

def act (alloc : Allocator) (state : State) : Action → Option State
  | .allocate size =>
    let (pointer, mem) := allocate alloc state.mem size
    some ⟨mem, if pointer = 0 then state.live else (pointer, size) :: state.live⟩
  | .deallocate pointer =>
    match deallocate alloc state.mem pointer with
    | none => none
    | some mem => some ⟨mem, state.live.eraseP (·.1 == pointer)⟩
  | .store address byte => some { state with mem := store8 state.mem address byte }

/-- What allowed actions lead to. -/
inductive RunOf (alloc : Allocator) (mem : Memory) : State → Prop
  | start : RunOf alloc mem ⟨initLists alloc mem, []⟩
  | step : RunOf alloc mem state → Allowed state action → act alloc state action = some next → RunOf alloc mem next

section Runs
variable (region : Region)

/-- The allocator just built. -/
def built (mem : Memory) : State := ⟨initLists region.alloc mem, []⟩

abbrev Run (mem : Memory) : State → Prop := RunOf region.alloc mem

/-- The block of a live pointer, by the header before it. -/
def ownPiece (mem : Memory) (entry : Addr × BitVec 64) : Piece :=
  ⟨(entry.1 - headerSize).toNat, (kval mem (entry.1 - headerSize)).toNat⟩

/-- The lists are well formed, their blocks and the blocks of the live pointers
tile the region, each payload is inside its block behind the header, and without
live pointers the whole region is the only block. -/
structure Partitioned (state : State) (lists : Nat → List Addr) : Prop where
  rings : ∀ k ≤ region.order, Ring (linkf state.mem) (linkb state.mem) (region.list k) (lists k)
  marks : ∀ k ≤ region.order, ∀ block ∈ lists k, tag state.mem block = true ∧ kval state.mem block = BitVec.ofNat 8 k
  tiles : Tiles region.base.toNat region.order
    (state.live.map (ownPiece state.mem) ++ freePieces region lists)
  payloads : ∀ entry ∈ state.live, entry.1.toNat = (ownPiece state.mem entry).start + 18 ∧
    18 + entry.2.toNat ≤ 2 ^ (ownPiece state.mem entry).order
  restored : state.live = [] → lists region.order = [region.base] ∧ ∀ k < region.order, lists k = []

def Sound (state : State) : Prop := ∃ lists, Partitioned region state lists

end Runs

/-! ## The invariant -/

def entry (block : Block) : Addr × BitVec 64 := (block.start + headerSize, block.size)

section Invariants
variable {region : Region}

structure Kept (region : Region) (state : State) (lists : Nat → List Addr) (held : List Block) : Prop where
  shape : Shape region (region.view state.mem) lists held []
  live : state.live = held.map entry
  fits : ∀ block ∈ held, block.size.toNat + 18 ≤ 2 ^ block.order

theorem built_kept (mem : Memory) :
    Kept region (built region mem) (Function.update (fun _ => []) region.order [region.base]) [] :=
  ⟨initLists_shape mem, rfl, fun _ member => absurd member List.not_mem_nil⟩

/-- Pointers are behind the header of their block, without wrapping around. -/
theorem pointer_toNat (shape : Shape region heads lists held hand) (member : block ∈ held) :
    (block.start + headerSize).toNat = block.start.toNat + 18 := by
  have large := shape.large _ (held_mem member)
  have room : 2 ^ 5 ≤ 2 ^ block.order := Nat.pow_le_pow_right (by decide) large
  obtain ⟨_, high⟩ := shape.tiles.inside _ (held_mem member)
  have ends := region.ends
  simp only [Block.piece] at high
  rw [toNat_add, show headerSize.toNat = 18 from rfl]
  omega

theorem pointer_nonzero (shape : Shape region heads lists held hand) (member : block ∈ held) :
    block.start + headerSize ≠ 0 := by
  intro zero
  have pointer := pointer_toNat shape member
  rw [zero] at pointer
  change 0 = block.start.toNat + 18 at pointer
  omega

theorem allocate_kept (kept : Kept region state lists held) (bound : size.toNat + 18 ≤ 2 ^ 63) :
    ∃ next lists' held', act region.alloc state (.allocate size) = some next ∧ Kept region next lists' held' := by
  rcases allocate_shape kept.shape bound with ⟨missed, _⟩ | ⟨block, lists', after, found, shape, _⟩
  · refine ⟨state, lists, held, ?_, kept⟩
    simp only [act, missed, if_true]
  · have nonzero := pointer_nonzero shape List.mem_cons_self
    refine ⟨⟨after, (block + headerSize, size) :: state.live⟩, lists', _, ?_, shape, ?_, ?_⟩
    · simp only [act, found, if_neg nonzero]
    · simp only [List.map_cons, entry, kept.live]
    · exact List.forall_mem_cons.mpr ⟨(requiredOrder_fits rfl bound).1, kept.fits⟩

/-- The block of a live pointer, and what is live without it. -/
theorem live_block (kept : Kept region state lists held) (member : (pointer, size) ∈ state.live) :
    ∃ block rest, held.Perm (block :: rest) ∧ block.start + headerSize = pointer ∧
      state.live.eraseP (·.1 == pointer) = rest.map entry := by
  rw [kept.live] at member ⊢
  obtain ⟨owned, inside, same⟩ := List.mem_map.mp member
  have matches' : ((·.1 == pointer) ∘ entry) owned = true := by
    simp [same]
  obtain ⟨block, front, back, _, found, split, erased⟩ := List.exists_of_eraseP inside matches'
  refine ⟨block, front ++ back, split ▸ List.perm_middle, by simpa [entry] using found, ?_⟩
  rw [List.eraseP_map, erased]

theorem deallocate_kept (kept : Kept region state lists held) (ends : region.base.toNat + 2 ^ region.order < 2 ^ 64)
    (member : (pointer, size) ∈ state.live) :
    ∃ next lists' held', act region.alloc state (.deallocate pointer) = some next ∧
      Kept region next lists' held' := by
  obtain ⟨block, rest, perm, start, left⟩ := live_block kept member
  obtain ⟨after, lists', freed, shape, _⟩ := deallocate_shape kept.shape perm ends
  rw [start] at freed
  refine ⟨⟨after, state.live.eraseP (·.1 == pointer)⟩, lists', rest, ?_, shape, left, ?_⟩
  · simp only [act, freed]
  · intro other later
    exact kept.fits other (perm.mem_iff.mpr (List.mem_cons_of_mem _ later))

/-- A header in use shares no byte with the payload of a block handed out. -/
theorem payload_apart (shape : Shape region heads lists held []) (owned : block ∈ held)
    (low : block.start.toNat + 18 ≤ address.toNat) (high : address.toNat < block.start.toNat + 2 ^ block.order)
    (used : InUse region lists held node) : Apart node 18 address 1 := by
  obtain ⟨first, last⟩ := shape.tiles.inside _ (held_mem owned)
  simp only [Block.piece] at first last
  -- A header of another block is inside that block, which shares no place with this one.
  have begins : ∀ piece ∈ pieces region lists held [], piece.start = node.toNat →
      node.toNat + 18 ≤ address.toNat ∨ address.toNat + 1 ≤ node.toNat := by
    intro piece member start
    by_cases same : piece = block.piece
    · rw [same] at start
      left
      simp only [Block.piece] at start
      omega
    · have others := shape.tiles.perm (List.perm_cons_erase (held_mem owned))
      have room : 2 ^ 5 ≤ 2 ^ piece.order := Nat.pow_le_pow_right (by decide) (shape.large piece member)
      have here : block.piece.Holds address.toNat := ⟨Nat.le_trans (Nat.le_add_right _ _) low, high⟩
      have apart := others.apart ((List.mem_erase_of_ne same).mpr member) here
      unfold Piece.Holds at apart
      omega
  have separate : node.toNat + 18 ≤ address.toNat ∨ address.toNat + 1 ≤ node.toNat := by
    rcases used with ⟨k, below, member⟩ | ⟨other, member, rfl⟩
    · rcases List.mem_cons.mp member with rfl | member
      · have outside := region.apart
        have small : k ≤ 47 := Nat.le_trans below region.high
        rw [region.list_toNat small]
        omega
      · exact begins _ (free_mem below member) rfl
    · exact begins _ (held_mem member) rfl
  rcases separate with below | above
  · exact apart_of_le_left below (by omega)
  · exact apart_of_le_right above (region.site_room (shape.used_site used))

theorem store_kept (kept : Kept region state lists held) (member : slot ∈ state.live)
    (inside : (address - slot.1).toNat < slot.2.toNat) :
    ∃ next lists' held', act region.alloc state (.store address byte) = some next ∧
      Kept region next lists' held' := by
  rw [kept.live] at member
  obtain ⟨block, owned, rfl⟩ := List.mem_map.mp member
  have pointer := pointer_toNat kept.shape owned
  have fits := kept.fits block owned
  obtain ⟨_, last⟩ := kept.shape.tiles.inside _ (held_mem owned)
  have ends := region.ends
  simp only [entry, Block.piece] at inside last
  have place : address.toNat = block.start.toNat + 18 + (address - (block.start + headerSize)).toNat := by
    have sum := congrArg BitVec.toNat (BitVec.sub_add_cancel address (block.start + headerSize))
    rw [toNat_add, pointer] at sum
    omega
  refine ⟨_, lists, held, rfl, kept.shape.frame ?_, kept.live, kept.fits⟩
  intro node used
  have same : header (store8 state.mem address byte) node = header state.mem node :=
    header_write (payload_apart kept.shape owned (by omega) (by omega) used)
  simp only [header, Prod.mk.injEq] at same
  have site := kept.shape.used_site used
  rwa [(view_site site).1, (view_site site).1, (view_site site).2.1, (view_site site).2.1, (view_site site).2.2.1,
    (view_site site).2.2.1, (view_site site).2.2.2, (view_site site).2.2.2]

/-- What every allowed action keeps, and that it comes to an end. -/
theorem act_kept (kept : Kept region state lists held) (ends : region.base.toNat + 2 ^ region.order < 2 ^ 64)
    (allowed : Allowed state action) :
    ∃ next lists' held', act region.alloc state action = some next ∧ Kept region next lists' held' := by
  cases action with
  | allocate size => exact allocate_kept kept allowed
  | deallocate pointer =>
    obtain ⟨size, member⟩ := allowed
    exact deallocate_kept kept ends member
  | store address byte =>
    obtain ⟨slot, member, inside⟩ := allowed
    exact store_kept kept member inside

theorem run_kept (ends : region.base.toNat + 2 ^ region.order < 2 ^ 64) (run : Run region mem state) :
    ∃ lists held, Kept region state lists held := by
  induction run with
  | start => exact ⟨_, _, built_kept mem⟩
  | step _ allowed acted ih =>
    obtain ⟨lists, held, kept⟩ := ih
    obtain ⟨next, lists', held', found, kept'⟩ := act_kept kept ends allowed
    rw [acted] at found
    cases found
    exact ⟨lists', held', kept'⟩

theorem ownPiece_entry (shape : Shape region (region.view mem) lists held hand) (member : block ∈ held) :
    ownPiece mem (entry block) = block.piece := by
  have site : region.Site block.start := shape.site (held_mem member) rfl
  have start : block.start + headerSize - headerSize = block.start := BitVec.add_sub_cancel _ _
  have order := (shape.taken block member).2
  rw [(view_site site).2.2.2] at order
  rw [ownPiece, entry, start, order, kval_toNat (Nat.le_trans (shape.order_le member) region.high), Block.piece]

/-- With nothing handed out, the whole region is on the topmost list. -/
theorem shape_restored (shape : Shape region heads lists [] []) :
    lists region.order = [region.base] ∧ ∀ k < region.order, lists k = [] := by
  have whole : freePieces region lists = [⟨region.base.toNat, region.order⟩] := by
    refine shape.tiles.whole region.aligned ?_
    intro piece member below other
    obtain ⟨k, _, inList⟩ := List.mem_flatMap.mp member
    obtain ⟨block, inside, rfl⟩ := List.mem_map.mp inList
    obtain ⟨j, _, inList'⟩ := List.mem_flatMap.mp other
    obtain ⟨second, inside', same⟩ := List.mem_map.mp inList'
    obtain ⟨start, rfl⟩ := Piece.mk.inj same
    exact shape.merged j below block inside second inside' start
  have only : ∀ k ≤ region.order, ∀ block ∈ lists k, block = region.base ∧ k = region.order := by
    intro k below block member
    have single := mem_freePieces below member
    rw [whole, List.mem_singleton] at single
    obtain ⟨start, order⟩ := Piece.mk.inj single
    exact ⟨eq_of_toNat_eq start, order⟩
  have none : ∀ k < region.order, lists k = [] := by
    intro k below
    refine List.eq_nil_iff_forall_not_mem.mpr fun block member => ?_
    have top := (only k (Nat.le_of_lt below) block member).2
    omega
  refine ⟨?_, none⟩
  have copies := List.eq_replicate_of_mem fun block member => (only region.order (Nat.le_refl _) block member).1
  have short : (lists region.order).length ≤ 1 := by
    have distinct := (List.nodup_cons.mp (shape.rings region.order (Nat.le_refl _)).distinct).2
    rw [copies] at distinct
    exact List.nodup_replicate.mp distinct
  have some : lists region.order ≠ [] := by
    have top : ⟨region.base.toNat, region.order⟩ ∈ freePieces region lists := whole ▸ List.mem_cons_self
    obtain ⟨k, _, inList⟩ := List.mem_flatMap.mp top
    obtain ⟨block, member, same⟩ := List.mem_map.mp inList
    obtain ⟨_, rfl⟩ := Piece.mk.inj same
    exact List.ne_nil_of_mem member
  have length : (lists region.order).length = 1 := Nat.le_antisymm short (List.length_pos_iff.mpr some)
  rw [copies, length]
  rfl

theorem kept_partitioned (kept : Kept region state lists held) : Partitioned region state lists := by
  have shape := kept.shape
  constructor
  · intro k below
    refine (shape.rings k below).frame ?_ ?_ <;> intro node member
    · exact (view_site (shape.ring_site below member)).2.1.symm
    · exact (view_site (shape.ring_site below member)).2.2.1.symm
  · intro k below block member
    have site := shape.ring_site below (List.mem_cons_of_mem _ member)
    rw [← (view_site site).1, ← (view_site site).2.2.2]
    exact shape.marks k below block member
  · have own : state.live.map (ownPiece state.mem) = held.map Block.piece := by
      rw [kept.live, List.map_map]
      exact List.map_congr_left fun block member => ownPiece_entry shape member
    rw [own]
    exact shape.tiles
  · intro slot member
    rw [kept.live] at member
    obtain ⟨block, owned, rfl⟩ := List.mem_map.mp member
    rw [ownPiece_entry shape owned]
    have fits := kept.fits block owned
    refine ⟨pointer_toNat shape owned, ?_⟩
    simp only [entry, Block.piece]
    omega
  · intro none
    have released : held = [] := by simpa [none] using kept.live
    exact shape_restored (released ▸ shape)

end Invariants

/-! ## The region at the end of the addresses -/

section Wrapping
variable {region : Region} {mem : Memory}

/-- A region that ends with the addresses: no pointer passes the range check. -/
theorem deallocate_refuses (wraps : region.base.toNat + 2 ^ region.order = 2 ^ 64)
    (inside : region.base.toNat ≤ block.toNat) : deallocate region.alloc mem (block + headerSize) = some mem := by
  have start : block + headerSize - headerSize = block := BitVec.add_sub_cancel _ _
  have last : (region.base + region.alloc.size).toNat = 0 := by
    rw [toNat_add, region.size, wraps, Nat.mod_self]
  have outside : (block < region.base || region.base + region.alloc.size < block) = true := by
    have size := region.size_lt
    simp only [Bool.or_eq_true, decide_eq_true_eq, lt_def, last]
    omega
  simp only [deallocate, start]
  rw [show region.alloc.base = region.base from rfl, outside]
  rfl

/-- There one request and its release leave the region short of a block. -/
theorem wrapping_unsound (wraps : region.base.toNat + 2 ^ region.order = 2 ^ 64) :
    ∃ state, Run region mem state ∧ ¬ Sound region state := by
  have shape : Shape region _ _ [] [] := initLists_shape mem
  have bound : (1 : BitVec 64).toNat + 18 ≤ 2 ^ 63 := by decide
  rcases allocate_shape shape bound with ⟨_, none⟩ | ⟨block, lists, after, found, taken, _⟩
  · have order : requiredOrder region.alloc 1 = 5 := by
      change buddyallocatorFindOrder (alignToPowerOfTwo (1 + headerSize)) 1 = 5
      decide
    have top := none region.order (order ▸ region.low) (Nat.le_refl _)
    simp at top
  · have nonzero := pointer_nonzero taken List.mem_cons_self
    obtain ⟨low, high⟩ := taken.tiles.inside _ (held_mem List.mem_cons_self)
    have first : Run region mem ⟨after, [(block + headerSize, 1)]⟩ := by
      have allowed : Allowed (built region mem) (.allocate 1) := bound
      refine .step .start allowed ?_
      simp only [act, found, if_neg nonzero]
    have second : Run region mem ⟨after, []⟩ := by
      have allowed : Allowed ⟨after, [(block + headerSize, 1)]⟩ (.deallocate (block + headerSize)) :=
        ⟨1, List.mem_cons_self⟩
      refine .step first allowed ?_
      simp only [act, deallocate_refuses wraps low]
      simp
    refine ⟨_, second, ?_⟩
    rintro ⟨lists', partitioned⟩
    -- The whole region would have to be on the topmost list again, where the block is missing.
    have ring := partitioned.rings region.order (Nat.le_refl _)
    rw [(partitioned.restored rfl).1] at ring
    have head : (region.view after).linkf (region.list region.order) = region.base :=
      (view_site (list_site (Nat.le_refl _))).2.1.trans ring.path.1.1
    have other : region.base ≠ region.list region.order := fun same => by simpa [same] using ring.distinct
    have listed : region.base ∈ region.list region.order :: lists region.order :=
      head ▸ (taken.rings region.order (Nat.le_refl _)).first_mem
    have free := mem_freePieces (Nat.le_refl _) ((List.mem_cons.mp listed).resolve_left other)
    exact taken.tiles.apart free (start_held _) ⟨low, by simp only [Block.piece]; omega⟩

end Wrapping

/-- The partition holds in every run, and every call returns, exactly when the
region ends before the addresses do. -/
theorem buddy_partition_iff (region : Region) (mem : Memory) : (∀ state, Run region mem state → Sound region state ∧
      ∀ action, Allowed state action → (act region.alloc state action).isSome) ↔
    region.base.toNat + 2 ^ region.order < 2 ^ 64 := by
  constructor
  · intro all
    by_contra past
    have ends := region.ends
    have wraps : region.base.toNat + 2 ^ region.order = 2 ^ 64 := by omega
    obtain ⟨state, run, unsound⟩ := wrapping_unsound wraps
    exact unsound (all state run).1
  · intro ends state run
    obtain ⟨lists, held, kept⟩ := run_kept ends run
    refine ⟨⟨lists, kept_partitioned kept⟩, fun action allowed => ?_⟩
    obtain ⟨next, _, _, acted, _⟩ := act_kept kept ends allowed
    rw [acted]
    rfl

/-- The last 32 bytes of the addresses. -/
def topRegion : Region where
  avail := 0x1000
  base := 0xffffffffffffffe0
  order := 5
  low := by decide
  high := by decide
  aligned := by decide
  object := by decide
  apart := by decide

/-- The only block is handed out and released, and the list of its order stays empty. -/
theorem top_block_lost : let taken := allocate topRegion.alloc (initLists topRegion.alloc fun _ => 0) 1
    taken.1 = 0xfffffffffffffff2 ∧
      (deallocate topRegion.alloc taken.2 taken.1).map (linkedListIsEmpty · (topRegion.list 5)) = some true ∧
      ∃ state, Run topRegion (fun _ => 0) state ∧ ¬ Sound topRegion state :=
  ⟨by decide +kernel, by decide +kernel, wrapping_unsound (by decide)⟩

end LunaOS.BuddyRuns
