import LunaOS.BuddyHeaders
import LunaOS.CircularList

/-! What the buddy allocator keeps true. The free lists are rings of blocks marked
available, and the blocks on them tile the region together with those handed out
and those a call has in hand. Every step of a call is one of a few moves between these. -/
namespace LunaOS.BuddyInvariant
open Function ByteMemory BuddyAllocator BuddyHeaders CircularList DyadicTiling

/-- A block handed out for a request of `size` bytes. -/
structure Block where
  start : Addr
  order : Nat
  size : BitVec 64

def Block.piece (block : Block) : Piece := ⟨block.start.toNat, block.order⟩

section Shapes
variable {region : Region} {heads : Heads} {lists : Nat → List Addr} {held : List Block} {hand : List Piece}

/-- The blocks on the available lists. -/
def freePieces (region : Region) (lists : Nat → List Addr) : List Piece :=
  (List.range (region.order + 1)).flatMap fun k => (lists k).map fun block => ⟨block.toNat, k⟩

def pieces (region : Region) (lists : Nat → List Addr) (held : List Block) (hand : List Piece) : List Piece :=
  hand ++ (held.map Block.piece ++ freePieces region lists)

structure Shape (region : Region) (heads : Heads) (lists : Nat → List Addr) (held : List Block) (hand : List Piece) :
    Prop where
  rings : ∀ k ≤ region.order, Ring heads.linkf heads.linkb (region.list k) (lists k)
  marks : ∀ k ≤ region.order, ∀ block ∈ lists k, heads.tag block = true ∧ heads.kval block = BitVec.ofNat 8 k
  taken : ∀ block ∈ held, heads.tag block.start = false ∧ heads.kval block.start = BitVec.ofNat 8 block.order
  tiles : Tiles region.base.toNat region.order (pieces region lists held hand)
  large : ∀ piece ∈ pieces region lists held hand, 5 ≤ piece.order
  merged : ∀ k < region.order, ∀ first ∈ lists k, ∀ second ∈ lists k, second.toNat ≠ buddy first.toNat k

theorem mem_freePieces (below : k ≤ region.order) (member : block ∈ lists k) :
    ⟨block.toNat, k⟩ ∈ freePieces region lists := by
  refine List.mem_flatMap.mpr ⟨k, List.mem_range.mpr (by omega), List.mem_map.mpr ⟨block, member, rfl⟩⟩

theorem free_mem (below : k ≤ region.order) (member : block ∈ lists k) :
    ⟨block.toNat, k⟩ ∈ pieces region lists held hand :=
  List.mem_append_right _ (List.mem_append_right _ (mem_freePieces below member))

theorem held_mem (member : block ∈ held) : block.piece ∈ pieces region lists held hand :=
  List.mem_append_right _ (List.mem_append_left _ (List.mem_map_of_mem member))

/-- The pieces of one list, whatever it holds, beside those of the others. -/
theorem freePieces_update (lists : Nat → List Addr) (below : k ≤ region.order) :
    ∃ others, ∀ blocks, (freePieces region (update lists k blocks)).Perm
      (blocks.map (fun block => ⟨block.toNat, k⟩) ++ others) := by
  have member : k ∈ List.range (region.order + 1) := List.mem_range.mpr (by omega)
  have rest : ∀ j ∈ (List.range (region.order + 1)).erase k, j ≠ k :=
    fun j inside same => List.nodup_range.not_mem_erase (same ▸ inside)
  refine ⟨((List.range (region.order + 1)).erase k).flatMap
    fun j => (lists j).map fun block => ⟨block.toNat, j⟩, ?_⟩
  intro blocks
  refine ((List.perm_cons_erase member).flatMap_right _).trans ?_
  rw [List.flatMap_cons, update_self]
  refine List.Perm.append_left _ (List.Perm.of_eq (List.flatMap_congr fun j inside => ?_))
  rw [update_of_ne (rest j inside)]

theorem freePieces_take (below : k ≤ region.order) (split : lists k = front ++ block :: back) :
    (freePieces region lists).Perm (⟨block.toNat, k⟩ :: freePieces region (update lists k (front ++ back))) := by
  obtain ⟨others, exchange⟩ := freePieces_update lists below
  have before := exchange (lists k)
  rw [update_eq_self, split, List.map_append, List.map_cons] at before
  have after := exchange (front ++ back)
  rw [List.map_append] at after
  exact (before.trans (List.perm_middle.append_right others)).trans (after.symm.cons _)

theorem freePieces_put (below : k ≤ region.order) : (freePieces region (update lists k (block :: lists k))).Perm
      (⟨block.toNat, k⟩ :: freePieces region lists) := by
  have split : update lists k (block :: lists k) k = [] ++ block :: lists k := update_self _ _ _
  have taken := freePieces_take below split
  rwa [update_idem, List.nil_append, update_eq_self] at taken

/-! ## Places -/

/-- The start of a block of the tiling is a site. -/
theorem Shape.site (shape : Shape region heads lists held hand) (member : piece ∈ pieces region lists held hand)
    (start : piece.start = address.toNat) : region.Site address := by
  have power : 2 ^ 5 ∣ 2 ^ piece.order := Nat.pow_dvd_pow 2 (shape.large piece member)
  have room : 2 ^ 5 ≤ 2 ^ piece.order := Nat.le_of_dvd (Nat.two_pow_pos _) power
  obtain ⟨low, high⟩ := shape.tiles.inside piece member
  refine .inr ⟨start ▸ power.trans (shape.tiles.aligned piece member), ?_, ?_⟩ <;> omega

theorem list_site (below : k ≤ region.order) : region.Site (region.list k) :=
  .inl ⟨k, Nat.le_trans below region.high, rfl⟩

theorem Shape.ring_site (shape : Shape region heads lists held hand) (below : k ≤ region.order)
    (member : node ∈ region.list k :: lists k) : region.Site node := by
  rcases List.mem_cons.mp member with rfl | member
  · exact list_site below
  · exact shape.site (free_mem below member) rfl

/-- No block begins on a list head. -/
theorem Shape.not_list (shape : Shape region heads lists held hand) (member : piece ∈ pieces region lists held hand)
    (start : piece.start = address.toNat) (below : k ≤ region.order) : address ≠ region.list k := by
  rintro rfl
  have small : k ≤ 47 := Nat.le_trans below region.high
  obtain ⟨low, high⟩ := shape.tiles.inside piece member
  have pos := Nat.two_pow_pos piece.order
  have outside := region.apart
  rw [start, region.list_toNat small] at low high
  omega

/-- The rings of two orders share no node. -/
theorem Shape.rings_apart (shape : Shape region heads lists held hand) (first : j ≤ region.order)
    (second : k ≤ region.order) (inFirst : node ∈ region.list j :: lists j)
    (inSecond : node ∈ region.list k :: lists k) : j = k := by
  rcases List.mem_cons.mp inFirst with rfl | inFirst
  · rcases List.mem_cons.mp inSecond with same | inSecond
    · exact region.list_injective (Nat.le_trans first region.high) (Nat.le_trans second region.high) same
    · exact absurd rfl (shape.not_list (free_mem second inSecond) rfl first)
  · rcases List.mem_cons.mp inSecond with rfl | inSecond
    · exact absurd rfl (shape.not_list (free_mem first inFirst) rfl second)
    · have same := shape.tiles.start_unique (free_mem first inFirst) (free_mem second inSecond) rfl
      exact (Piece.mk.inj same).2.symm

/-- A block in hand is on no list and not handed out. -/
theorem Shape.hand_free (shape : Shape region heads lists held (⟨start, order⟩ :: hand)) (below : k ≤ region.order)
    (member : block ∈ lists k) : block.toNat ≠ start :=
  shape.tiles.starts_apart (List.mem_append_right hand (List.mem_append_right _ (mem_freePieces below member)))

theorem Shape.hand_held (shape : Shape region heads lists held (⟨start, order⟩ :: hand)) (member : block ∈ held) :
    block.start.toNat ≠ start :=
  shape.tiles.starts_apart (List.mem_append_right hand (List.mem_append_left _ (List.mem_map_of_mem member)))

theorem Shape.order_le (shape : Shape region heads lists held hand) (member : block ∈ held) :
    block.order ≤ region.order := by
  obtain ⟨low, high⟩ := shape.tiles.inside _ (held_mem member)
  have power : 2 ^ block.order ≤ 2 ^ region.order := by
    simp only [Block.piece] at low high
    omega
  exact (Nat.pow_le_pow_iff_right (by decide)).mp power

/-- A node of a ring, or a block handed out. -/
def InUse (region : Region) (lists : Nat → List Addr) (held : List Block) (node : Addr) : Prop :=
  (∃ k ≤ region.order, node ∈ region.list k :: lists k) ∨ ∃ block ∈ held, block.start = node

theorem Shape.used_site (shape : Shape region heads lists held hand) (used : InUse region lists held node) :
    region.Site node := by
  rcases used with ⟨k, below, member⟩ | ⟨block, member, rfl⟩
  · exact shape.ring_site below member
  · exact shape.site (held_mem member) rfl

/-- Only the headers in use matter. -/
theorem Shape.frame {heads' : Heads} (shape : Shape region heads lists held hand)
    (same : ∀ node, InUse region lists held node → heads'.tag node = heads.tag node ∧
      heads'.linkf node = heads.linkf node ∧ heads'.linkb node = heads.linkb node ∧
      heads'.kval node = heads.kval node) : Shape region heads' lists held hand where
  rings k below := (shape.rings k below).frame (fun node member => (same node (.inl ⟨k, below, member⟩)).2.1)
    (fun node member => (same node (.inl ⟨k, below, member⟩)).2.2.1)
  marks k below block member := by
    obtain ⟨tag, _, _, kval⟩ := same block (.inl ⟨k, below, List.mem_cons_of_mem _ member⟩)
    rw [tag, kval]
    exact shape.marks k below block member
  taken block member := by
    obtain ⟨tag, _, _, kval⟩ := same block.start (.inr ⟨block, member, rfl⟩)
    rw [tag, kval]
    exact shape.taken block member
  tiles := shape.tiles
  large := shape.large
  merged := shape.merged

/-! ## Moves -/

/-- `block->linkb->linkf = block->linkf` and `block->linkf->linkb = block->linkb` -/
def unlinkHeads (heads : Heads) (block : Addr) : Heads :=
  (heads.setLinkf (heads.linkb block) (heads.linkf block)).setLinkb (heads.linkf block) (heads.linkb block)

/-- A block between a list head and its first block. -/
def pushHeads (heads : Heads) (list block : Addr) : Heads :=
  (((heads.setLinkf block (heads.linkf list)).setLinkb (heads.linkf list) block).setLinkb block list).setLinkf list block

def markHeads (heads : Heads) (block : Addr) (tag : Bool) (order : BitVec 8) : Heads :=
  (heads.setTag block tag).setKval block order

theorem pieces_take (below : k ≤ region.order) (split : lists k = front ++ block :: back) :
    (pieces region lists held hand).Perm
      (pieces region (update lists k (front ++ back)) held (⟨block.toNat, k⟩ :: hand)) := by
  refine (List.Perm.append_left _ (List.Perm.append_left _ (freePieces_take below split))).trans ?_
  exact (List.Perm.append_left _ List.perm_middle).trans List.perm_middle

/-- A block is taken off its list. -/
theorem Shape.take (shape : Shape region heads lists held hand) (below : k ≤ region.order)
    (split : lists k = front ++ block :: back) :
    Shape region (unlinkHeads heads block) (update lists k (front ++ back)) held (⟨block.toNat, k⟩ :: hand) := by
  have ring := shape.rings k below
  rw [split] at ring
  have kept : ∀ j, ∀ other ∈ update lists k (front ++ back) j, other ∈ lists j := by
    intro j other member
    by_cases same : j = k
    · subst same
      rw [update_self] at member
      rw [split]
      rcases List.mem_append.mp member with early | late
      · exact List.mem_append_left _ early
      · exact List.mem_append_right _ (List.mem_cons_of_mem _ late)
    · rwa [update_of_ne same] at member
  have all : (pieces region lists held hand).Perm _ := pieces_take below split
  constructor
  · intro j small
    by_cases same : j = k
    · subst same
      rw [update_self]
      exact ring.remove
    · rw [update_of_ne same]
      obtain ⟨before, after⟩ := ring.neighbours
      have inRing : ∀ node ∈ region.list k :: (front ++ back), node ∈ region.list k :: lists k := by
        intro node member
        rw [split]
        simp only [List.mem_cons, List.mem_append] at member ⊢
        tauto
      refine (shape.rings j small).frame ?_ ?_
      · intro node member
        refine update_of_ne ?_ _ _
        rintro rfl
        exact same (shape.rings_apart small below member (inRing _ before))
      · intro node member
        refine update_of_ne ?_ _ _
        rintro rfl
        exact same (shape.rings_apart small below member (inRing _ after))
  · exact fun j small other member => shape.marks j small other (kept j other member)
  · exact shape.taken
  · exact shape.tiles.perm all
  · exact fun piece member => shape.large piece (all.mem_iff.mpr member)
  · exact fun j small first member second later =>
      shape.merged j small first (kept j first member) second (kept j second later)

theorem pieces_put (below : k ≤ region.order) : (pieces region lists held (⟨block.toNat, k⟩ :: hand)).Perm
      (pieces region (update lists k (block :: lists k)) held hand) := by
  refine List.Perm.symm ?_
  refine (List.Perm.append_left _ (List.Perm.append_left _ (freePieces_put below))).trans ?_
  exact (List.Perm.append_left _ List.perm_middle).trans List.perm_middle

section Hand
variable {block : Addr} (shape : Shape region heads lists held (⟨block.toNat, k⟩ :: hand))
include shape

/-- The header of a block in hand may be marked in any way. -/
theorem Shape.mark (tag : Bool) (order : BitVec 8) :
    Shape region (markHeads heads block tag order) lists held (⟨block.toNat, k⟩ :: hand) where
  rings := shape.rings
  marks j small other member := by
    have differ : other ≠ block := fun same => shape.hand_free small member (same ▸ rfl)
    simp only [markHeads, Heads.setTag, Heads.setKval, update_of_ne differ]
    exact shape.marks j small other member
  taken other member := by
    have differ : other.start ≠ block := fun same => shape.hand_held member (same ▸ rfl)
    simp only [markHeads, Heads.setTag, Heads.setKval, update_of_ne differ]
    exact shape.taken other member
  tiles := shape.tiles
  large := shape.large
  merged := shape.merged

theorem Shape.markOrder (order : BitVec 8) :
    Shape region (heads.setKval block order) lists held (⟨block.toNat, k⟩ :: hand) := by
  have marked := shape.mark (heads.tag block) order
  have same : markHeads heads block (heads.tag block) order = heads.setKval block order := by
    simp only [markHeads, Heads.setTag, Heads.setKval, update_eq_self]
  rwa [same] at marked

theorem Shape.fresh (small : j ≤ region.order) : block ∉ region.list j :: lists j := by
  intro member
  rcases List.mem_cons.mp member with same | member
  · exact shape.not_list List.mem_cons_self rfl small same
  · exact shape.hand_free small member rfl

/-- A push onto one list leaves the rings of the others alone. -/
theorem Shape.push_other (below : k ≤ region.order) (small : j ≤ region.order) (differ : j ≠ k) :
    Ring (pushHeads heads (region.list k) block).linkf (pushHeads heads (region.list k) block).linkb
      (region.list j) (lists j) := by
  have away : ∀ node ∈ region.list j :: lists j, ∀ own ∈ region.list k :: lists k, node ≠ block ∧ node ≠ own := by
    intro node member own inside
    refine ⟨fun same => shape.fresh small (same ▸ member), ?_⟩
    rintro rfl
    exact differ (shape.rings_apart small below member inside)
  refine (shape.rings j small).frame ?_ ?_
  · intro node member
    obtain ⟨other, head⟩ := away node member _ List.mem_cons_self
    simp only [pushHeads, Heads.setLinkf, Heads.setLinkb, update_of_ne head, update_of_ne other]
  · intro node member
    obtain ⟨other, first⟩ := away node member _ (shape.rings k below).first_mem
    simp only [pushHeads, Heads.setLinkf, Heads.setLinkb, update_of_ne first, update_of_ne other]

/-- A block in hand goes to the front of the list of its order. -/
theorem Shape.put (below : k ≤ region.order) (marked : heads.tag block = true ∧ heads.kval block = BitVec.ofNat 8 k)
    (lonely : k < region.order → ∀ other ∈ lists k, other.toNat ≠ buddy block.toNat k) :
    Shape region (pushHeads heads (region.list k) block) (update lists k (block :: lists k)) held hand := by
  have all : (pieces region lists held (⟨block.toNat, k⟩ :: hand)).Perm _ := pieces_put below
  constructor
  · intro j small
    by_cases same : j = k
    · subst same
      rw [update_self]
      have outside := shape.fresh below
      simp only [List.mem_cons, not_or] at outside
      exact (shape.rings j below).push outside.1 outside.2
    · rw [update_of_ne same]
      exact shape.push_other below small same
  · intro j small other member
    by_cases same : j = k
    · subst same
      rw [update_self] at member
      rcases List.mem_cons.mp member with rfl | member
      · exact marked
      · exact shape.marks j small other member
    · rw [update_of_ne same] at member
      exact shape.marks j small other member
  · exact shape.taken
  · exact shape.tiles.perm all
  · exact fun piece member => shape.large piece (all.mem_iff.mpr member)
  · intro j small one member two later
    by_cases same : j = k
    · subst same
      rw [update_self] at member later
      rcases List.mem_cons.mp member with rfl | inside <;> rcases List.mem_cons.mp later with rfl | inside'
      · exact (buddy_ne _ _).symm
      · exact lonely small two inside'
      · intro equal
        exact lonely small one inside (by rw [equal, buddy_buddy])
      · exact shape.merged j small one inside two inside'
    · rw [update_of_ne same] at member later
      exact shape.merged j small one member two later

/-- A block in hand is handed out. -/
theorem Shape.hold (marked : heads.tag block = false ∧ heads.kval block = BitVec.ofNat 8 k) (size : BitVec 64) :
    Shape region heads lists (⟨block, k, size⟩ :: held) hand := by
  have all : (pieces region lists held (⟨block.toNat, k⟩ :: hand)).Perm
      (pieces region lists (⟨block, k, size⟩ :: held) hand) := List.perm_middle.symm
  refine ⟨shape.rings, shape.marks, ?_, shape.tiles.perm all, ?_, shape.merged⟩
  · exact List.forall_mem_cons.mpr ⟨marked, shape.taken⟩
  · exact fun piece member => shape.large piece (all.mem_iff.mpr member)

end Hand

/-- A block handed out is taken back in hand. -/
theorem Shape.takeBack (shape : Shape region heads lists held hand) (split : held.Perm (block :: rest)) :
    Shape region heads lists rest (block.piece :: hand) := by
  have all : (pieces region lists held hand).Perm (pieces region lists rest (block.piece :: hand)) :=
    (List.Perm.append_left _ ((split.map Block.piece).append_right _)).trans List.perm_middle
  refine ⟨shape.rings, shape.marks, ?_, shape.tiles.perm all, ?_, shape.merged⟩
  · exact fun other member => shape.taken other (split.mem_iff.mpr (List.mem_cons_of_mem _ member))
  · exact fun piece member => shape.large piece (all.mem_iff.mpr member)

theorem Shape.halve (shape : Shape region heads lists held (⟨start, k + 1⟩ :: hand)) (large : 5 ≤ k) :
    Shape region heads lists held (⟨start, k⟩ :: ⟨start + 2 ^ k, k⟩ :: hand) := by
  refine ⟨shape.rings, shape.marks, shape.taken, shape.tiles.halve, ?_, shape.merged⟩
  have others := (List.forall_mem_cons.mp shape.large).2
  exact List.forall_mem_cons.mpr ⟨large, List.forall_mem_cons.mpr ⟨large, others⟩⟩

theorem Shape.join (shape : Shape region heads lists held (⟨start, k⟩ :: ⟨buddy start k, k⟩ :: hand)) :
    Shape region heads lists held (⟨min start (buddy start k), k + 1⟩ :: hand) := by
  refine ⟨shape.rings, shape.marks, shape.taken, shape.tiles.merge, ?_, shape.merged⟩
  obtain ⟨large, others⟩ := List.forall_mem_cons.mp shape.large
  exact List.forall_mem_cons.mpr ⟨Nat.le_succ_of_le large, (List.forall_mem_cons.mp others).2⟩

/-- The order of the pieces in hand does not matter. -/
theorem Shape.swap (shape : Shape region heads lists held (first :: second :: hand)) :
    Shape region heads lists held (second :: first :: hand) := by
  have all : (pieces region lists held (first :: second :: hand)).Perm
      (pieces region lists held (second :: first :: hand)) := List.Perm.swap _ _ _
  exact ⟨shape.rings, shape.marks, shape.taken, shape.tiles.perm all,
    fun piece member => shape.large piece (all.mem_iff.mpr member), shape.merged⟩

end Shapes

end LunaOS.BuddyInvariant
