import LunaOS.BuddyInvariant

/-! The calls of the buddy allocator as moves of blocks between the lists, the
hand of the caller and the owners. -/
namespace LunaOS.BuddyCalls
open BitVec
open Function ByteMemory BoundedLoop BuddyAllocator BuddyHeaders BuddyInvariant DyadicTiling

section Moves
variable {region : Region} {mem : Memory} {lists : Nat → List Addr} {held : List Block} {hand : List Piece}

theorem view_unlink (site : region.Site block) (before : region.Site (linkb mem block))
    (after : region.Site (linkf mem block)) (other : block ≠ linkb mem block) :
    region.view (unlink mem block) = unlinkHeads (region.view mem) block := by
  let joined := setLinkf mem (linkb mem block) (linkf mem block)
  have view : region.view joined = (region.view mem).setLinkf (linkb mem block) (linkf mem block) :=
    view_setLinkf before
  have forward : linkf joined block = linkf mem block := by
    rw [← (view_site site).2.1, view, ← (view_site site).2.1]
    exact update_of_ne other _ _
  have backward : linkb joined block = linkb mem block := by
    rw [← (view_site site).2.2.1, view, ← (view_site site).2.2.1]
    rfl
  have shape : unlink mem block = setLinkb joined (linkf joined block) (linkb joined block) := rfl
  rw [shape, forward, backward, view_setLinkb after, view, unlinkHeads, (view_site site).2.1, (view_site site).2.2.1]

section Lists
variable (shape : Shape region (region.view mem) lists held hand) (below : k ≤ region.order)
include shape below

/-- The neighbours of a block on a list are sites other than the block. -/
theorem neighbour_sites (split : lists k = front ++ block :: back) :
    region.Site block ∧ region.Site (linkb mem block) ∧ region.Site (linkf mem block) ∧ block ≠ linkb mem block := by
  have site : region.Site block := shape.site (free_mem below (by simp [split])) rfl
  have ring := shape.rings k below
  rw [split] at ring
  have inRing : ∀ node ∈ region.list k :: (front ++ back), region.Site node := by
    intro node inside
    refine shape.ring_site below ?_
    rw [split]
    simp only [List.mem_cons, List.mem_append] at inside ⊢
    tauto
  have fresh : block ∉ region.list k :: (front ++ back) := by
    have distinct := (List.perm_middle.cons (region.list k)).nodup ring.distinct
    have swapped := (List.Perm.swap block (region.list k) _).nodup distinct
    exact (List.nodup_cons.mp swapped).1
  obtain ⟨before, after⟩ := ring.neighbours
  rw [(view_site site).2.2.1] at before
  rw [(view_site site).2.1] at after
  exact ⟨site, inRing _ before, inRing _ after, fun same => fresh (same ▸ before)⟩

/-- A block on a list is taken off it; only links change. -/
theorem unlink_shape (split : lists k = front ++ block :: back) :
    region.view (unlink mem block) = unlinkHeads (region.view mem) block ∧
      Shape region (region.view (unlink mem block)) (update lists k (front ++ back)) held
        (⟨block.toNat, k⟩ :: hand) := by
  obtain ⟨site, before, after, other⟩ := neighbour_sites shape below split
  have view := view_unlink site before after other
  exact ⟨view, view ▸ shape.take below split⟩

/-- `allocate` takes the first block of a list. -/
theorem pop_shape (first : lists k = block :: rest) : linkf mem (region.list k) = block ∧
      Shape region (region.view (setLinkb (setLinkf mem (region.list k) (linkf mem block))
          (linkf mem block) (region.list k))) (update lists k rest) held (⟨block.toNat, k⟩ :: hand) ∧
      (region.view (setLinkb (setLinkf mem (region.list k) (linkf mem block))
          (linkf mem block) (region.list k))).tag = (region.view mem).tag := by
  have split : lists k = [] ++ block :: rest := first
  obtain ⟨site, _, after, _⟩ := neighbour_sites shape below split
  have head := list_site below
  have ring := shape.rings k below
  rw [first] at ring
  have forward : linkf mem (region.list k) = block := by
    rw [← (view_site head).2.1]
    exact ring.path.1.1
  have backward : linkb mem block = region.list k := by
    rw [← (view_site site).2.2.1]
    exact ring.path.1.2
  have view : region.view (setLinkb (setLinkf mem (region.list k) (linkf mem block)) (linkf mem block)
      (region.list k)) = unlinkHeads (region.view mem) block := by
    rw [view_setLinkb after, view_setLinkf head, unlinkHeads, (view_site site).2.1, (view_site site).2.2.1, backward]
  refine ⟨forward, view ▸ shape.take below split, ?_⟩
  rw [view]
  rfl

end Lists

/-- The right half goes on the empty list of its order. -/
theorem view_putHalf (right : block + 1#64 <<< j = half) (site : region.Site half) (below : j ≤ region.order)
    (other : half ≠ region.list j) (empty : (region.view mem).linkf (region.list j) = region.list j) :
    region.view (putHalf region.alloc mem block j) =
      pushHeads (markHeads (region.view mem) half true (BitVec.ofNat 8 j)) (region.list j) half := by
  have head := list_site below
  have first : (markHeads (region.view mem) half true (BitVec.ofNat 8 j)).linkf (region.list j) = region.list j :=
    empty
  simp only [putHalf, right, region.allocator_list]
  rw [view_setLinkf head, view_setLinkb head, view_setLinkf site, view_setLinkb site, view_setKval site,
    view_setTag site, pushHeads, first]
  simp only [Heads.setLinkf, Heads.setLinkb, markHeads, update_comm other.symm]

theorem shift_toNat (small : k ≤ 47) : (1#64 <<< k).toNat = 2 ^ k := by
  have power : 2 ^ k < 2 ^ 64 := Nat.pow_lt_pow_right (by decide) (by omega)
  rw [toNat_shiftLeft, toNat_ofNat, Nat.shiftLeft_eq]
  simpa using power

/-- One split: the left half stays in hand, and only the tag of the right half changes. -/
theorem putHalf_shape (shape : Shape region (region.view mem) lists held [⟨block.toNat, j + 1⟩])
    (large : 5 ≤ j) (below : j ≤ region.order) (empty : lists j = []) :
    ∃ half, Shape region (region.view (putHalf region.alloc mem block j)) (update lists j [half]) held
        [⟨block.toNat, j⟩] ∧ (region.view (putHalf region.alloc mem block j)).tag =
        update (region.view mem).tag half true := by
  have halves := (shape.halve large).swap
  have bounds := halves.tiles.inside _ List.mem_cons_self
  have ends := region.ends
  have place : (block + 1#64 <<< j).toNat = block.toNat + 2 ^ j := by
    rw [toNat_add, shift_toNat (Nat.le_trans below region.high)]
    simp only at bounds
    omega
  rw [← place] at halves
  have inHand : ⟨(block + 1#64 <<< j).toNat, j⟩ ∈ pieces region lists held
      [⟨(block + 1#64 <<< j).toNat, j⟩, ⟨block.toNat, j⟩] := List.mem_cons_self
  have first : (region.view mem).linkf (region.list j) = region.list j := by
    rw [(shape.rings j below).empty_iff, empty]
  have view := view_putHalf rfl (halves.site inHand rfl) below (halves.not_list inHand rfl below) first
  have put := (halves.mark true (BitVec.ofNat 8 j)).put below
    ⟨update_self _ _ _, update_self _ _ _⟩ (by simp [empty])
  rw [empty] at put
  exact ⟨_, view ▸ put, congrArg Heads.tag view⟩

theorem splitBlock_shape (shape : Shape region (region.view mem) lists held [⟨block.toNat, j⟩])
    (large : 5 ≤ required) (above : required ≤ j) (below : j ≤ region.order)
    (empty : ∀ i, required ≤ i → i < j → lists i = []) :
    ∃ lists', Shape region (region.view (splitBlock region.alloc block required j mem)) lists' held
        [⟨block.toNat, required⟩] ∧
      (region.view mem).tag ≤ (region.view (splitBlock region.alloc block required j mem)).tag := by
  induction j generalizing mem lists with
  | zero => omega
  | succ j ih =>
    by_cases more : required < j + 1
    · obtain ⟨half, split, tags⟩ := putHalf_shape shape (by omega) (by omega) (empty j (by omega) (by omega))
      have others : ∀ i, required ≤ i → i < j → update lists j [half] i = [] := by
        intro i low high
        rw [update_of_ne (by omega)]
        exact empty i low (by omega)
      obtain ⟨lists', last, kept⟩ := ih split (by omega) (by omega) others
      rw [splitBlock, if_pos more]
      refine ⟨lists', last, le_trans ?_ kept⟩
      rw [tags]
      exact le_update_self_iff.mpr (Bool.le_true _)
    · obtain rfl : required = j + 1 := by omega
      rw [splitBlock, if_neg more]
      exact ⟨lists, shape, le_refl _⟩

section Search
variable (shape : Shape region (region.view mem) lists held hand)
include shape

theorem isEmpty_iff (below : k ≤ region.order) : linkedListIsEmpty mem (region.list k) = true ↔ lists k = [] := by
  rw [linkedListIsEmpty, beq_iff_eq, ← (view_site (list_site below)).2.1]
  exact (shape.rings k below).empty_iff

theorem findAvailable_some (found : findAvailable region.alloc mem required = some j) :
    required ≤ j ∧ j ≤ region.order ∧ lists j ≠ [] ∧ ∀ i, required ≤ i → i < j → lists i = [] := by
  rw [findAvailable, List.find?_range'_eq_some] at found
  obtain ⟨some, member, earlier⟩ := found
  rw [List.mem_range'_1, region.maxOrder] at member
  rw [region.allocator_list, Bool.not_eq_true', ← Bool.not_eq_true, isEmpty_iff shape (by omega)] at some
  refine ⟨member.1, by omega, some, ?_⟩
  intro i low high
  have none := earlier i low high
  rwa [region.allocator_list, Bool.not_not, isEmpty_iff shape (by omega)] at none

theorem findAvailable_none (missed : findAvailable region.alloc mem required = none) :
    ∀ k, required ≤ k → k ≤ region.order → lists k = [] := by
  intro k above below
  have all := List.find?_eq_none.mp missed k (by rw [List.mem_range'_1, region.maxOrder]; omega)
  rwa [region.allocator_list, Bool.not_eq_true', Bool.not_eq_false, isEmpty_iff shape below] at all

end Search

/-- `allocate` hands out a block of the order asked for, or changes nothing because
no available block is large enough. -/
theorem allocate_shape (shape : Shape region (region.view mem) lists held []) (bound : size.toNat + 18 ≤ 2 ^ 63) :
    (allocate region.alloc mem size = (0, mem) ∧
        ∀ k, requiredOrder region.alloc size ≤ k → k ≤ region.order → lists k = []) ∨
      ∃ block lists' after, allocate region.alloc mem size = (block + headerSize, after) ∧
        Shape region (region.view after) lists' (⟨block, requiredOrder region.alloc size, size⟩ :: held) [] ∧
        ∀ other ≠ block, (region.view mem).tag other ≤ (region.view after).tag other := by
  have large : 5 ≤ requiredOrder region.alloc size := (requiredOrder_fits rfl bound).2
  simp only [allocate, region.allocator_list]
  cases found : findAvailable region.alloc mem (requiredOrder region.alloc size) with
  | none => exact .inl ⟨rfl, findAvailable_none shape found⟩
  | some j =>
    right
    obtain ⟨above, below, nonempty, empty⟩ := findAvailable_some shape found
    obtain ⟨block, rest, first⟩ := List.exists_cons_of_ne_nil nonempty
    obtain ⟨forward, popped, unmarked⟩ := pop_shape shape below first
    have others : ∀ i, requiredOrder region.alloc size ≤ i → i < j → update lists j rest i = [] := by
      intro i low high
      rw [update_of_ne (by omega)]
      exact empty i low high
    obtain ⟨lists', split, tags⟩ := splitBlock_shape popped large above below others
    have inHand : ⟨block.toNat, requiredOrder region.alloc size⟩ ∈ pieces region lists' held
        [⟨block.toNat, requiredOrder region.alloc size⟩] := List.mem_cons_self
    have site := split.site inHand rfl
    simp only [forward]
    refine ⟨block, lists', _, rfl, ?_⟩
    rw [view_setKval site, view_setTag site]
    refine ⟨(split.mark false _).hold ⟨update_self _ _ _, update_self _ _ _⟩ size, ?_⟩
    intro other differ
    rw [unmarked] at tags
    exact le_of_le_of_eq (tags other) (update_of_ne differ _ _).symm

theorem kval_toNat (small : k ≤ 47) : (BitVec.ofNat 8 k).toNat = k := by
  rw [toNat_ofNat]
  omega

theorem kval_injective (first : j ≤ 47) (second : k ≤ 47) (same : BitVec.ofNat 8 j = BitVec.ofNat 8 k) : j = k := by
  rw [← kval_toNat first, same, kval_toNat second]

theorem getBuddy_toNat (order : kval mem block = BitVec.ofNat 8 k) (small : k ≤ 47) :
    (getBuddy mem block).toNat = buddy block.toNat k := by
  rw [getBuddy, order, kval_toNat small, toNat_xor, shift_toNat small, buddy]

/-- At the address of the buddy stands a header, and it tells whether the buddy is available. -/
theorem buddy_header {block other : Addr} (shape : Shape region (region.view mem) lists held [⟨block.toNat, k⟩])
    (below : k < region.order) (place : other.toNat = buddy block.toNat k) :
    region.Site other ∧ (tag mem other = true ∧ kval mem other = BitVec.ofNat 8 k ↔ other ∈ lists k) := by
  obtain ⟨piece, member, begins, _⟩ := shape.tiles.buddy_begins region.aligned below
  have start : piece.start = other.toNat := by rw [begins, place]
  have site := shape.site (List.mem_cons_of_mem _ member) start
  refine ⟨site, ?_⟩
  rw [← (view_site site).1, ← (view_site site).2.2.2]
  have others : piece ∈ held.map Block.piece ++ freePieces region lists := member
  rcases List.mem_append.mp others with inHeld | inFree
  · obtain ⟨owned, inside, rfl⟩ := List.mem_map.mp inHeld
    obtain rfl : owned.start = other := eq_of_toNat_eq start
    have used := (shape.taken owned inside).1
    constructor
    · rintro ⟨available, _⟩
      rw [used] at available
      cases available
    · intro listed
      rw [(shape.marks k (by omega) _ listed).1] at used
      cases used
  · obtain ⟨j, inRange, inList⟩ := List.mem_flatMap.mp inFree
    obtain ⟨found, inside, rfl⟩ := List.mem_map.mp inList
    obtain rfl : found = other := eq_of_toNat_eq start
    have small : j ≤ region.order := Nat.le_of_lt_succ (List.mem_range.mp inRange)
    have high := region.high
    obtain ⟨available, order⟩ := shape.marks j small found inside
    constructor
    · rintro ⟨_, same⟩
      rw [order] at same
      rwa [← kval_injective (by omega) (by omega) same]
    · exact fun listed => shape.marks k (by omega) found listed

/-- The lower of two blocks, as the merging loop picks it. -/
theorem lower_buddy {block other joint : Addr} (jointly : (if other < block then other else block) = joint) :
    joint.toNat = min block.toNat other.toNat ∧ (joint = other ∨ joint = block) := by
  subst jointly
  split
  · rename_i less
    rw [lt_def] at less
    exact ⟨by omega, .inl rfl⟩
  · rename_i more
    rw [lt_def] at more
    exact ⟨by omega, .inr rfl⟩

/-- What the merging loop leaves of the headers, from a block of order `k` to the joint one. No tag
changes, and no order behind the block; a block that its left buddy absorbed keeps the order it had
then, and the buddy has a larger one. -/
structure Merged (before after : Heads) (block joint : Addr) (k top : Nat) : Prop where
  tags : after.tag = before.tag
  behind : ∀ other : Addr, block.toNat < other.toNat → after.kval other = before.kval other
  order : ∃ own, k ≤ own ∧ own ≤ top ∧ after.kval block = BitVec.ofNat 8 own ∧
    (joint ≠ block → ∃ (other : Addr) (higher : Nat), other.toNat = buddy block.toNat own ∧ own < higher ∧
      higher ≤ top ∧ after.kval other = BitVec.ofNat 8 higher)

/-- One turn of the merging loop that joins two buddies. -/
theorem mergeTurn_joins (shape : Shape region (region.view mem) lists held [⟨block.toNat, k⟩])
    (order : kval mem block = BitVec.ofNat 8 k) (below : k < region.order) (listed : getBuddy mem block ∈ lists k) :
    ∃ after joint lists', mergeTurn region.alloc (mem, block) = .again (after, joint) ∧
      Shape region (region.view after) lists' held [⟨joint.toNat, k + 1⟩] ∧
      kval after joint = BitVec.ofNat 8 (k + 1) ∧
      (joint = block ∨ joint.toNat < block.toNat ∧ joint.toNat = buddy block.toNat k) ∧
      (region.view after).tag = (region.view mem).tag ∧
      (region.view after).kval = update (region.view mem).kval joint (BitVec.ofNat 8 (k + 1)) := by
  have high := region.high
  have place := getBuddy_toNat order (by omega)
  obtain ⟨site, header⟩ := buddy_header shape below place
  obtain ⟨available, otherOrder⟩ := header.mpr listed
  obtain ⟨front, back, split⟩ := List.append_of_mem listed
  obtain ⟨view, taken⟩ := unlink_shape shape (Nat.le_of_lt below) split
  have goesOn : (kval mem block).toNat ≠ region.alloc.maxOrder ∧ tag mem (getBuddy mem block) = true ∧
      kval mem (getBuddy mem block) = kval mem block := by
    rw [order, kval_toNat (by omega), region.maxOrder]
    exact ⟨by omega, available, otherOrder⟩
  simp only [mergeTurn, if_pos goesOn]
  generalize getBuddy mem block = other at *
  generalize jointly : (if other < block then other else block) = joint
  obtain ⟨least, either⟩ := lower_buddy jointly
  rw [place] at least
  have joined := taken.swap
  rw [place] at joined
  replace joined := joined.join
  rw [← least] at joined
  have jointSite : region.Site joint := joined.site List.mem_cons_self rfl
  have jointOrder : kval (unlink mem other) joint = BitVec.ofNat 8 k := by
    rw [← (view_site jointSite).2.2.2, view]
    have blockSite : region.Site block := shape.site List.mem_cons_self rfl
    rcases either with rfl | rfl
    · exact (view_site jointSite).2.2.2.trans otherOrder
    · exact (view_site blockSite).2.2.2.trans order
  have nextOrder : BitVec.ofNat 8 k + 1 = BitVec.ofNat 8 (k + 1) := (ofNat_add k 1).symm
  rw [jointOrder, nextOrder]
  refine ⟨_, joint, update lists k (front ++ back), rfl, ?_, ?_, ?_, ?_⟩
  · rw [view_setKval jointSite]
    exact joined.markOrder _
  · rw [← (view_site jointSite).2.2.2, view_setKval jointSite]
    exact update_self _ _ _
  · rcases either with rfl | rfl
    · have differ := buddy_ne block.toNat k
      exact .inr ⟨by omega, place⟩
    · exact .inl rfl
  · rw [view_setKval jointSite, view]
    exact ⟨rfl, rfl⟩

/-- A turn that joins two buddies, before the rest of the loop. -/
theorem Merged.joins {before between after : Heads} {block next joint : Addr}
    (rest : Merged between after next joint (k + 1) top) (order : before.kval block = BitVec.ofNat 8 k)
    (either : next = block ∨ next.toNat < block.toNat ∧ next.toNat = buddy block.toNat k)
    (tags : between.tag = before.tag) (orders : between.kval = update before.kval next (BitVec.ofNat 8 (k + 1))) :
    Merged before after block joint k top := by
  have others : ∀ other : Addr, next.toNat < other.toNat → between.kval other = before.kval other := by
    intro other past
    have differ : other ≠ next := fun same => by simp [same] at past
    rw [orders, update_of_ne differ]
  obtain ⟨own, above, below, ownOrder, absorbed⟩ := rest.order
  refine ⟨rest.tags.trans tags, ?_, ?_⟩
  · intro other behind
    have past : next.toNat < other.toNat := by
      rcases either with rfl | ⟨left, _⟩ <;> omega
    exact (rest.behind other past).trans (others other past)
  · rcases either with rfl | ⟨left, place⟩
    · exact ⟨own, by omega, below, ownOrder, absorbed⟩
    · have kept := (rest.behind block left).trans (others block left)
      exact ⟨k, Nat.le_refl k, by omega, kept.trans order, fun _ => ⟨next, own, place, by omega, below, ownOrder⟩⟩

/-- The merging loop ends with a block whose buddy is not available. -/
theorem merge_shape (shape : Shape region (region.view mem) lists held [⟨block.toNat, k⟩])
    (order : kval mem block = BitVec.ofNat 8 k) (below : k ≤ region.order) (enough : region.order - k < turns) :
    ∃ after joint lists' top, iterate (mergeTurn region.alloc) turns (mem, block) = some (after, joint) ∧
      Shape region (region.view after) lists' held [⟨joint.toNat, top⟩] ∧ top ≤ region.order ∧
      kval after joint = BitVec.ofNat 8 top ∧
      (top < region.order → ∀ other ∈ lists' top, other.toNat ≠ buddy joint.toNat top) ∧
      Merged (region.view mem) (region.view after) block joint k top := by
  induction turns generalizing mem block lists k with
  | zero => omega
  | succ turns ih =>
    have site : region.Site block := shape.site List.mem_cons_self rfl
    have viewed := (view_site site).2.2.2.trans order
    by_cases listed : k < region.order ∧ getBuddy mem block ∈ lists k
    · obtain ⟨after, next, lists', turn, joined, nextOrder, either, tags, orders⟩ :=
        mergeTurn_joins shape order listed.1 listed.2
      rw [iterate_again turn]
      obtain ⟨last, joint, lists'', top, loop, whole, small, topOrder, lonely, rest⟩ :=
        ih joined nextOrder listed.1 (by omega)
      exact ⟨last, joint, lists'', top, loop, whole, small, topOrder, lonely, rest.joins viewed either tags orders⟩
    · have small : k ≤ 47 := Nat.le_trans below region.high
      have ends : mergeTurn region.alloc (mem, block) = .leave (mem, block) := by
        refine if_neg ?_
        rintro ⟨other, available, same⟩
        rw [order, kval_toNat small, region.maxOrder] at other
        rw [order] at same
        have less : k < region.order := by omega
        have header := (buddy_header shape less (getBuddy_toNat order small)).2
        exact listed ⟨less, header.mp ⟨available, same⟩⟩
      rw [iterate_leave ends (by omega)]
      refine ⟨mem, block, lists, k, rfl, shape, below, order, ?_, ?_⟩
      · intro less other member place
        rw [← getBuddy_toNat order small] at place
        exact listed ⟨less, eq_of_toNat_eq place ▸ member⟩
      · exact ⟨rfl, fun _ _ => rfl, k, Nat.le_refl k, Nat.le_refl k, viewed, fun other => absurd rfl other⟩

/-- The header at which the merging loop ends, from the one at `block` on. -/
def headerAfter (alloc : Allocator) (mem : Memory) (block : Addr) : Option Addr :=
  (iterate (mergeTurn alloc) maxTurns (mem, block)).map Prod.snd

/-- The block goes to the front of the list of its order. -/
theorem view_pushBlock (site : region.Site block) (below : k ≤ region.order)
    (order : kval mem block = BitVec.ofNat 8 k) (first : region.Site (linkf mem (region.list k))) :
    region.view (pushBlock region.alloc mem block) =
      pushHeads ((region.view mem).setTag block true) (region.list k) block := by
  have head := list_site below
  have small : k ≤ 47 := Nat.le_trans below region.high
  have list : ∀ after, (region.view after).kval = (region.view mem).kval →
      region.alloc.list (kval after block).toNat = region.list k := by
    intro after same
    rw [← (view_site site).2.2.2, same, (view_site site).2.2.2, order, kval_toNat small]
    rfl
  let tagged := setTag mem block true
  have taggedView : region.view tagged = (region.view mem).setTag block true := view_setTag site
  have forward : linkf tagged (region.list k) = linkf mem (region.list k) := by
    rw [← (view_site head).2.1, taggedView, ← (view_site head).2.1]
    rfl
  let second := setLinkb (setLinkf tagged block (linkf mem (region.list k))) (linkf mem (region.list k)) block
  have secondView : region.view second = ((region.view tagged).setLinkf block
      (linkf mem (region.list k))).setLinkb (linkf mem (region.list k)) block := by
    rw [view_setLinkb first, view_setLinkf site]
  let third := setLinkb second block (region.list k)
  have thirdView : region.view third = (region.view second).setLinkb block (region.list k) := view_setLinkb site
  have stored : pushBlock region.alloc mem block = setLinkf third (region.list k) block := by
    have firstList := list tagged (by rw [taggedView]; rfl)
    have secondList := list second (by rw [secondView, taggedView]; rfl)
    have thirdList := list third (by rw [thirdView, secondView, taggedView]; rfl)
    simp only [pushBlock]
    rw [firstList, forward, secondList, thirdList]
  rw [stored, view_setLinkf head, thirdView, secondView, taggedView, ← (view_site head).2.1]
  rfl

theorem first_site (shape : Shape region (region.view mem) lists held hand) (below : k ≤ region.order) :
    region.Site (linkf mem (region.list k)) := by
  refine shape.ring_site below ?_
  rw [← (view_site (list_site below)).2.1]
  exact (shape.rings k below).first_mem

theorem pushBlock_shape (shape : Shape region (region.view mem) lists held [⟨block.toNat, k⟩])
    (order : kval mem block = BitVec.ofNat 8 k) (below : k ≤ region.order)
    (lonely : k < region.order → ∀ other ∈ lists k, other.toNat ≠ buddy block.toNat k) :
    Shape region (region.view (pushBlock region.alloc mem block)) (update lists k (block :: lists k)) held [] ∧
      region.view (pushBlock region.alloc mem block) =
        pushHeads ((region.view mem).setTag block true) (region.list k) block := by
  have site : region.Site block := shape.site List.mem_cons_self rfl
  have marked := (shape.mark true (kval mem block)).put below
    ⟨update_self _ _ _, (update_self _ _ _).trans order⟩ lonely
  have same : markHeads (region.view mem) block true (kval mem block) = (region.view mem).setTag block true := by
    simp only [markHeads, Heads.setTag, Heads.setKval, update_view_kval site]
  rw [same] at marked
  have view := view_pushBlock site below order (first_site shape below)
  exact ⟨view ▸ marked, view⟩

/-- The range check of `deallocate` lets a header of the region pass. -/
theorem header_passes (low : region.base.toNat ≤ block.toNat)
    (high : block.toNat < region.base.toNat + 2 ^ region.order)
    (ends : region.base.toNat + 2 ^ region.order < 2 ^ 64) :
    (block < region.alloc.base || region.alloc.base + region.alloc.size < block) = false := by
  have last : (region.base + region.alloc.size).toNat = region.base.toNat + 2 ^ region.order := by
    rw [toNat_add, region.size, Nat.mod_eq_of_lt ends]
  simp only [Bool.or_eq_false_iff, decide_eq_false_iff_not, lt_def]
  change ¬ block.toNat < region.base.toNat ∧ ¬ (region.base + region.alloc.size).toNat < block.toNat
  omega

/-- `deallocate` takes back a block handed out, unless the end of the region wraps around: the
merging loop ends at the header `joint`, and this header gets the tag. -/
theorem deallocate_shape (shape : Shape region (region.view mem) lists held []) (split : held.Perm (block :: rest))
    (ends : region.base.toNat + 2 ^ region.order < 2 ^ 64) :
    ∃ after lists', deallocate region.alloc mem (block.start + headerSize) = some after ∧
      Shape region (region.view after) lists' rest [] ∧
      ∃ joint top, headerAfter region.alloc mem block.start = some joint ∧ top ≤ region.order ∧
        joint ∈ lists' top ∧
        Merged ((region.view mem).setTag joint true) (region.view after) block.start joint block.order top := by
  have owned : block ∈ held := split.mem_iff.mpr List.mem_cons_self
  have site : region.Site block.start := shape.site (held_mem owned) rfl
  obtain ⟨used, order⟩ := shape.taken block owned
  rw [(view_site site).1] at used
  rw [(view_site site).2.2.2] at order
  have start : block.start + headerSize - headerSize = block.start := BitVec.add_sub_cancel _ _
  obtain ⟨low, high⟩ := shape.tiles.inside _ (held_mem owned)
  have pos := Nat.two_pow_pos block.order
  simp only [Block.piece] at low high
  have back := shape.takeBack split
  have below := shape.order_le owned
  have turns : region.order - block.order < maxTurns := by
    have bound := region.high
    have many : 47 < maxTurns := by decide
    omega
  obtain ⟨merged, joint, lists', top, loop, joined, small, topOrder, lonely, rest⟩ :=
    merge_shape back order below turns
  obtain ⟨put, view⟩ := pushBlock_shape joined topOrder small lonely
  refine ⟨_, _, ?_, put, joint, top, ?_, small, by simp, ?_⟩
  · simp only [deallocate, start]
    rw [header_passes low (by omega) ends, used, loop]
    rfl
  · rw [headerAfter, loop]
    rfl
  · have tags : update (region.view merged).tag joint true =
        update (region.view mem).tag joint true := by rw [rest.tags]
    rw [view]
    exact ⟨tags, rest.behind, rest.order⟩

/-! ## The constructor -/

/-- The list of an order is empty. -/
def Reset (region : Region) (mem : Memory) (k : Nat) : Prop :=
  (region.view mem).linkf (region.list k) = region.list k ∧ (region.view mem).linkb (region.list k) = region.list k

theorem resetList_view (below : k ≤ region.order) : region.view (resetList region.alloc mem k) =
      ((region.view mem).setLinkb (region.list k) (region.list k)).setLinkf (region.list k) (region.list k) := by
  simp only [resetList, region.allocator_list]
  rw [view_setLinkf (list_site below), view_setLinkb (list_site below)]

theorem resetList_reset (below : k ≤ region.order) (reset : j = k ∨ Reset region mem j) :
    Reset region (resetList region.alloc mem k) j := by
  unfold Reset
  rw [resetList_view below]
  by_cases same : region.list j = region.list k
  · rw [same]
    exact ⟨update_self _ _ _, update_self _ _ _⟩
  · rcases reset with rfl | ⟨forward, backward⟩
    · exact absurd rfl same
    · exact ⟨(update_of_ne same _ _).trans forward, (update_of_ne same _ _).trans backward⟩

/-- The loop over the lists empties each of them. -/
theorem resetLists_reset {orders : List Nat} (below : ∀ k ∈ orders, k ≤ region.order)
    (member : k ∈ orders ∨ Reset region mem k) : Reset region (orders.foldl (resetList region.alloc) mem) k := by
  induction orders generalizing mem with
  | nil => simpa using member
  | cons first rest ih =>
    refine ih (fun j later => below j (List.mem_cons_of_mem _ later)) ?_
    have small := below first List.mem_cons_self
    rcases member with member | reset
    · rcases List.mem_cons.mp member with rfl | later
      · exact .inr (resetList_reset small (.inl rfl))
      · exact .inl later
    · exact .inr (resetList_reset small (.inr reset))

theorem pieces_reset {hand : List Piece} : pieces region (fun _ => []) [] hand = hand := by
  simp [pieces, freePieces]

/-- Before the constructor puts it on a list, the whole region is in hand. -/
theorem reset_shape (reset : ∀ k ≤ region.order, Reset region mem k) :
    Shape region (region.view mem) (fun _ => []) [] [⟨region.base.toNat, region.order⟩] where
  rings k below := ⟨reset k below, by simp⟩
  marks _ _ _ member := absurd member List.not_mem_nil
  taken _ member := absurd member List.not_mem_nil
  tiles := by
    simp only [pieces_reset]
    exact tiles_whole region.aligned
  large piece member := by
    simp only [pieces_reset] at member
    obtain rfl : piece = ⟨region.base.toNat, region.order⟩ := by simpa using member
    exact region.low
  merged _ _ _ member := absurd member List.not_mem_nil

/-- After the constructor the whole region is one available block. -/
theorem initLists_shape (mem : Memory) : Shape region (region.view (initLists region.alloc mem))
      (update (fun _ => []) region.order [region.base]) [] [] := by
  let cleared := (List.range (region.order + 1)).foldl (resetList region.alloc) mem
  have reset : ∀ k ≤ region.order, Reset region cleared k := by
    intro k below
    refine resetLists_reset ?_ (.inl (List.mem_range.mpr (by omega)))
    intro j member
    exact Nat.le_of_lt_succ (List.mem_range.mp member)
  have shape := reset_shape reset
  have inHand : ⟨region.base.toNat, region.order⟩ ∈ pieces region (fun _ => []) []
      [⟨region.base.toNat, region.order⟩] := List.mem_cons_self
  have site := shape.site inHand rfl
  have head : region.Site (region.list region.order) := list_site (Nat.le_refl _)
  have other := shape.not_list inHand rfl (Nat.le_refl region.order)
  have first : (markHeads (region.view cleared) region.base true (BitVec.ofNat 8 region.order)).linkf
      (region.list region.order) = region.list region.order := (reset region.order (Nat.le_refl _)).1
  have view : region.view (initLists region.alloc mem) =
      pushHeads (markHeads (region.view cleared) region.base true (BitVec.ofNat 8 region.order))
        (region.list region.order) region.base := by
    simp only [initLists, region.maxOrder, region.allocator_list]
    rw [show region.alloc.base = region.base from rfl, view_setKval site, view_setTag site, view_setLinkf site,
      view_setLinkb head, view_setLinkb site, view_setLinkf head, pushHeads, first]
    simp only [Heads.setLinkf, Heads.setLinkb, Heads.setTag, Heads.setKval, markHeads,
      update_comm other.symm, cleared]
  rw [view]
  exact (shape.mark true _).put (Nat.le_refl _) ⟨update_self _ _ _, update_self _ _ _⟩ (by simp)

end Moves

end LunaOS.BuddyCalls
