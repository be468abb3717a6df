import LunaOS.BuddyAllocator
import LunaOS.DyadicTiling

/-! The headers of the buddy allocator. They stand on the list heads and at
multiples of 32 of the region, where no two of them share a byte; seen as four maps on
these addresses, each store of the allocator changes one map at one place. -/
namespace LunaOS.BuddyHeaders
open Function ByteMemory BuddyAllocator DyadicTiling BitVec

/-! ## The region -/

/-- A region of 2ⁿ bytes at a multiple of its size, and an allocator apart from it. -/
structure Region where
  avail : Addr
  base : Addr
  order : Nat
  low : 5 ≤ order
  high : order ≤ 47
  aligned : 2 ^ order ∣ base.toNat
  object : avail.toNat + 888 ≤ 2 ^ 64
  apart : avail.toNat + 888 ≤ base.toNat ∨ base.toNat + 2 ^ order ≤ avail.toNat

section Sites
variable (region : Region)

/-- The allocator built on the region with `minBlockSize` 1. -/
def Region.alloc : Allocator := construct region.avail region.base (BitVec.ofNat 64 (2 ^ region.order)) 1

def Region.list (order : Nat) : Addr := region.alloc.list order

theorem Region.allocator_list (order : Nat) : region.alloc.list order = region.list order := rfl

/-- Where a header may stand: on a list head, or at a multiple of 32 of the region. -/
def Region.Site (address : Addr) : Prop :=
  (∃ order ≤ 47, address = region.list order) ∨ 32 ∣ address.toNat ∧ region.base.toNat ≤ address.toNat ∧
      address.toNat + 32 ≤ region.base.toNat + 2 ^ region.order

theorem Region.size_lt : 2 ^ region.order < 2 ^ 64 :=
  Nat.pow_lt_pow_right (by decide) (by have := region.high; omega)

theorem Region.maxOrder : region.alloc.maxOrder = region.order := by
  refine findOrder_pow ?_ (by have := region.high; omega)
  rw [toNat_ofNat, Nat.mod_eq_of_lt region.size_lt]

theorem Region.size : region.alloc.size.toNat = 2 ^ region.order := by
  refine align_pow ?_ (by have := region.high; omega)
  rw [toNat_ofNat, Nat.mod_eq_of_lt region.size_lt]

/-- The region ends where the addresses do, or before. -/
theorem Region.ends : region.base.toNat + 2 ^ region.order ≤ 2 ^ 64 := by
  have power : 2 ^ region.order ∣ 2 ^ 64 := Nat.pow_dvd_pow 2 (by have := region.high; omega)
  exact step_le region.aligned power region.base.isLt

theorem Region.list_toNat (small : k ≤ 47) : (region.list k).toNat = region.avail.toNat + 18 * k := by
  have object := region.object
  have product : (BitVec.ofNat 64 k * headerSize).toNat = 18 * k := by
    rw [toNat_mul, toNat_ofNat, show headerSize.toNat = 18 from rfl]
    omega
  have sum : (region.list k).toNat = (region.avail.toNat + (BitVec.ofNat 64 k * headerSize).toNat) % 2 ^ 64 :=
    toNat_add _ _
  omega

theorem Region.list_injective (first : j ≤ 47) (second : k ≤ 47) (same : region.list j = region.list k) : j = k := by
  have equal := congrArg BitVec.toNat same
  rw [region.list_toNat first, region.list_toNat second] at equal
  omega

theorem Region.site_cases (site : region.Site address) : (∃ k ≤ 47, address.toNat = region.avail.toNat + 18 * k) ∨
      32 ∣ address.toNat ∧ region.base.toNat ≤ address.toNat ∧
        address.toNat + 32 ≤ region.base.toNat + 2 ^ region.order := by
  rcases site with ⟨k, small, rfl⟩ | inside
  · exact .inl ⟨k, small, region.list_toNat small⟩
  · exact .inr inside

theorem Region.site_room (site : region.Site address) : address.toNat + 18 ≤ 2 ^ 64 := by
  have object := region.object
  rcases region.site_cases site with ⟨k, small, place⟩ | ⟨_, _, high⟩ <;> omega

/-- Headers at different sites share no byte. -/
theorem Region.sites_apart (first : region.Site address) (second : region.Site other) (differ : address ≠ other) :
    Apart address 18 other 18 := by
  have separate : address.toNat + 18 ≤ other.toNat ∨ other.toNat + 18 ≤ address.toNat := by
    have distinct : address.toNat ≠ other.toNat := fun same => differ (eq_of_toNat_eq same)
    have outside := region.apart
    rcases region.site_cases first with ⟨j, small, place⟩ | ⟨unit, low, high⟩ <;>
      rcases region.site_cases second with ⟨k, small', place'⟩ | ⟨unit', low', high'⟩ <;> omega
  rcases separate with below | above
  · exact apart_of_le_left below (region.site_room second)
  · exact apart_of_le_right above (region.site_room first)

end Sites

/-! ## Headers -/

/-- The headers, field by field. -/
structure Heads where
  tag : Addr → Bool
  linkf : Addr → Addr
  linkb : Addr → Addr
  kval : Addr → BitVec 8

def Heads.setTag (heads : Heads) (block : Addr) (tag : Bool) : Heads :=
  ⟨Function.update heads.tag block tag, heads.linkf, heads.linkb, heads.kval⟩
def Heads.setLinkf (heads : Heads) (block link : Addr) : Heads :=
  ⟨heads.tag, Function.update heads.linkf block link, heads.linkb, heads.kval⟩
def Heads.setLinkb (heads : Heads) (block link : Addr) : Heads :=
  ⟨heads.tag, heads.linkf, Function.update heads.linkb block link, heads.kval⟩
def Heads.setKval (heads : Heads) (block : Addr) (order : BitVec 8) : Heads :=
  ⟨heads.tag, heads.linkf, heads.linkb, Function.update heads.kval block order⟩

section Views
variable {region : Region}

/-- The fields of one header. -/
def header (mem : Memory) (address : Addr) : Bool × Addr × Addr × BitVec 8 :=
  (tag mem address, linkf mem address, linkb mem address, kval mem address)

open Classical in
/-- The headers at the sites, as the memory has them. -/
noncomputable def Region.view (region : Region) (mem : Memory) : Heads where
  tag address := if region.Site address then tag mem address else false
  linkf address := if region.Site address then linkf mem address else 0
  linkb address := if region.Site address then linkb mem address else 0
  kval address := if region.Site address then kval mem address else 0

theorem view_site (site : region.Site address) :
    (region.view mem).tag address = tag mem address ∧ (region.view mem).linkf address = linkf mem address ∧
      (region.view mem).linkb address = linkb mem address ∧ (region.view mem).kval address = kval mem address :=
  ⟨if_pos site, if_pos site, if_pos site, if_pos site⟩

/-- A write leaves the headers apart from it alone. -/
theorem header_write (away : Apart address 18 target count) :
    header (write mem target count bytes) address = header mem address := by
  have first := away 0 (by decide)
  rw [show address + BitVec.ofNat 64 0 = address from BitVec.add_zero _] at first
  simp only [header, tag, linkf, linkb, kval, Prod.mk.injEq]
  refine ⟨?_, load64_write (away.sub_block 1 (by decide)), load64_write (away.sub_block 9 (by decide)),
    write_of_le (away 17 (by decide))⟩
  rw [write_of_le first]

/-- The view after a change to one header. -/
theorem view_change {mem after : Memory} (site : region.Site block)
    (others : ∀ address, Apart address 18 block 18 → header after address = header mem address) :
    region.view after = {
      tag := update (region.view mem).tag block (tag after block)
      linkf := update (region.view mem).linkf block (linkf after block)
      linkb := update (region.view mem).linkb block (linkb after block)
      kval := update (region.view mem).kval block (kval after block) } := by
  have same : ∀ address, region.Site address → address ≠ block → header after address = header mem address :=
    fun address here differ => others address (region.sites_apart here site differ)
  simp only [header, Prod.mk.injEq] at same
  simp only [Region.view, Heads.mk.injEq]
  refine ⟨?_, ?_, ?_, ?_⟩ <;> funext address <;> by_cases equal : address = block <;>
    by_cases here : region.Site address <;> simp_all [update_of_ne]

/-- Fields at different places of one header share no byte. -/
theorem fields_apart (block : Addr) (separate : first + width ≤ second ∨ second + count ≤ first)
    (fits : first + width ≤ 18) (fits' : second + count ≤ 18) :
    Apart (block + BitVec.ofNat 64 first) width (block + BitVec.ofNat 64 second) count := by
  intro offset inside
  have distance : block + BitVec.ofNat 64 first + BitVec.ofNat 64 offset - (block + BitVec.ofNat 64 second) =
      BitVec.ofNat 64 (first + offset) - BitVec.ofNat 64 second := by
    rw [ofNat_add]
    generalize BitVec.ofNat 64 first = x
    generalize BitVec.ofNat 64 offset = y
    bv_omega
  rw [distance, toNat_sub, toNat_ofNat, toNat_ofNat]
  omega

section Fields
variable {mem : Memory} {block : Addr} {shift count : Nat} {bytes : Nat → Byte}

theorem tag_write (behind : 1 ≤ shift) (fits : shift + count ≤ 18) :
    tag (write mem (block + BitVec.ofNat 64 shift) count bytes) block = tag mem block := by
  have apart := fields_apart block (.inl (by omega) : 0 + 1 ≤ shift ∨ shift + count ≤ 0) (by decide) fits 0 (by decide)
  simp only [BitVec.add_zero] at apart
  rw [tag, write_of_le apart, tag]

theorem linkf_write (separate : shift + count ≤ 1 ∨ 9 ≤ shift) (fits : shift + count ≤ 18) :
    linkf (write mem (block + BitVec.ofNat 64 shift) count bytes) block = linkf mem block :=
  load64_write (fields_apart block (separate.symm.imp_right id) (by decide) fits)

theorem linkb_write (separate : shift + count ≤ 9 ∨ 17 ≤ shift) (fits : shift + count ≤ 18) :
    linkb (write mem (block + BitVec.ofNat 64 shift) count bytes) block = linkb mem block :=
  load64_write (fields_apart block (separate.symm.imp_right id) (by decide) fits)

theorem kval_write (before : shift + count ≤ 17) :
    kval (write mem (block + BitVec.ofNat 64 shift) count bytes) block = kval mem block := by
  have apart := fields_apart block (.inr before : 17 + 1 ≤ shift ∨ _) (by decide) (by omega) 0 (by decide)
  simp only [BitVec.add_zero] at apart
  exact write_of_le apart

end Fields

section Stores
variable (site : region.Site block)
include site

/-- A write inside one header, by what it makes of the fields. -/
theorem view_write {bytes : Nat → Byte} (fits : shift + count ≤ 18) :
    region.view (write mem (block + BitVec.ofNat 64 shift) count bytes) = {
      tag := update (region.view mem).tag block
        (tag (write mem (block + BitVec.ofNat 64 shift) count bytes) block)
      linkf := update (region.view mem).linkf block
        (linkf (write mem (block + BitVec.ofNat 64 shift) count bytes) block)
      linkb := update (region.view mem).linkb block
        (linkb (write mem (block + BitVec.ofNat 64 shift) count bytes) block)
      kval := update (region.view mem).kval block
        (kval (write mem (block + BitVec.ofNat 64 shift) count bytes) block) } :=
  view_change site fun _ apart => header_write (apart.within shift fits)

theorem update_view_tag : update (region.view mem).tag block (tag mem block) = (region.view mem).tag := by
  rw [← (view_site site).1, update_eq_self]

theorem update_view_linkf : update (region.view mem).linkf block (linkf mem block) = (region.view mem).linkf := by
  rw [← (view_site site).2.1, update_eq_self]

theorem update_view_linkb : update (region.view mem).linkb block (linkb mem block) = (region.view mem).linkb := by
  rw [← (view_site site).2.2.1, update_eq_self]

theorem update_view_kval : update (region.view mem).kval block (kval mem block) = (region.view mem).kval := by
  rw [← (view_site site).2.2.2, update_eq_self]

theorem view_setTag : region.view (setTag mem block value) = (region.view mem).setTag block value := by
  have shape : setTag mem block value =
      write mem (block + BitVec.ofNat 64 0) 1 fun _ => mem block &&& 0xfe ||| if value then 1 else 0 := by
    rw [BitVec.add_zero]
    rfl
  have stored : tag (setTag mem block value) block = value := by
    rw [shape, tag, write_of_lt (by rw [BitVec.add_zero, BitVec.sub_self]; decide)]
    cases value <;> simp
  rw [shape, view_write site (by decide), ← shape, stored, shape, linkf_write (by decide) (by decide),
    linkb_write (by decide) (by decide), kval_write (by decide), update_view_linkf site, update_view_linkb site,
    update_view_kval site]
  rfl

theorem view_setLinkf : region.view (setLinkf mem block link) = (region.view mem).setLinkf block link := by
  have shape : setLinkf mem block link =
      write mem (block + BitVec.ofNat 64 1) 8 fun index => link.extractLsb' (8 * index) 8 := rfl
  have stored : linkf (setLinkf mem block link) block = link := load64_store64 mem (block + 1) link
  rw [shape, view_write site (by decide), ← shape, stored, shape, tag_write (by decide) (by decide),
    linkb_write (by decide) (by decide), kval_write (by decide), update_view_tag site, update_view_linkb site,
    update_view_kval site]
  rfl

theorem view_setLinkb : region.view (setLinkb mem block link) = (region.view mem).setLinkb block link := by
  have shape : setLinkb mem block link =
      write mem (block + BitVec.ofNat 64 9) 8 fun index => link.extractLsb' (8 * index) 8 := rfl
  have stored : linkb (setLinkb mem block link) block = link := load64_store64 mem (block + 9) link
  rw [shape, view_write site (by decide), ← shape, stored, shape, tag_write (by decide) (by decide),
    linkf_write (by decide) (by decide), kval_write (by decide), update_view_tag site, update_view_linkf site,
    update_view_kval site]
  rfl

theorem view_setKval : region.view (setKval mem block value) = (region.view mem).setKval block value := by
  have shape : setKval mem block value = write mem (block + BitVec.ofNat 64 17) 1 fun _ => value := rfl
  have stored : kval (setKval mem block value) block = value := by
    rw [shape, kval]
    exact write_of_lt (by rw [show block + 17 - (block + BitVec.ofNat 64 17) = 0 from BitVec.sub_self _]; decide)
  rw [shape, view_write site (by decide), ← shape, stored, shape, tag_write (by decide) (by decide),
    linkf_write (by decide) (by decide), linkb_write (by decide) (by decide), update_view_tag site,
    update_view_linkf site, update_view_linkb site]
  rfl

end Stores

end Views

end LunaOS.BuddyHeaders
