import Eecs482.PagerNames
import Mathlib.Data.Set.BooleanAlgebra
import Mathlib.Order.CompletePartialOrder

/-!
# The addresses and offsets the pager computes

A page number is the distance of an address from the arena base, shifted and
kept to 32 bits; the place of a frame in physical memory is a product kept to 32
bits.  Both are exact on a part of their range only: addresses `2 ^ 48` bytes
apart have the same page number, and frames `2 ^ 16` apart the same place.
-/

namespace Eecs482
namespace Pager

variable {W : Type}

/-! ## Page numbers -/

/-- `addr` lies in one of the first `cnt` pages of the arena. -/
def InArena (cnt : ℕ) (addr : UInt64) : Prop :=
  vmArenaBaseaddr.toNat ≤ addr.toNat ∧
    addr.toNat < vmArenaBaseaddr.toNat + cnt * vmPagesize

/-- `addr` lies a nonzero multiple of `2 ^ 48` bytes above an address of the
first `cnt` pages. -/
def AboveArena (cnt : ℕ) (addr : UInt64) : Prop :=
  ∃ multiple, 0 < multiple ∧
    vmArenaBaseaddr.toNat + multiple * 2 ^ 48 ≤ addr.toNat ∧
    addr.toNat < vmArenaBaseaddr.toNat + multiple * 2 ^ 48 + cnt * vmPagesize

/-- The test `vpn < cnt` finds the valid addresses, and splits them. -/
structure ExactAddress (cnt : ℕ) (addr : UInt64) : Prop where
  valid : (vpn addr).toNat < cnt ↔ InArena cnt addr
  split : (vpn addr).toNat < cnt →
    addr.toNat = vmArenaBaseaddr.toNat + (vpn addr).toNat * vmPagesize +
      (pageOffset addr).toNat ∧
    (pageOffset addr).toNat < vmPagesize

theorem distance_toNat (addr : UInt64) :
    (addr - vmArenaBaseaddr).toNat =
      (2 ^ 64 - vmArenaBaseaddr.toNat + addr.toNat) % 2 ^ 64 :=
  UInt64.toNat_sub _ _

theorem split_of_inArena
    {cnt : ℕ} {addr : UInt64} (hcnt : cnt ≤ maxPageNum) (hin : InArena cnt addr) :
    addr.toNat = vmArenaBaseaddr.toNat + (vpn addr).toNat * vmPagesize +
      (pageOffset addr).toNat := by
  have hbase : vmArenaBaseaddr.toNat = 0x600000000 := by decide
  have haddr := addr.toNat_lt
  rw [InArena, hbase] at hin
  rw [vpn_toNat, pageOffset_toNat, distance_toNat, hbase]
  unfold vmPagesize at *
  change cnt ≤ 256 at hcnt
  omega

/-- The pages with a number below `cnt` are those of the arena and their images
above it. -/
theorem vpn_lt_iff
    {cnt : ℕ} {addr : UInt64} (hcnt : cnt ≤ maxPageNum) :
    (vpn addr).toNat < cnt ↔ InArena cnt addr ∨ AboveArena cnt addr := by
  have hbase : vmArenaBaseaddr.toNat = 0x600000000 := by decide
  have haddr := addr.toNat_lt
  change cnt ≤ 256 at hcnt
  rw [vpn_toNat, distance_toNat, InArena, AboveArena, hbase]
  unfold vmPagesize
  constructor
  · intro hvpn
    set distance := (2 ^ 64 - 0x600000000 + addr.toNat) % 2 ^ 64 with hdistance
    by_cases hlow : distance < 2 ^ 48
    · left
      omega
    · right
      refine ⟨distance / 2 ^ 48, ?_, ?_, ?_⟩
      · omega
      · omega
      · omega
  · rintro (⟨hle, hlt⟩ | ⟨multiple, hpos, hle, hlt⟩)
    · omega
    · omega

theorem not_inArena_of_aboveArena
    {cnt : ℕ} {addr : UInt64} (hcnt : cnt ≤ maxPageNum)
    (habove : AboveArena cnt addr) : ¬InArena cnt addr := by
  obtain ⟨multiple, hpos, hle, -⟩ := habove
  intro hin
  have hlt := hin.2
  unfold vmPagesize at hlt
  change cnt ≤ 256 at hcnt
  omega

/-- The page number is exact except `2 ^ 48` bytes and more above the arena. -/
theorem exactAddress_iff
    {cnt : ℕ} (addr : UInt64) (hcnt : cnt ≤ maxPageNum) :
    ExactAddress cnt addr ↔ ¬AboveArena cnt addr := by
  constructor
  · intro hexact habove
    have hvpn := (vpn_lt_iff hcnt).mpr (.inr habove)
    exact not_inArena_of_aboveArena hcnt habove (hexact.valid.mp hvpn)
  · intro habove
    have hvalid : (vpn addr).toNat < cnt ↔ InArena cnt addr := by
      rw [vpn_lt_iff hcnt]
      exact or_iff_left habove
    exact
      { valid := hvalid
        split := fun hvpn =>
          ⟨split_of_inArena hcnt (hvalid.mp hvpn), pageOffset_lt addr⟩ }

theorem exactAddress_below_base : ExactAddress maxPageNum 0x5ffffffff :=
  (exactAddress_iff 0x5ffffffff le_rfl).mpr fun ⟨multiple, hpos, hle, _⟩ => by
    have hbase : vmArenaBaseaddr.toNat = 0x600000000 := by decide
    have haddr : (0x5ffffffff : UInt64).toNat = 0x5ffffffff := by decide
    omega

/-- One valid page, and an address `2 ^ 48` bytes above it. -/
theorem not_exactAddress :
    (vpn 0x1000600000000).toNat < 1 ∧ ¬ExactAddress 1 0x1000600000000 := by
  have hvpn : (vpn 0x1000600000000).toNat < 1 := by decide
  refine ⟨hvpn, fun hexact => ?_⟩
  have hlt := (hexact.valid.mp hvpn).2
  exact absurd hlt (by decide)

/-! ## Frames in physical memory -/

/-- The bytes of `vm_physmem` the pager takes for those of frame `ppage`. -/
def frameBytes (ppage : ℕ) : Set ℕ :=
  Set.Ico (frameStart ppage) (frameStart ppage + vmPagesize)

/-- With `memoryPages` frames every place computed for a frame is its own: a
load or a copy changes no other frame, the zero page included, an eviction
writes back the bytes of the victim, and the name is read from the frame of its
page. -/
structure ExactFrames (io : FileIo W) (memoryPages : ℕ) : Prop where
  exact : ∀ ppage < memoryPages, frameStart ppage = ppage * vmPagesize
  disjoint : ∀ p < memoryPages, ∀ q < memoryPages, p ≠ q →
    Disjoint (frameBytes p) (frameBytes q)
  load : ∀ p < memoryPages, ∀ q < memoryPages, q ≠ p → ∀ page s,
    (State.readInto io page p s).2.frame q = s.frame q
  copy : ∀ p < memoryPages, ∀ q < memoryPages, q ≠ p →
    ∀ page, ∀ s : State W, (s.copyInto page p).frame q = s.frame q
  copied : ∀ p < memoryPages, ∀ page, ∀ s : State W,
    (s.entries page.entry).ppage < memoryPages →
    (s.copyInto page p).frame p = s.frame (s.entries page.entry).ppage
  evict : ∀ ppage < memoryPages, ∀ rest, ∀ s : State W,
    (s.evict io ppage rest).world =
      if (s.physicalTable ppage).dirty then
        (io.write (s.physicalTable ppage).id.key (s.frame ppage) s.world).2
      else s.world
  name : ∀ ppage < memoryPages, ∀ offset < vmPagesize,
    (frameStart ppage + offset) % 2 ^ 32 = frameByte ppage offset

theorem disjoint_frameBytes
    {p q : ℕ} (hp : p < 2 ^ 16) (hq : q < 2 ^ 16) (hne : p ≠ q) :
    Disjoint (frameBytes p) (frameBytes q) := by
  rw [Set.disjoint_left]
  intro i hin hin'
  rw [frameBytes, frameStart_of_lt hp, Set.mem_Ico] at hin
  rw [frameBytes, frameStart_of_lt hq, Set.mem_Ico] at hin'
  unfold vmPagesize at hin hin'
  omega

theorem nameByte_of_lt
    {ppage offset : ℕ} (hppage : ppage < 2 ^ 16) (hoffset : offset < vmPagesize) :
    (frameStart ppage + offset) % 2 ^ 32 = frameByte ppage offset := by
  rw [frameStart_of_lt hppage, frameByte]
  unfold vmPagesize at *
  omega

theorem frame_copyInto_self
    {s : State W} {page : VirtualPage} {ppage : ℕ} (hppage : ppage < 2 ^ 16)
    (hsource : (s.entries page.entry).ppage < 2 ^ 16) :
    (s.copyInto page ppage).frame ppage = s.frame (s.entries page.entry).ppage := by
  unfold State.copyInto State.frame
  rw [frameStart_of_lt hppage, frameStart_of_lt hsource]
  exact loadPage_storePage _ _ _

/-- The products do not wrap, and frames stay apart, up to `2 ^ 16` frames. -/
theorem exactFrames_iff (io : FileIo W) (memoryPages : ℕ) :
    ExactFrames io memoryPages ↔ memoryPages ≤ 2 ^ 16 := by
  constructor
  · intro hexact
    by_contra hmemory
    have hstart := hexact.exact (2 ^ 16) (by omega)
    exact absurd hstart (by decide)
  · intro hmemory
    have hlt : ∀ {ppage}, ppage < memoryPages → ppage < 2 ^ 16 :=
      fun hppage => hppage.trans_le hmemory
    refine ⟨?exact, ?disjoint, ?load, ?copy, ?copied, ?evict, ?name⟩
    case exact =>
      intro ppage hppage
      exact frameStart_of_lt (hlt hppage)
    case disjoint =>
      intro p hp q hq hne
      exact disjoint_frameBytes (hlt hp) (hlt hq) hne
    case load =>
      intro p hp q _ hne page s
      unfold State.readInto State.frame
      rw [frameStart_of_lt (hlt hp)]
      exact loadPage_storePage_of_ne hne
    case copy =>
      intro p hp q _ hne page s
      unfold State.copyInto State.frame
      rw [frameStart_of_lt (hlt hp)]
      exact loadPage_storePage_of_ne hne
    case copied =>
      intro p hp page s hsource
      exact frame_copyInto_self (hlt hp) (hlt hsource)
    case evict =>
      intro ppage hppage rest s
      unfold State.evict State.frame
      rw [frameStart_of_lt (hlt hppage)]
    case name =>
      intro ppage hppage offset hoffset
      exact nameByte_of_lt (hlt hppage) hoffset

/-- Frame `2 ^ 16` is taken to be the zero page. -/
theorem not_exactFrames :
    frameStart (2 ^ 16) = frameStart 0 ∧ ¬ExactFrames blockFiles (2 ^ 16 + 1) := by
  refine ⟨by decide, fun hexact => ?_⟩
  have hstart := hexact.exact (2 ^ 16) (by omega)
  exact absurd hstart (by decide)

end Pager
end Eecs482
