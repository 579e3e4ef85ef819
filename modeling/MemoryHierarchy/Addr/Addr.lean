import MemoryHierarchy.Lib.Bits

/-!
# Virtual and physical addresses

The address types of `addr.h` and the packing functions of `addr_mng.c`. Every bit-field is
a bit vector of its declared width, so a field can never hold a value the C struct could not.

The page number packs the four directory entries into 36 bits; the packing is injective
(`virtAddrToVirtualPageNumber_inj`), which is what lets every TLB use it as a tag. Null-pointer
guards (`M_REQUIRE_NON_NULL`) are excluded by the types throughout.
-/

namespace MemoryHierarchy

open Lib

/-- `error_code` of `error.h`. -/
inductive ErrorCode
  | errNone
  | errMem
  | errIo
  | errBadParameter
  | errEof
  | errAddr
  | errSize
  | errPolicy
  deriving DecidableEq, Repr

/-- The enumerator's value, as C sees it when an error code is returned from a function
whose result type is an integer. -/
def ErrorCode.code : ErrorCode → ℕ
  | errNone => 0
  | errMem => 1
  | errIo => 2
  | errBadParameter => 3
  | errEof => 4
  | errAddr => 5
  | errSize => 6
  | errPolicy => 7

/-- `word_t`. -/
abbrev Word := BitVec 32

/-- `byte_t`. -/
abbrev Byte := BitVec 8

/-- `mem_space`, read as the array of 32-bit words every user of it casts it to: the word
with index `i` is the bytes `4 * i, …, 4 * i + 3`. Reads and writes are taken to be inside
the array, so it is total. -/
abbrev Mem := ℕ → Word

/-- `virt_addr_t`. -/
structure VirtAddr where
  reserved : BitVec 16
  pgdEntry : BitVec 9
  pudEntry : BitVec 9
  pmdEntry : BitVec 9
  pteEntry : BitVec 9
  pageOffset : BitVec 12
  deriving DecidableEq

/-- `phy_addr_t`. -/
structure PhyAddr where
  phyPageNum : BitVec 20
  pageOffset : BitVec 12
  deriving DecidableEq

/-! ### Masks -/

/-- `mask32`: the 32-bit mask with `size` ones. -/
def mask32 (size : ℕ) : BitVec 32 :=
  if size = 32 then ~~~0 else (1 <<< size) - 1

/-- `mask64`: the 64-bit mask with `size` ones. -/
def mask64 (size : ℕ) : BitVec 64 :=
  if size = 64 then ~~~0 else (1 <<< size) - 1

/-- `isOfSizeAsked32`: `toTest` fits in `size` bits. -/
def isOfSizeAsked32 (size : ℕ) (toTest : BitVec 32) : Bool :=
  (toTest &&& mask32 size) == toTest

/-- `PAGE_OFFSET`. -/
abbrev pageOffsetBits : ℕ := 12

/-- `init_virt_addr`: five width checks, then the fields; reserved bits are zero. -/
def initVirtAddr (pgdEntry pudEntry pmdEntry pteEntry pageOffset : BitVec 16) :
    Except ErrorCode VirtAddr :=
  if !isOfSizeAsked32 9 (pgdEntry.setWidth 32) then .error .errBadParameter
  else if !isOfSizeAsked32 9 (pudEntry.setWidth 32) then .error .errBadParameter
  else if !isOfSizeAsked32 9 (pmdEntry.setWidth 32) then .error .errBadParameter
  else if !isOfSizeAsked32 9 (pteEntry.setWidth 32) then .error .errBadParameter
  else if !isOfSizeAsked32 pageOffsetBits (pageOffset.setWidth 32) then .error .errBadParameter
  else .ok
    { reserved := 0
      pgdEntry := pgdEntry.setWidth 9
      pudEntry := pudEntry.setWidth 9
      pmdEntry := pmdEntry.setWidth 9
      pteEntry := pteEntry.setWidth 9
      pageOffset := pageOffset.setWidth 12 }

/-- `init_virt_addr64`: cut a 64-bit pattern into its fields. -/
def initVirtAddr64 (vaddr64 : BitVec 64) : Except ErrorCode VirtAddr :=
  initVirtAddr ((mask64 9 &&& (vaddr64 >>> 39)).setWidth 16)
    ((mask64 9 &&& (vaddr64 >>> 30)).setWidth 16) ((mask64 9 &&& (vaddr64 >>> 21)).setWidth 16)
    ((mask64 9 &&& (vaddr64 >>> 12)).setWidth 16)
    ((mask64 pageOffsetBits &&& (vaddr64 >>> 0)).setWidth 16)

/-- `init_phy_addr`: the page start must be page-aligned and the offset fit in 12 bits. -/
def initPhyAddr (pageBegin pageOffset : BitVec 32) : Except ErrorCode PhyAddr :=
  if pageBegin &&& mask32 pageOffsetBits ≠ 0 then .error .errBadParameter
  else if !isOfSizeAsked32 pageOffsetBits pageOffset then .error .errBadParameter
  else .ok
    { phyPageNum := (pageBegin >>> pageOffsetBits).setWidth 20
      pageOffset := (pageOffset &&& mask32 pageOffsetBits).setWidth 12 }

/-! ### Packing a virtual address -/

/-- `virt_addr_t_to_virtual_page_number`: the four entries shifted to their places in the
64-bit pattern, then moved down by the width of the page offset. -/
def virtAddrToVirtualPageNumber (vaddr : VirtAddr) : BitVec 64 :=
  ((vaddr.pgdEntry.setWidth 64 <<< 39) ||| (vaddr.pudEntry.setWidth 64 <<< 30) |||
    (vaddr.pmdEntry.setWidth 64 <<< 21) ||| (vaddr.pteEntry.setWidth 64 <<< 12)) >>>
      pageOffsetBits

/-- `virt_addr_t_to_uint64_t`: the page number shifted back up, with the page offset. -/
def virtAddrToUint64 (vaddr : VirtAddr) : BitVec 64 :=
  (virtAddrToVirtualPageNumber vaddr <<< pageOffsetBits) ||| vaddr.pageOffset.setWidth 64

/-- The page number is the mixed-radix value of the four 9-bit entries. -/
theorem virtAddrToVirtualPageNumber_toNat (vaddr : VirtAddr) :
    (virtAddrToVirtualPageNumber vaddr).toNat =
      ((vaddr.pgdEntry.toNat * 512 + vaddr.pudEntry.toNat) * 512 + vaddr.pmdEntry.toNat) * 512 +
        vaddr.pteEntry.toNat := by
  obtain ⟨_, ⟨g, hg⟩, ⟨u, hu⟩, ⟨m, hm⟩, ⟨t, ht⟩, _⟩ := vaddr
  have e1 : g * 2 ^ 39 ||| u * 2 ^ 30 = (g * 512 + u) * 2 ^ 30 := by
    rw [mul_two_pow_or_eq_add (by omega)]; omega
  have e2 : (g * 512 + u) * 2 ^ 30 ||| m * 2 ^ 21 = ((g * 512 + u) * 512 + m) * 2 ^ 21 := by
    rw [mul_two_pow_or_eq_add (by omega)]; omega
  have e3 : ((g * 512 + u) * 512 + m) * 2 ^ 21 ||| t * 2 ^ 12 =
      (((g * 512 + u) * 512 + m) * 512 + t) * 2 ^ 12 := by
    rw [mul_two_pow_or_eq_add (by omega)]; omega
  rw [virtAddrToVirtualPageNumber, BitVec.toNat_ushiftRight, BitVec.toNat_or, BitVec.toNat_or,
    BitVec.toNat_or, toNat_setWidth_shiftLeft _ (by omega), toNat_setWidth_shiftLeft _ (by omega),
    toNat_setWidth_shiftLeft _ (by omega), toNat_setWidth_shiftLeft _ (by omega),
    Nat.shiftRight_eq_div_pow]
  change (g * 2 ^ 39 ||| u * 2 ^ 30 ||| m * 2 ^ 21 ||| t * 2 ^ 12) / 2 ^ 12 = _
  rw [e1, e2, e3, Nat.mul_div_cancel _ (by omega)]
  rfl

/-- The page number fits in `VIRT_PAGE_NUM` bits. -/
theorem virtAddrToVirtualPageNumber_lt (vaddr : VirtAddr) :
    (virtAddrToVirtualPageNumber vaddr).toNat < 2 ^ 36 := by
  rw [virtAddrToVirtualPageNumber_toNat]
  have hg := vaddr.pgdEntry.isLt
  have hu := vaddr.pudEntry.isLt
  have hm := vaddr.pmdEntry.isLt
  have ht := vaddr.pteEntry.isLt
  omega

/-- **Injectivity of the packing**: equal page numbers come from equal directory entries. -/
theorem virtAddrToVirtualPageNumber_inj {v v' : VirtAddr}
    (h : virtAddrToVirtualPageNumber v = virtAddrToVirtualPageNumber v') :
    v.pgdEntry = v'.pgdEntry ∧ v.pudEntry = v'.pudEntry ∧ v.pmdEntry = v'.pmdEntry ∧
      v.pteEntry = v'.pteEntry := by
  have hn := congrArg BitVec.toNat h
  rw [virtAddrToVirtualPageNumber_toNat, virtAddrToVirtualPageNumber_toNat] at hn
  have hu := v.pudEntry.isLt
  have hm := v.pmdEntry.isLt
  have ht := v.pteEntry.isLt
  have hu' := v'.pudEntry.isLt
  have hm' := v'.pmdEntry.isLt
  have ht' := v'.pteEntry.isLt
  refine ⟨?_, ?_, ?_, ?_⟩ <;> refine BitVec.eq_of_toNat_eq ?_ <;> omega

/-! ### Cutting a 64-bit pattern -/

/-- The pattern of an address is its page number and its page offset. -/
theorem virtAddrToUint64_toNat (vaddr : VirtAddr) :
    (virtAddrToUint64 vaddr).toNat =
      (virtAddrToVirtualPageNumber vaddr).toNat * 2 ^ 12 + vaddr.pageOffset.toNat := by
  have hpage := virtAddrToVirtualPageNumber_lt vaddr
  have hoff := vaddr.pageOffset.isLt
  rw [virtAddrToUint64, BitVec.toNat_or, BitVec.toNat_shiftLeft, Nat.shiftLeft_eq,
    BitVec.toNat_setWidth, Nat.mod_eq_of_lt (a := vaddr.pageOffset.toNat) (by omega)]
  change (_ * 2 ^ 12) % 2 ^ 64 ||| _ = _
  rw [Nat.mod_eq_of_lt (by omega), mul_two_pow_or_eq_add hoff]

/-- Two addresses without reserved bits and with the same pattern are equal. -/
theorem eq_of_virtAddrToUint64_eq {v v' : VirtAddr} (hreserved : v.reserved = v'.reserved)
    (h : virtAddrToUint64 v = virtAddrToUint64 v') : v = v' := by
  have hn := congrArg BitVec.toNat h
  rw [virtAddrToUint64_toNat, virtAddrToUint64_toNat] at hn
  have hoff := v.pageOffset.isLt
  have hoff' := v'.pageOffset.isLt
  have hpage : virtAddrToVirtualPageNumber v = virtAddrToVirtualPageNumber v' :=
    BitVec.eq_of_toNat_eq (by omega)
  obtain ⟨hg, hu, hm, ht⟩ := virtAddrToVirtualPageNumber_inj hpage
  have ho : v.pageOffset = v'.pageOffset := BitVec.eq_of_toNat_eq (by omega)
  obtain ⟨r, g, u, m, t, o⟩ := v
  obtain ⟨r', g', u', m', t', o'⟩ := v'
  simp only at hreserved hg hu hm ht ho
  rw [hreserved, hg, hu, hm, ht, ho]

/-- A field of the pattern, as `init_virt_addr64` cuts it out. -/
private theorem toNat_cut (width shift : ℕ) {mask : BitVec 64} (v : BitVec 64)
    (hmask : mask.toNat = 2 ^ width - 1) (hwidth : width ≤ 16) :
    ((mask &&& (v >>> shift)).setWidth 16).toNat = v.toNat / 2 ^ shift % 2 ^ width := by
  have hlt : v.toNat / 2 ^ shift % 2 ^ width < 2 ^ 16 :=
    lt_of_lt_of_le (Nat.mod_lt _ (Nat.two_pow_pos width)) (Nat.pow_le_pow_right (by decide) hwidth)
  rw [BitVec.toNat_setWidth, BitVec.toNat_and, hmask, Nat.and_comm,
    Nat.and_two_pow_sub_one_eq_mod, BitVec.toNat_ushiftRight, Nat.shiftRight_eq_div_pow,
    Nat.mod_eq_of_lt hlt]

/-- A field that fits passes its width check. -/
private theorem isOfSizeAsked32_of_lt {width : ℕ} {x : BitVec 16}
    (hmask : (mask32 width).toNat = 2 ^ width - 1) (hx : x.toNat < 2 ^ width) :
    isOfSizeAsked32 width (x.setWidth 32) = true := by
  have hlt := x.isLt
  rw [isOfSizeAsked32, beq_iff_eq]
  refine BitVec.eq_of_toNat_eq ?_
  rw [BitVec.toNat_and, hmask, Nat.and_two_pow_sub_one_eq_mod, BitVec.toNat_setWidth,
    Nat.mod_eq_of_lt (b := 2 ^ 32) (by omega), Nat.mod_eq_of_lt hx]

/-- The address `init_virt_addr64` makes of a pattern. -/
def virtAddr64 (vaddr64 : BitVec 64) : VirtAddr where
  reserved := 0
  pgdEntry := BitVec.ofNat 9 (vaddr64.toNat / 2 ^ 39)
  pudEntry := BitVec.ofNat 9 (vaddr64.toNat / 2 ^ 30)
  pmdEntry := BitVec.ofNat 9 (vaddr64.toNat / 2 ^ 21)
  pteEntry := BitVec.ofNat 9 (vaddr64.toNat / 2 ^ 12)
  pageOffset := BitVec.ofNat 12 vaddr64.toNat

/-- Cutting a pattern into its fields always succeeds. -/
theorem initVirtAddr64_eq (vaddr64 : BitVec 64) :
    initVirtAddr64 vaddr64 = .ok (virtAddr64 vaddr64) := by
  have hcut : ∀ shift, ((mask64 9 &&& (vaddr64 >>> shift)).setWidth 16).toNat =
      vaddr64.toNat / 2 ^ shift % 2 ^ 9 := fun shift =>
    toNat_cut 9 shift vaddr64 (by decide) (by decide)
  have hoff : ((mask64 pageOffsetBits &&& (vaddr64 >>> 0)).setWidth 16).toNat =
      vaddr64.toNat % 2 ^ 12 := by
    have hmask : (mask64 pageOffsetBits).toNat = 2 ^ 12 - 1 := by decide
    have h := toNat_cut 12 0 vaddr64 hmask (by decide)
    rwa [Nat.pow_zero, Nat.div_one] at h
  have hsize : ∀ shift, isOfSizeAsked32 9
      (((mask64 9 &&& (vaddr64 >>> shift)).setWidth 16).setWidth 32) = true := fun shift =>
    isOfSizeAsked32_of_lt (by decide) (by rw [hcut]; exact Nat.mod_lt _ (by decide))
  have hoffSize : isOfSizeAsked32 pageOffsetBits
      (((mask64 pageOffsetBits &&& (vaddr64 >>> 0)).setWidth 16).setWidth 32) = true :=
    isOfSizeAsked32_of_lt (by decide) (by rw [hoff]; exact Nat.mod_lt _ (by decide))
  have hfield : ∀ shift, ((mask64 9 &&& (vaddr64 >>> shift)).setWidth 16).setWidth 9 =
      BitVec.ofNat 9 (vaddr64.toNat / 2 ^ shift) := by
    intro shift
    refine BitVec.eq_of_toNat_eq ?_
    rw [BitVec.toNat_setWidth, hcut, BitVec.toNat_ofNat, Nat.mod_mod]
  have hoffField : ((mask64 pageOffsetBits &&& (vaddr64 >>> 0)).setWidth 16).setWidth 12 =
      BitVec.ofNat 12 vaddr64.toNat := by
    refine BitVec.eq_of_toNat_eq ?_
    rw [BitVec.toNat_setWidth, hoff, BitVec.toNat_ofNat, Nat.mod_mod]
  simp only [initVirtAddr64, initVirtAddr, hsize, hoffSize, hfield, hoffField, Bool.not_true,
    Bool.false_eq_true, if_false, virtAddr64]

/-- The pattern of the address made of a pattern is its lower 48 bits. -/
theorem virtAddrToUint64_virtAddr64 (vaddr64 : BitVec 64) :
    (virtAddrToUint64 (virtAddr64 vaddr64)).toNat = vaddr64.toNat % 2 ^ 48 := by
  rw [virtAddrToUint64_toNat, virtAddrToVirtualPageNumber_toNat]
  simp only [virtAddr64, BitVec.toNat_ofNat]
  omega

/-- An address without reserved bits is rebuilt from its pattern. -/
theorem virtAddr64_virtAddrToUint64 {v : VirtAddr} (hreserved : v.reserved = 0) :
    virtAddr64 (virtAddrToUint64 v) = v := by
  refine eq_of_virtAddrToUint64_eq hreserved.symm (BitVec.eq_of_toNat_eq ?_)
  have hpage := virtAddrToVirtualPageNumber_lt v
  have hoff := v.pageOffset.isLt
  rw [virtAddrToUint64_virtAddr64, virtAddrToUint64_toNat]
  exact Nat.mod_eq_of_lt (by omega)

/-- The page number is the pattern without the page offset. -/
theorem virtAddrToUint64_shiftRight (v : VirtAddr) :
    virtAddrToUint64 v >>> pageOffsetBits = virtAddrToVirtualPageNumber v := by
  refine BitVec.eq_of_toNat_eq ?_
  have hoff := v.pageOffset.isLt
  rw [BitVec.toNat_ushiftRight, Nat.shiftRight_eq_div_pow, virtAddrToUint64_toNat]
  change (_ * 2 ^ 12 + _) / 2 ^ 12 = _
  omega

/-- **Packing and cutting are reciprocal.** Every pattern is cut into an address that packs to
its lower 48 bits; every address without reserved bits is rebuilt, field by field, from its
pattern; and the page number separates the tuples of directory entries. -/
theorem virtAddr_reciprocal :
    (∀ vaddr64 : BitVec 64, ∃ vaddr, initVirtAddr64 vaddr64 = .ok vaddr ∧
      (virtAddrToUint64 vaddr).toNat = vaddr64.toNat % 2 ^ 48 ∧
      virtAddrToVirtualPageNumber vaddr = virtAddrToUint64 vaddr >>> 12 ∧
      (virtAddrToVirtualPageNumber vaddr).toNat < 2 ^ 36) ∧
    (∀ vaddr : VirtAddr, vaddr.reserved = 0 →
      initVirtAddr64 (virtAddrToUint64 vaddr) = .ok vaddr) ∧
    ∀ v v' : VirtAddr,
      (v.pgdEntry, v.pudEntry, v.pmdEntry, v.pteEntry) ≠
        (v'.pgdEntry, v'.pudEntry, v'.pmdEntry, v'.pteEntry) →
      virtAddrToVirtualPageNumber v ≠ virtAddrToVirtualPageNumber v' := by
  refine ⟨fun vaddr64 => ?_, fun vaddr hreserved => ?_, fun v v' hne hpage => hne ?_⟩
  · refine ⟨virtAddr64 vaddr64, initVirtAddr64_eq vaddr64, virtAddrToUint64_virtAddr64 vaddr64,
      (virtAddrToUint64_shiftRight _).symm, virtAddrToVirtualPageNumber_lt _⟩
  · rw [initVirtAddr64_eq, virtAddr64_virtAddrToUint64 hreserved]
  · obtain ⟨hg, hu, hm, ht⟩ := virtAddrToVirtualPageNumber_inj hpage
    rw [hg, hu, hm, ht]

/-! ### Building a physical address -/

/-- A frame shifted to its place and an offset within it. -/
theorem toNat_frame_or_offset (paddr : PhyAddr) :
    ((paddr.phyPageNum.setWidth 32 <<< pageOffsetBits) ||| paddr.pageOffset.setWidth 32).toNat =
      paddr.phyPageNum.toNat * 4096 + paddr.pageOffset.toNat := by
  have hoff := paddr.pageOffset.isLt
  rw [BitVec.toNat_or, toNat_setWidth_shiftLeft _ (by decide), BitVec.toNat_setWidth,
    Nat.mod_eq_of_lt (by omega), mul_two_pow_or_eq_add hoff]
  rfl

theorem mask32_pageOffsetBits : mask32 pageOffsetBits = 4095#32 := by decide

private theorem shiftLeft_and_mask (x : BitVec 32) :
    (x <<< pageOffsetBits) &&& mask32 pageOffsetBits = 0 := by
  refine BitVec.eq_of_toNat_eq ?_
  rw [mask32_pageOffsetBits, BitVec.toNat_and, BitVec.toNat_shiftLeft]
  change _ &&& (2 ^ 12 - 1) = 0
  rw [Nat.and_two_pow_sub_one_eq_mod, Nat.shiftLeft_eq]
  change x.toNat * 2 ^ 12 % 2 ^ 32 % 2 ^ 12 = 0
  omega

private theorem offset_and_mask (off : BitVec 12) :
    off.setWidth 32 &&& mask32 pageOffsetBits = off.setWidth 32 := by
  refine BitVec.eq_of_toNat_eq ?_
  rw [mask32_pageOffsetBits, BitVec.toNat_and]
  change _ &&& (2 ^ 12 - 1) = _
  rw [Nat.and_two_pow_sub_one_eq_mod, BitVec.toNat_setWidth]
  have := off.isLt
  omega

/-- Every call made with a shifted page number and a 12-bit offset succeeds. -/
theorem initPhyAddr_shiftLeft (page : BitVec 32) (off : BitVec 12) :
    initPhyAddr (page <<< pageOffsetBits) (off.setWidth 32) =
      .ok ⟨((page <<< pageOffsetBits) >>> pageOffsetBits).setWidth 20, off⟩ := by
  have hsize : isOfSizeAsked32 pageOffsetBits (off.setWidth 32) = true := by
    rw [isOfSizeAsked32, offset_and_mask, beq_self_eq_true]
  have hoff : (off.setWidth 32).setWidth 12 = off := by
    refine BitVec.eq_of_toNat_eq ?_
    have := off.isLt
    simp only [BitVec.toNat_setWidth]
    omega
  rw [initPhyAddr, if_neg (by rw [shiftLeft_and_mask]; simp), if_neg (by simp [hsize]),
    offset_and_mask, hoff]

/-- The call `tlb_hit` makes on a stored frame gives back that frame. -/
theorem initPhyAddr_frame (frame : BitVec 20) (off : BitVec 12) :
    initPhyAddr (frame.setWidth 32 <<< pageOffsetBits) (off.setWidth 32) =
      .ok ⟨frame, off⟩ := by
  have hframe : ((frame.setWidth 32 <<< pageOffsetBits) >>> pageOffsetBits).setWidth 20 =
      frame := by
    refine BitVec.eq_of_toNat_eq ?_
    rw [BitVec.toNat_setWidth, BitVec.toNat_ushiftRight, toNat_setWidth_shiftLeft _ (by decide),
      Nat.shiftRight_eq_div_pow, Nat.mul_div_cancel _ (by decide), Nat.mod_eq_of_lt frame.isLt]
  rw [initPhyAddr_shiftLeft, hframe]

end MemoryHierarchy
