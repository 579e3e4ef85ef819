import MemoryHierarchy.Addr.Addr

/-!
# The page walk

`page_walk.c`: four table reads, each indexed by one directory entry, starting from the page
directory at address `0`. A table entry is used as the byte address of the next table, so it
is divided by the size of an entry before it indexes the word array.

The frame a walk ends in depends on the page number alone (`pageFrame_congr`): this is what a
TLB may cache.
-/

namespace MemoryHierarchy

/-- `maskof16`: the 16-bit mask with `size` ones. -/
def maskof16 (size : ℕ) : BitVec 16 :=
  if size = 16 then ~~~0 else (1 <<< size) - 1

/-- `read_page_entry`. An index wider than 12 bits makes the guard return the error code in
place of an entry. -/
def readPageEntry (start : Mem) (pageStart : BitVec 32) (index : BitVec 16) : BitVec 32 :=
  if maskof16 pageOffsetBits &&& index ≠ index then BitVec.ofNat 32 ErrorCode.errBadParameter.code
  else start (pageStart.toNat / 4 + index.toNat)

/-- `page_walk`. -/
def pageWalk (memSpace : Mem) (vaddr : VirtAddr) : Except ErrorCode PhyAddr :=
  let pageBegin := readPageEntry memSpace 0 (vaddr.pgdEntry.setWidth 16)
  let pageBegin := readPageEntry memSpace pageBegin (vaddr.pudEntry.setWidth 16)
  let pageBegin := readPageEntry memSpace pageBegin (vaddr.pmdEntry.setWidth 16)
  let pageBegin := readPageEntry memSpace pageBegin (vaddr.pteEntry.setWidth 16)
  initPhyAddr ((pageBegin >>> pageOffsetBits) <<< pageOffsetBits) (vaddr.pageOffset.setWidth 32)

/-- The frame the walk of `vaddr` ends in. -/
def pageFrame (memSpace : Mem) (vaddr : VirtAddr) : BitVec 20 :=
  let pageBegin := readPageEntry memSpace 0 (vaddr.pgdEntry.setWidth 16)
  let pageBegin := readPageEntry memSpace pageBegin (vaddr.pudEntry.setWidth 16)
  let pageBegin := readPageEntry memSpace pageBegin (vaddr.pmdEntry.setWidth 16)
  let pageBegin := readPageEntry memSpace pageBegin (vaddr.pteEntry.setWidth 16)
  (((pageBegin >>> pageOffsetBits) <<< pageOffsetBits) >>> pageOffsetBits).setWidth 20

/-- A walk always succeeds, with the page's frame and the address's own offset. -/
theorem pageWalk_eq (memSpace : Mem) (vaddr : VirtAddr) :
    pageWalk memSpace vaddr = .ok ⟨pageFrame memSpace vaddr, vaddr.pageOffset⟩ :=
  initPhyAddr_shiftLeft _ _

/-- The indices of the words a walk reads. -/
def walkIndices (memSpace : Mem) (vaddr : VirtAddr) : List ℕ :=
  let pudBegin := readPageEntry memSpace 0 (vaddr.pgdEntry.setWidth 16)
  let pmdBegin := readPageEntry memSpace pudBegin (vaddr.pudEntry.setWidth 16)
  let pteBegin := readPageEntry memSpace pmdBegin (vaddr.pmdEntry.setWidth 16)
  [vaddr.pgdEntry.toNat, pudBegin.toNat / 4 + vaddr.pudEntry.toNat,
    pmdBegin.toNat / 4 + vaddr.pmdEntry.toNat, pteBegin.toNat / 4 + vaddr.pteEntry.toNat]

/-- The words a walk reads lie in the first `size` bytes of the memory. The source has no such
test: a walk that leaves the memory is undefined there. -/
def WalkInside (memSpace : Mem) (size : ℕ) (vaddr : VirtAddr) : Prop :=
  ∀ i ∈ walkIndices memSpace vaddr, 4 * i + 4 ≤ size

instance (memSpace : Mem) (size : ℕ) (vaddr : VirtAddr) :
    Decidable (WalkInside memSpace size vaddr) :=
  inferInstanceAs (Decidable (∀ i ∈ walkIndices memSpace vaddr, 4 * i + 4 ≤ size))

/-- An entry of 9 bits passes the guard. -/
theorem readPageEntry_eq (memSpace : Mem) (pageStart : BitVec 32) (entry : BitVec 9) :
    readPageEntry memSpace pageStart (entry.setWidth 16) =
      memSpace (pageStart.toNat / 4 + entry.toNat) := by
  have hentry := entry.isLt
  have hindex : (entry.setWidth 16).toNat = entry.toNat := by
    rw [BitVec.toNat_setWidth, Nat.mod_eq_of_lt (by omega)]
  have hguard : maskof16 pageOffsetBits &&& entry.setWidth 16 = entry.setWidth 16 := by
    refine BitVec.eq_of_toNat_eq ?_
    have hmask : (maskof16 pageOffsetBits).toNat = 2 ^ 12 - 1 := by decide
    rw [BitVec.toNat_and, hmask, Nat.and_comm, Nat.and_two_pow_sub_one_eq_mod, hindex]
    omega
  rw [readPageEntry, if_neg (not_not_intro hguard), hindex]

/-- **A walk depends on the words it reads.** -/
theorem pageWalk_congr {memSpace memSpace' : Mem} {vaddr : VirtAddr}
    (h : ∀ i ∈ walkIndices memSpace vaddr, memSpace' i = memSpace i) :
    pageWalk memSpace' vaddr = pageWalk memSpace vaddr := by
  have hpgdBegin : ∀ n, BitVec.toNat (0 : BitVec 32) / 4 + n = n := Nat.zero_add
  simp only [walkIndices, readPageEntry_eq, hpgdBegin, List.forall_mem_cons] at h
  obtain ⟨hpgd, hpud, hpmd, hpte, -⟩ := h
  simp only [pageWalk, readPageEntry_eq, hpgdBegin, hpgd, hpud, hpmd, hpte]

/-- So do the words it reads. -/
theorem walkIndices_congr {memSpace memSpace' : Mem} {vaddr : VirtAddr}
    (h : ∀ i ∈ walkIndices memSpace vaddr, memSpace' i = memSpace i) :
    walkIndices memSpace' vaddr = walkIndices memSpace vaddr := by
  have hpgdBegin : ∀ n, BitVec.toNat (0 : BitVec 32) / 4 + n = n := Nat.zero_add
  simp only [walkIndices, readPageEntry_eq, hpgdBegin, List.forall_mem_cons] at h
  obtain ⟨hpgd, hpud, hpmd, -, -⟩ := h
  simp only [walkIndices, readPageEntry_eq, hpgdBegin, hpgd, hpud, hpmd]

/-- They are a function of the page number. -/
theorem WalkInside.of_page {memSpace : Mem} {size : ℕ} {v v' : VirtAddr}
    (h : WalkInside memSpace size v)
    (hpage : virtAddrToVirtualPageNumber v = virtAddrToVirtualPageNumber v') :
    WalkInside memSpace size v' := by
  obtain ⟨hg, hu, hm, ht⟩ := virtAddrToVirtualPageNumber_inj hpage
  simpa only [WalkInside, walkIndices, hg, hu, hm, ht] using h

/-- The frame is a function of the page number. -/
theorem pageFrame_congr (memSpace : Mem) {v v' : VirtAddr}
    (h : virtAddrToVirtualPageNumber v = virtAddrToVirtualPageNumber v') :
    pageFrame memSpace v = pageFrame memSpace v' := by
  obtain ⟨hg, hu, hm, ht⟩ := virtAddrToVirtualPageNumber_inj h
  simp only [pageFrame, hg, hu, hm, ht]

end MemoryHierarchy
