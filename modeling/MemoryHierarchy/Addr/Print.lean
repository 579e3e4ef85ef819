import MemoryHierarchy.Addr.PageWalk
import MemoryHierarchy.Lib.Legible

/-!
# Printing addresses

`print_virtual_address` and `print_physical_address` of `addr_mng.c`, as the text they write. A
virtual address is shown without its reserved bits, which no translation looks at.
-/

namespace MemoryHierarchy

open Lib

/-- `print_virtual_address`. -/
def printVirtualAddress (vaddr : VirtAddr) : List Byte :=
  chars "PGD=0x" ++ printHex 1 vaddr.pgdEntry.toNat ++
    chars "; PUD=0x" ++ printHex 1 vaddr.pudEntry.toNat ++
    chars "; PMD=0x" ++ printHex 1 vaddr.pmdEntry.toNat ++
    chars "; PTE=0x" ++ printHex 1 vaddr.pteEntry.toNat ++
    chars "; offset=0x" ++ printHex 1 vaddr.pageOffset.toNat

/-- `print_physical_address`. -/
def printPhysicalAddress (paddr : PhyAddr) : List Byte :=
  chars "page num=0x" ++ printHex 1 paddr.phyPageNum.toNat ++
    chars "; offset=0x" ++ printHex 1 paddr.pageOffset.toNat

/-- The frame the walks of a page end in, from the number of the page. -/
def frameOfPage (memSpace : Mem) (page : ℕ) : BitVec 20 :=
  pageFrame memSpace (virtAddr64 (BitVec.ofNat 64 (page * 4096)))

/-- The first address of a page lies in it. -/
theorem virtAddrToVirtualPageNumber_virtAddr64 {page : ℕ} (hpage : page < 2 ^ 36) :
    virtAddrToVirtualPageNumber (virtAddr64 (BitVec.ofNat 64 (page * 4096))) =
      BitVec.ofNat 64 page := by
  refine BitVec.eq_of_toNat_eq ?_
  rw [virtAddrToVirtualPageNumber_toNat]
  simp only [virtAddr64, BitVec.toNat_ofNat]
  omega

theorem frameOfPage_eq (memSpace : Mem) (vaddr : VirtAddr) :
    frameOfPage memSpace (virtAddrToVirtualPageNumber vaddr).toNat = pageFrame memSpace vaddr := by
  refine pageFrame_congr memSpace ?_
  rw [virtAddrToVirtualPageNumber_virtAddr64 (virtAddrToVirtualPageNumber_lt vaddr),
    BitVec.ofNat_toNat, BitVec.setWidth_eq]

end MemoryHierarchy
