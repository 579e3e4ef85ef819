import MemoryHierarchy.Addr.PageWalk

/-!
# Loading the file of a page

`page_file_read` of `memory.c`, and the address `mem_init_from_description` passes to it. Memory
is the bytes of the machine as they are seen from the start of the allocated block, so a store
outside of the block is a store too: `written` are the addresses `fread` stored at, the only ones
where the memory that is left differs (`memory_pageFileRead_of_notMem`).

The sum in the bounds check is one of 64 bits, and the address of a data page goes through an
`int`. Hence the exact conditions under which a page lands on its frame (`landsOnFrame_iff`) and
under which it stays inside the block (`staysInside_iff`).
-/

namespace MemoryHierarchy

open Lib

/-- `PAGE_SIZE`. -/
abbrev pageSize : ℕ := 4096

/-- The bytes of the machine, seen from the start of a block. -/
abbrev ByteMem := BitVec 64 → Byte

/-- A path, as the bytes of the string. -/
abbrev Path := List Byte

/-- The block as the array of 32-bit words that `page_walk` casts it to. -/
def wordsOf (memory : ByteMem) : Mem := fun i =>
  memory (BitVec.ofNat 64 (4 * i + 3)) ++ memory (BitVec.ofNat 64 (4 * i + 2)) ++
    memory (BitVec.ofNat 64 (4 * i + 1)) ++ memory (BitVec.ofNat 64 (4 * i))

/-- The memory after bytes have been stored one after the other from `addr` on. -/
def storeBytes (memory : ByteMem) (addr : BitVec 64) (bytes : List Byte) : ByteMem := fun i =>
  bytes[(i - addr).toNat]?.getD (memory i)

/-- `handle_exit_error`: what `*memory` is after it has been freed. -/
def handleExitError (_memory : Option ByteMem) : Option ByteMem := none

/-- What `page_file_read` leaves: its error code, `*memory`, and the addresses it stored at. -/
structure PageFileRead where
  err : ErrorCode
  memory : Option ByteMem
  written : List (BitVec 64)

/-- `page_file_read`, where `files` are the contents of the files that can be opened, as far as
they can be read. The address of a byte of the block is never null. -/
def pageFileRead (files : Path → Option (List Byte)) (memory : Option ByteMem)
    (memorySize addr : BitVec 64) (filename : Path) : PageFileRead :=
  match memory with
  | none => { err := .errBadParameter, memory := none, written := [] }
  | some bytes =>
    if ¬ addr + BitVec.ofNat 64 pageSize ≤ memorySize then
      { err := .errMem, memory := memory, written := [] }
    else
      match files filename with
      | none => { err := .errBadParameter, memory := handleExitError memory, written := [] }
      | some content =>
        let page := content.take pageSize
        let memory := some (storeBytes bytes addr page)
        let written := (List.range page.length).map fun i => addr + BitVec.ofNat 64 i
        if page.length ≠ pageSize then
          { err := .errIo, memory := handleExitError memory, written := written }
        else { err := .errNone, memory := memory, written := written }

/-- The address of `mem_init_from_description`: `(phy.phy_page_num << PAGE_OFFSET) |
phy.page_offset`, an `int`, converted to a `uint64_t`. -/
def physicalAddress (phy : PhyAddr) : BitVec 64 :=
  ((phy.phyPageNum.setWidth 32 <<< pageOffsetBits) ||| phy.pageOffset.setWidth 32).signExtend 64

variable {files : Path → Option (List Byte)} {memory : ByteMem} {memorySize addr : BitVec 64}
  {filename : Path} {content : List Byte} {phy : PhyAddr}

/-- A byte that is stored is found at its address. -/
theorem getElem?_eq_storeBytes {bytes : List Byte} (hlength : bytes.length ≤ 2 ^ 64) {i : ℕ}
    (hi : i < bytes.length) :
    bytes[i]? = some (storeBytes memory addr bytes (addr + BitVec.ofNat 64 i)) := by
  have hoffset : (addr + BitVec.ofNat 64 i - addr).toNat = i := by
    rw [BitVec.add_comm, BitVec.add_sub_cancel, BitVec.toNat_ofNat,
      Nat.mod_eq_of_lt (hi.trans_le hlength)]
  rw [storeBytes, hoffset, List.getElem?_eq_getElem hi, Option.getD_some]

/-- The bytes behind those that are stored stay. -/
theorem storeBytes_of_length_le {bytes : List Byte} {a : BitVec 64}
    (h : bytes.length ≤ (a - addr).toNat) : storeBytes memory addr bytes a = memory a := by
  rw [storeBytes, List.getElem?_eq_none h, Option.getD_none]

/-- The bytes at other addresses stay. -/
theorem storeBytes_of_notMem {bytes : List Byte} {a : BitVec 64}
    (h : a ∉ (List.range bytes.length).map fun i => addr + BitVec.ofNat 64 i) :
    storeBytes memory addr bytes a = memory a := by
  refine storeBytes_of_length_le ?_
  by_contra hlt
  refine h (List.mem_map.mpr ⟨(a - addr).toNat, List.mem_range.mpr (Nat.lt_of_not_le hlt), ?_⟩)
  rw [BitVec.ofNat_toNat, BitVec.setWidth_eq, BitVec.add_comm, BitVec.sub_add_cancel]

/-- **The log of the addresses is that of the memory**: bytes change at `written` only. -/
theorem memory_pageFileRead_of_notMem {after : ByteMem}
    (h : (pageFileRead files (some memory) memorySize addr filename).memory = some after)
    {a : BitVec 64}
    (ha : a ∉ (pageFileRead files (some memory) memorySize addr filename).written) :
    after a = memory a := by
  rw [pageFileRead] at h ha
  by_cases hcheck : addr + BitVec.ofNat 64 pageSize ≤ memorySize
  · rw [if_neg (not_not_intro hcheck)] at h ha
    rcases hfile : files filename with _ | content
    · rw [hfile] at h
      cases h
    · simp only [hfile] at h ha
      split_ifs at h ha
      · cases h
      · cases h
        exact storeBytes_of_notMem ha
  · rw [if_pos hcheck] at h
    cases h
    rfl

/-- A page that passes the check is stored, all of it. -/
theorem pageFileRead_eq (hfile : files filename = some content)
    (hlength : pageSize ≤ content.length) (hcheck : addr + BitVec.ofNat 64 pageSize ≤ memorySize) :
    pageFileRead files (some memory) memorySize addr filename =
      { err := .errNone
        memory := some (storeBytes memory addr (content.take pageSize))
        written := (List.range pageSize).map fun i => addr + BitVec.ofNat 64 i } := by
  have hpage : (content.take pageSize).length = pageSize := by
    rw [List.length_take, Nat.min_eq_left hlength]
  rw [pageFileRead, if_neg (not_not_intro hcheck), hfile]
  simp only [hpage, ne_eq, not_true_eq_false, if_false]

/-- A page that has been read is in some memory. -/
theorem memory_ne_none_of_pageFileRead {memory : Option ByteMem}
    (h : (pageFileRead files memory memorySize addr filename).err = .errNone) :
    (pageFileRead files memory memorySize addr filename).memory ≠ none := by
  rcases memory with _ | memory
  · cases h
  · rw [pageFileRead] at h ⊢
    split_ifs at h ⊢
    rcases hfile : files filename with _ | content
    · rw [hfile] at h
      cases h
    · rw [hfile] at h
      simp only at h ⊢
      split_ifs at h ⊢
      exact Option.some_ne_none _

/-! ### Where a page lands -/

/-- The frame and the offset, and a sign extension. -/
theorem toNat_physicalAddress (phy : PhyAddr) :
    (physicalAddress phy).toNat = phy.phyPageNum.toNat * 4096 + phy.pageOffset.toNat +
      if phy.phyPageNum.toNat < 2 ^ 19 then 0 else 2 ^ 64 - 2 ^ 32 := by
  have hframe := phy.phyPageNum.isLt
  have hoff := phy.pageOffset.isLt
  have hint := toNat_frame_or_offset phy
  rw [physicalAddress, BitVec.toNat_signExtend, BitVec.toNat_setWidth, BitVec.msb_eq_decide, hint,
    Nat.mod_eq_of_lt (by omega)]
  congr 1
  by_cases hlow : phy.phyPageNum.toNat < 2 ^ 19
  · rw [if_pos hlow, if_neg]
    simp only [decide_eq_true_eq]
    omega
  · rw [if_neg hlow, if_pos]
    simp only [decide_eq_true_eq]
    omega

/-- The call has stored the page and nothing else: the byte of number `i` is found at `place i`, and
every byte at none of these addresses is what it was in `memory`. -/
structure PageFileRead.Stores (r : PageFileRead) (memory : ByteMem) (content : List Byte)
    (place : ℕ → BitVec 64) : Prop where
  err : r.err = .errNone
  memory : ∃ after, r.memory = some after ∧
    (∀ i < pageSize, content[i]? = some (after (place i))) ∧
    ∀ a, (∀ i < pageSize, a ≠ place i) → after a = memory a

/-- A page read by a call that passes the check is stored from `addr` on, inside the block. -/
def StaysInside (memorySize addr : BitVec 64) : Prop :=
  ∀ (files : Path → Option (List Byte)) (memory : ByteMem) (filename : Path) (content : List Byte),
    files filename = some content → pageSize ≤ content.length →
    addr + BitVec.ofNat 64 pageSize ≤ memorySize →
    (pageFileRead files (some memory) memorySize addr filename).Stores memory content
      (fun i => addr + BitVec.ofNat 64 i) ∧
    ∀ i < pageSize, (addr + BitVec.ofNat 64 i).toNat < memorySize.toNat

/-- A page read at the address of a translation that passes the check is stored at the bytes the
translation stands for, inside the block. -/
def LandsOnFrame (memorySize : BitVec 64) (phy : PhyAddr) : Prop :=
  ∀ (files : Path → Option (List Byte)) (memory : ByteMem) (filename : Path) (content : List Byte),
    files filename = some content → pageSize ≤ content.length →
    physicalAddress phy + BitVec.ofNat 64 pageSize ≤ memorySize →
    (pageFileRead files (some memory) memorySize (physicalAddress phy) filename).Stores memory
      content (fun i => BitVec.ofNat 64 (phy.phyPageNum.toNat * 4096 + phy.pageOffset.toNat + i)) ∧
    ∀ i < pageSize,
      phy.phyPageNum.toNat * 4096 + phy.pageOffset.toNat + i < memorySize.toNat

/-- The check on numbers: the sum is taken modulo `2 ^ 64`. -/
theorem check_iff :
    addr + BitVec.ofNat 64 pageSize ≤ memorySize ↔
      (addr.toNat + 4096) % 2 ^ 64 ≤ memorySize.toNat := by
  rw [BitVec.le_def, BitVec.toNat_add]
  exact Iff.rfl

/-- Where the byte of number `i` goes. -/
theorem toNat_written (addr : BitVec 64) (i : ℕ) :
    (addr + BitVec.ofNat 64 i).toNat = (addr.toNat + i) % 2 ^ 64 := by
  rw [BitVec.toNat_add, BitVec.toNat_ofNat, Nat.add_mod_mod]

/-- The addresses that are logged. -/
theorem mem_written_iff (hfile : files filename = some content)
    (hlength : pageSize ≤ content.length)
    (hcheck : addr + BitVec.ofNat 64 pageSize ≤ memorySize) {a : BitVec 64} :
    a ∈ (pageFileRead files (some memory) memorySize addr filename).written ↔
      ∃ i < pageSize, a = addr + BitVec.ofNat 64 i := by
  rw [pageFileRead_eq hfile hlength hcheck, List.mem_map]
  refine exists_congr fun i => and_congr List.mem_range ?_
  exact eq_comm

/-- **A page that passes the check** is in the memory from `addr` on, and nothing else is new. -/
theorem stores_pageFileRead (hfile : files filename = some content)
    (hlength : pageSize ≤ content.length)
    (hcheck : addr + BitVec.ofNat 64 pageSize ≤ memorySize) :
    (pageFileRead files (some memory) memorySize addr filename).Stores memory content
      fun i => addr + BitVec.ofNat 64 i := by
  have hpage : (content.take pageSize).length = pageSize := by
    rw [List.length_take, Nat.min_eq_left hlength]
  have hafter : (pageFileRead files (some memory) memorySize addr filename).memory =
      some (storeBytes memory addr (content.take pageSize)) := by
    rw [pageFileRead_eq hfile hlength hcheck]
  refine ⟨?_, _, hafter, fun i hi => ?_, fun a ha => ?_⟩
  · rw [pageFileRead_eq hfile hlength hcheck]
  · rw [← List.getElem?_take_of_lt hi]
    exact getElem?_eq_storeBytes (hpage.trans_le (by decide)) (hi.trans_eq hpage.symm)
  · refine memory_pageFileRead_of_notMem hafter fun hmem => ?_
    obtain ⟨i, hi, heq⟩ := (mem_written_iff hfile hlength hcheck).mp hmem
    exact ha i hi heq

/-- The places may be named differently. -/
theorem PageFileRead.Stores.congr {r : PageFileRead} {place place' : ℕ → BitVec 64}
    (h : r.Stores memory content place) (heq : ∀ i < pageSize, place i = place' i) :
    r.Stores memory content place' := by
  obtain ⟨after, hafter, hfound, hother⟩ := h.memory
  refine ⟨h.err, after, hafter, fun i hi => ?_, fun a ha => hother a fun i hi => ?_⟩
  · rw [← heq i hi]
    exact hfound i hi
  · rw [heq i hi]
    exact ha i hi

/-- A page that is not zero is found in a memory of zeros at places that it was stored at only. -/
theorem PageFileRead.Stores.exists_place_eq {r : PageFileRead} {place place' : ℕ → BitVec 64}
    (h : r.Stores (fun _ => 0) (List.replicate pageSize 1) place)
    (h' : r.Stores (fun _ => 0) (List.replicate pageSize 1) place') {i : ℕ} (hi : i < pageSize) :
    ∃ j < pageSize, place i = place' j := by
  obtain ⟨after, hafter, hfound, -⟩ := h.memory
  obtain ⟨after', hafter', -, hother⟩ := h'.memory
  obtain rfl := Option.some.inj (hafter.symm.trans hafter')
  by_contra hout
  have hzero : after (place i) = 0 := hother _ fun j hj heq => hout ⟨j, hj, heq⟩
  have hone := hfound i hi
  rw [List.getElem?_replicate_of_lt hi, hzero] at hone
  exact absurd hone (by decide)

/-- There are files of a page or more. -/
private theorem exists_page : ∃ content : List Byte, pageSize ≤ content.length :=
  ⟨List.replicate pageSize 0, by rw [List.length_replicate]⟩

/-- **The exact condition** for a page to stay inside the block: the check does not overflow, or
rejects the page all the same. -/
theorem staysInside_iff (memorySize addr : BitVec 64) :
    StaysInside memorySize addr ↔
      addr.toNat + 4096 < 2 ^ 64 ∨ memorySize.toNat < addr.toNat + 4096 - 2 ^ 64 := by
  have haddr := addr.isLt
  have hsize := memorySize.isLt
  constructor
  · intro h
    by_contra hcond
    rw [not_or, Nat.not_lt, Nat.not_lt] at hcond
    have hcheck : addr + BitVec.ofNat 64 pageSize ≤ memorySize := check_iff.mpr (by omega)
    obtain ⟨content, hlength⟩ := exists_page
    -- the last byte below the end of the address space
    have hinside := (h (fun _ => some content) (fun _ => 0) [] content rfl hlength hcheck).2
      (2 ^ 64 - 1 - addr.toNat) (by simp only [pageSize]; omega)
    rw [toNat_written] at hinside
    omega
  · intro hcond files memory filename content hfile hlength hcheck
    refine ⟨stores_pageFileRead hfile hlength hcheck, fun i hi => ?_⟩
    have hpass := check_iff.mp hcheck
    rw [pageSize] at hi
    rw [toNat_written]
    omega

/-- **The exact condition** for a page to land on its frame: the address is not sign-extended, or
the check rejects the address that has been. -/
theorem landsOnFrame_iff (memorySize : BitVec 64) (phy : PhyAddr) :
    LandsOnFrame memorySize phy ↔
      phy.phyPageNum.toNat < 2 ^ 19 ∨ memorySize.toNat <
        (2 ^ 64 - 2 ^ 32 + phy.phyPageNum.toNat * 4096 + phy.pageOffset.toNat + 4096) %
          2 ^ 64 := by
  have hframe := phy.phyPageNum.isLt
  have hoff := phy.pageOffset.isLt
  have haddr := toNat_physicalAddress phy
  constructor
  · intro h
    by_contra hcond
    rw [not_or] at hcond
    rw [if_neg hcond.1] at haddr
    have hcheck : physicalAddress phy + BitVec.ofNat 64 pageSize ≤ memorySize :=
      check_iff.mpr (by omega)
    obtain ⟨files, hfile⟩ : ∃ files : Path → Option (List Byte),
        files [] = some (List.replicate pageSize 1) := ⟨fun _ => _, rfl⟩
    have hlength : pageSize ≤ (List.replicate pageSize (1 : Byte)).length :=
      (List.length_replicate ..).ge
    -- the first byte is found before the block, not on the frame
    obtain ⟨i, hi, hfirst⟩ :=
      (h files (fun _ => 0) [] _ hfile hlength hcheck).1.exists_place_eq
        (stores_pageFileRead hfile hlength hcheck) (show 0 < pageSize by decide)
    have hfirst := congrArg BitVec.toNat hfirst
    rw [toNat_written, BitVec.toNat_ofNat] at hfirst
    rw [pageSize] at hi
    omega
  · intro hcond files memory filename content hfile hlength hcheck
    have hpass := check_iff.mp hcheck
    have hlow : phy.phyPageNum.toNat < 2 ^ 19 := by
      by_contra hhigh
      rw [if_neg hhigh] at haddr
      omega
    rw [if_pos hlow] at haddr
    refine ⟨(stores_pageFileRead hfile hlength hcheck).congr fun i hi => ?_, fun i hi => ?_⟩
    · refine BitVec.eq_of_toNat_eq ?_
      rw [toNat_written, BitVec.toNat_ofNat, haddr, Nat.add_zero]
    · rw [pageSize] at hi
      omega

/-- **Page loading**: when a page stays inside the block, and lands on its frame. -/
theorem page_load_iff (memorySize : BitVec 64) :
    (∀ phy : PhyAddr, LandsOnFrame memorySize phy ↔
      phy.phyPageNum.toNat < 2 ^ 19 ∨ memorySize.toNat <
        (2 ^ 64 - 2 ^ 32 + phy.phyPageNum.toNat * 4096 + phy.pageOffset.toNat + 4096) %
          2 ^ 64) ∧
    ∀ addr : BitVec 64, StaysInside memorySize addr ↔
      addr.toNat + 4096 < 2 ^ 64 ∨ memorySize.toNat < addr.toNat + 4096 - 2 ^ 64 :=
  ⟨landsOnFrame_iff memorySize, staysInside_iff memorySize⟩

/-- The last frame, in a memory of two pages: its page is stored before the block. -/
theorem not_page_load :
    ¬ ((∀ (memorySize : BitVec 64) (phy : PhyAddr), LandsOnFrame memorySize phy) ∧
      ∀ memorySize addr : BitVec 64, StaysInside memorySize addr) := by
  rintro ⟨hframe, -⟩
  have hlands := (landsOnFrame_iff 8192 ⟨0xFFFFF, 0⟩).mp (hframe 8192 ⟨0xFFFFF, 0⟩)
  revert hlands
  decide

end MemoryHierarchy
