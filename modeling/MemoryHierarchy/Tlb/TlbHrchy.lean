import MemoryHierarchy.Addr.PageWalk
import MemoryHierarchy.Cache.CacheMng

/-!
# The two-level hierarchy of TLBs

`tlb_hrchy.h` and `tlb_hrchy_mng.c`. The three tables are direct mapped: the low bits of the page
number select the line, the others are the tag. A search that misses in its own L1 table goes to
L2, and a search that misses there goes to the page walk and fills L2. Either way the entry goes
into the L1 table of the access; the other L1 table loses the entry at the same line if it seems
to come from what L2 just lost. The macros are generic in the table, and so are the definitions
here; tables are passed and returned by value.
-/

namespace MemoryHierarchy.TlbHrchy

open Function

/-- `tlb_t`. -/
inductive TlbT
  | l1Itlb
  | l1Dtlb
  | l2Tlb
  deriving DecidableEq

/-- `L1_ITLB_LINES`, `L1_DTLB_LINES`, `L2_TLB_LINES`. -/
def TlbT.lines : TlbT → ℕ
  | l1Itlb => 16
  | l1Dtlb => 16
  | l2Tlb => 64

/-- `L1_ITLB_LINES_BITS`, `L1_DTLB_LINES_BITS`, `L2_TLB_LINES_BITS`. -/
def TlbT.linesBits : TlbT → ℕ
  | l1Itlb => 4
  | l1Dtlb => 4
  | l2Tlb => 6

/-- The width of the `tag` bit-field. -/
def TlbT.tagBits : TlbT → ℕ
  | l1Itlb => 32
  | l1Dtlb => 32
  | l2Tlb => 30

/-- `l1_itlb_entry_t`, `l1_dtlb_entry_t`, `l2_tlb_entry_t`. -/
structure TlbEntry (t : TlbT) where
  tag : BitVec t.tagBits
  phyPageNum : BitVec 20
  v : Bool
  deriving DecidableEq

/-- The lines of one TLB. -/
abbrev Table (t : TlbT) := Fin t.lines → TlbEntry t

/-- `HIT`. -/
abbrev hit : ℕ := 1

/-- `MISS`. -/
abbrev miss : ℕ := 0

variable {t : TlbT}

/-- `tlb_flush`. -/
def tlbFlush (t : TlbT) : Table t := fun _ => { tag := 0, phyPageNum := 0, v := false }

theorem TlbT.lines_pos (t : TlbT) : 0 < t.lines := by cases t <;> decide

/-- The line a page number selects. -/
def lineOf (t : TlbT) (page : ℕ) : Fin t.lines := ⟨page % t.lines, Nat.mod_lt _ t.lines_pos⟩

/-- The line of an address: its page number modulo the number of lines. -/
def addrLine (t : TlbT) (vaddr : VirtAddr) : Fin t.lines :=
  lineOf t (virtAddrToVirtualPageNumber vaddr).toNat

/-- `tlb_hit`, with the expansion of `hit_generic`: on a hit what is stored in `*paddr`, nothing
on a miss. -/
def tlbHit (vaddr : VirtAddr) (tlb : Table t) : Option PhyAddr :=
  let addr := virtAddrToVirtualPageNumber vaddr
  let tag : BitVec 32 := (addr >>> t.linesBits).setWidth 32
  let entry := tlb (addrLine t vaddr)
  if entry.tag.setWidth 32 = tag ∧ entry.v then
    match initPhyAddr (entry.phyPageNum.setWidth 32 <<< pageOffsetBits)
        (vaddr.pageOffset.setWidth 32) with
    | .error _ => none
    | .ok paddr => some paddr
  else none

/-- `tlb_insert`, with the expansion of `insert_generic`. -/
def tlbInsert (lineIndex : ℕ) (tlbEntry : TlbEntry t) (tlb : Table t) : ErrorCode × Table t :=
  if h : lineIndex < t.lines then (.errNone, update tlb ⟨lineIndex, h⟩ tlbEntry)
  else (.errBadParameter, tlb)

/-- `tlb_entry_init`, with the expansion of `init_generic`. -/
def tlbEntryInit (t : TlbT) (vaddr : VirtAddr) (paddr : PhyAddr) : TlbEntry t :=
  { tag := (virtAddrToVirtualPageNumber vaddr >>> t.linesBits).setWidth t.tagBits
    phyPageNum := paddr.phyPageNum
    v := true }

/-- `invalidate`. The tag of an L1 entry without its two low bits is compared with the tag of the
entry L2 has lost. -/
def invalidate (tlb : Table t) (vaddr : VirtAddr) (previouslyValid : Bool)
    (previousTag : BitVec 32) : Table t :=
  let index := addrLine t vaddr
  if previouslyValid ∧ (tlb index).v ∧ (tlb index).tag.setWidth 32 >>> 2 = previousTag then
    update tlb index { tlb index with v := false }
  else tlb

/-- `create_and_insert_entry`. -/
def createAndInsertEntry (tlb : Table t) (vaddr : VirtAddr) (paddr : PhyAddr) :
    ErrorCode × Table t :=
  tlbInsert (addrLine t vaddr) (tlbEntryInit t vaddr paddr) tlb

/-- The three tables. -/
structure State where
  l1Itlb : Table .l1Itlb
  l1Dtlb : Table .l1Dtlb
  l2Tlb : Table .l2Tlb

/-- What `tlb_search` returns, what it stores in `*paddr` and in `*hit_or_miss`, and the tables
after it. -/
structure TlbSearch where
  err : ErrorCode
  paddr : Option PhyAddr
  hitOrMiss : ℕ
  state : State

/-- The first lookup of `tlb_search`, in the L1 table of the access. -/
def l1Hit (vaddr : VirtAddr) (access : MemAccess) (s : State) : Option PhyAddr :=
  match access with
  | .instruction => tlbHit vaddr s.l1Itlb
  | .data => tlbHit vaddr s.l1Dtlb

/-- The end of `tlb_search`: the entry goes into the L1 table of the access, and the other L1
table is looked at. -/
def fillL1 (vaddr : VirtAddr) (access : MemAccess) (paddr : PhyAddr) (hitOrMiss : ℕ)
    (previouslyValid : Bool) (previousTag : BitVec 32) (s : State) : TlbSearch :=
  match access with
  | .instruction =>
    let (err, l1Itlb) := createAndInsertEntry s.l1Itlb vaddr paddr
    if err ≠ .errNone then { err := err, paddr := some paddr, hitOrMiss := hitOrMiss, state := s }
    else
      { err := .errNone
        paddr := some paddr
        hitOrMiss := hitOrMiss
        state :=
          { s with
            l1Itlb := l1Itlb
            l1Dtlb := invalidate s.l1Dtlb vaddr previouslyValid previousTag } }
  | .data =>
    let (err, l1Dtlb) := createAndInsertEntry s.l1Dtlb vaddr paddr
    if err ≠ .errNone then { err := err, paddr := some paddr, hitOrMiss := hitOrMiss, state := s }
    else
      { err := .errNone
        paddr := some paddr
        hitOrMiss := hitOrMiss
        state :=
          { s with
            l1Dtlb := l1Dtlb
            l1Itlb := invalidate s.l1Itlb vaddr previouslyValid previousTag } }

/-- `tlb_search`. -/
def tlbSearch (memSpace : Mem) (vaddr : VirtAddr) (access : MemAccess) (s : State) : TlbSearch :=
  match l1Hit vaddr access s with
  | some paddr => { err := .errNone, paddr := some paddr, hitOrMiss := hit, state := s }
  | none =>
    match tlbHit vaddr s.l2Tlb with
    | some paddr => fillL1 vaddr access paddr hit false 0 s
    | none =>
      match pageWalk memSpace vaddr with
      | .error _ => { err := .errMem, paddr := none, hitOrMiss := miss, state := s }
      | .ok paddr =>
        let line := addrLine .l2Tlb vaddr
        let entry := tlbEntryInit .l2Tlb vaddr paddr
        let previouslyValid := (s.l2Tlb line).v
        let previousTag := (s.l2Tlb line).tag.setWidth 32
        let (err, l2Tlb) := tlbInsert line entry s.l2Tlb
        if err ≠ .errNone then
          { err := err, paddr := some paddr, hitOrMiss := miss, state := s }
        else fillL1 vaddr access paddr miss previouslyValid previousTag { s with l2Tlb := l2Tlb }

/-- The flushed hierarchy. -/
def flushed : State :=
  { l1Itlb := tlbFlush .l1Itlb, l1Dtlb := tlbFlush .l1Dtlb, l2Tlb := tlbFlush .l2Tlb }

/-- A sequence of calls, each an address and the kind of its access. -/
def runSearches (memSpace : Mem) (s : State) (calls : List (VirtAddr × MemAccess)) : State :=
  calls.foldl (fun s call => (tlbSearch memSpace call.1 call.2 s).state) s

end MemoryHierarchy.TlbHrchy
