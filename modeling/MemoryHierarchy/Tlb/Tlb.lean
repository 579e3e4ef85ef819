import MemoryHierarchy.Addr.PageWalk
import MemoryHierarchy.Tlb.LinkedList

/-!
# The fully associative TLB

`tlb.h` and `tlb_mng.c`. The lines are looked up in the order of the replacement list, from its
back; a hit moves the node of its line to the back, a miss overwrites the line of the front node
and moves that node. The list is reached through pointers, so a call may have no result: `none`
stands for an invalid dereference and for a walk that is longer than `fuel` nodes.
-/

namespace MemoryHierarchy.Tlb

open Lib Function

/-- `TLB_LINES`. -/
abbrev tlbLines : ℕ := 128

/-- `tlb_entry_t`. -/
structure TlbEntry where
  tag : BitVec 36
  phyPageNum : BitVec 20
  v : Bool
  deriving DecidableEq

/-- The lines of the TLB. -/
abbrev Table := Fin tlbLines → TlbEntry

/-- `replacement_policy_t`. -/
structure ReplacementPolicy where
  ll : ListT
  pushBack : Heap → Option Ptr → ListT → ListContent → Option (Heap × ListT × Option Ptr)
  moveBack : Heap → ListT → Option Ptr → Option (Heap × ListT)

/-- What a call may change. -/
structure State where
  tlb : Table
  heap : Heap
  replacementPolicy : ReplacementPolicy

/-- `tlb_flush`. -/
def tlbFlush : Table := fun _ => { tag := 0, phyPageNum := 0, v := false }

/-! ### Lookup -/

/-- What `tlb_hit` returns, what it stores in `*paddr`, and the state after it. -/
structure TlbHit where
  returned : ℕ
  paddr : Option PhyAddr
  state : State

/-- The loop of `tlb_hit`, at node `n`. -/
def tlbHitLoop (vaddr : VirtAddr) (s : State) : ℕ → Option Ptr → Option TlbHit
  | _, none => some { returned := 0, paddr := none, state := s }
  | 0, some _ => none
  | fuel + 1, some n => do
    let node ← s.heap n
    if h : node.value.toNat < tlbLines then
      let entry := s.tlb ⟨node.value.toNat, h⟩
      if entry.tag.setWidth 64 = virtAddrToVirtualPageNumber vaddr ∧ entry.v then
        match initPhyAddr (entry.phyPageNum.setWidth 32 <<< pageOffsetBits)
            (vaddr.pageOffset.setWidth 32) with
        -- the error code is returned where the caller expects hit or miss
        | .error err => some { returned := err.code, paddr := none, state := s }
        | .ok paddr => do
          let (heap, ll) ← s.replacementPolicy.moveBack s.heap s.replacementPolicy.ll (some n)
          some
            { returned := 1
              paddr := some paddr
              state :=
                { s with
                  heap := heap
                  replacementPolicy := { s.replacementPolicy with ll := ll } } }
      else tlbHitLoop vaddr s fuel node.previous
    else some { returned := 0, paddr := none, state := s }

/-- `tlb_hit`. -/
def tlbHit (fuel : ℕ) (vaddr : VirtAddr) (s : State) : Option TlbHit :=
  tlbHitLoop vaddr s fuel s.replacementPolicy.ll.back

/-! ### Insertion -/

/-- `tlb_insert`. -/
def tlbInsert (lineIndex : BitVec 32) (tlbEntry : TlbEntry) (tlb : Table) : ErrorCode × Table :=
  if h : lineIndex.toNat < tlbLines then
    (.errNone, update tlb ⟨lineIndex.toNat, h⟩ tlbEntry)
  else (.errBadParameter, tlb)

theorem tlbInsert_eq {lineIndex : BitVec 32} (h : lineIndex.toNat < tlbLines)
    (tlbEntry : TlbEntry) (tlb : Table) :
    tlbInsert lineIndex tlbEntry tlb =
      (.errNone, update tlb ⟨lineIndex.toNat, h⟩ tlbEntry) :=
  dif_pos h

/-- `tlb_entry_init`. -/
def tlbEntryInit (vaddr : VirtAddr) (paddr : PhyAddr) : TlbEntry :=
  { tag := (virtAddrToVirtualPageNumber vaddr).setWidth 36
    phyPageNum := paddr.phyPageNum
    v := true }

/-! ### Search -/

/-- What `tlb_search` returns, what it stores in `*paddr` and in `*hit_or_miss`, and the state
after it. -/
structure TlbSearch where
  err : ErrorCode
  paddr : Option PhyAddr
  hitOrMiss : Option ℕ
  state : State

/-- The part of `tlb_search` after a miss. -/
def tlbMiss (memSpace : Mem) (vaddr : VirtAddr) (s : State) : Option TlbSearch :=
  match pageWalk memSpace vaddr with
  | .error err => some { err := err, paddr := none, hitOrMiss := some 0, state := s }
  | .ok paddr => do
    let front ← s.replacementPolicy.ll.front
    let node ← s.heap front
    let head := node.value
    if head.toNat < tlbLines then
      -- the error code of the insertion is not looked at
      let (_, tlb) := tlbInsert head (tlbEntryInit vaddr paddr) s.tlb
      let (heap, ll) ← s.replacementPolicy.moveBack s.heap s.replacementPolicy.ll
        s.replacementPolicy.ll.front
      some
        { err := .errNone
          paddr := some paddr
          hitOrMiss := some 0
          state :=
            { tlb := tlb
              heap := heap
              replacementPolicy := { s.replacementPolicy with ll := ll } } }
    else some { err := .errBadParameter, paddr := some paddr, hitOrMiss := some 0, state := s }

/-- `tlb_search`. -/
def tlbSearch (fuel : ℕ) (memSpace : Mem) (vaddr : VirtAddr) (s : State) : Option TlbSearch :=
  if s.replacementPolicy.ll.front = none then
    some { err := .errBadParameter, paddr := none, hitOrMiss := none, state := s }
  else do
    let hit ← tlbHit fuel vaddr s
    if hit.returned = 0 then tlbMiss memSpace vaddr hit.state
    else
      some
        { err := .errNone
          paddr := hit.paddr
          hitOrMiss := some hit.returned
          state := hit.state }

/-- A sequence of calls, whatever they return. -/
def runSearches (fuel : ℕ) (memSpace : Mem) (s : State) (vaddrs : List VirtAddr) : Option State :=
  vaddrs.foldlM (fun s vaddr => (tlbSearch fuel memSpace vaddr s).map TlbSearch.state) s

/-! ### The setup of the test program -/

/-- The replacement policy of `list.c`. -/
def listPolicy (ll : ListT) : ReplacementPolicy :=
  { ll := ll, pushBack := pushBack, moveBack := moveBack }

/-- The loop that fills a list with the first `n` line indices, each in a node of its own. -/
def fillList : ℕ → Option (Heap × ListT)
  | 0 => some (fun _ => none, initList)
  | n + 1 => do
    let (heap, ll) ← fillList n
    let (heap, ll, _) ← pushBack heap (some n) ll (BitVec.ofNat 32 n)
    some (heap, ll)

/-- The nodes of the list so filled. -/
def filledNodes (n : ℕ) : List (Ptr × ListContent) :=
  (List.range n).map fun i => (i, BitVec.ofNat 32 i)

@[simp]
theorem length_filledNodes (n : ℕ) : (filledNodes n).length = n := by simp [filledNodes]

/-- **The setup succeeds** and gives a well-formed list. -/
theorem exists_fillList (n : ℕ) :
    ∃ heap ll, fillList n = some (heap, ll) ∧ ll.Represents heap (filledNodes n) := by
  induction n with
  | zero => exact ⟨_, _, rfl, represents_initList _⟩
  | succ n ih =>
    obtain ⟨heap, ll, hfill, hll⟩ := ih
    have hfree : n ∉ (filledNodes n).map Prod.fst := by
      simp [filledNodes, Function.comp_def]
    obtain ⟨heap', ll', hpush, hll', -⟩ := hll.pushBack hfree (BitVec.ofNat 32 n)
    refine ⟨heap', ll', by simp [fillList, hfill, hpush], ?_⟩
    rw [filledNodes, List.range_succ, List.map_append]
    exact hll'

end MemoryHierarchy.Tlb
