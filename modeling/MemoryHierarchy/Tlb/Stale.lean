import MemoryHierarchy.Lib.Since
import MemoryHierarchy.Tlb.Hierarchy

/-!
# Page tables that change

Nothing tells the TLBs that a page table has been written, so that a search may be answered with a
translation that is no longer the one of the walk. Here every search comes with a memory of its
own. Both L1 tables hold copies of what L2 holds, whatever happens to memory (`Copies.search`), and
the frame that L2 holds is the one of the walk of the search that filled it. So a search is
answered with the walk of the last search that missed on its page, in the memory of that one
(`answer_iff_since`).
-/

namespace MemoryHierarchy.TlbHrchy

open Lib Function

/-- A search, and the memory it is made in. -/
structure Search where
  memSpace : Mem
  vaddr : VirtAddr
  access : MemAccess

/-- `tlb_search`, in the memory of the search. -/
def Search.result (search : Search) (s : State) : TlbSearch :=
  tlbSearch search.memSpace search.vaddr search.access s

/-- The tables after searches, each in its own memory. -/
def runIn (s : State) (searches : List Search) : State :=
  searches.foldl (fun s search => (search.result s).state) s

/-- The pages searched. -/
def pagesIn (searches : List Search) : List ℕ := searches.map fun search => pageOf search.vaddr

/-- Every entry of L1 is a copy of the entry that L2 holds for its page. -/
def Copies (s : State) : Prop :=
  ∀ access i page, held (s.l1 access) i = some page →
    (s.l1 access i).phyPageNum = (s.l2Tlb (lineOf .l2Tlb page)).phyPageNum

variable {s : State} {vaddr : VirtAddr} {access : MemAccess} {pages : List ℕ}

theorem copies_flushed : Copies flushed := by
  intro access i page hheld
  cases access <;> cases hheld

/-- A hit answers with the frame of its entry. -/
theorem paddr_of_tlbHit {t : TlbT} {tlb : Table t} {paddr : PhyAddr}
    (h : tlbHit vaddr tlb = some paddr) :
    paddr = ⟨(tlb (addrLine t vaddr)).phyPageNum, vaddr.pageOffset⟩ := by
  rw [tlbHit_eq] at h
  exact (Option.some_injective _ (Option.ite_none_right_eq_some.mp h).2).symm

theorem phyPageNum_invalidate {t : TlbT} (tlb : Table t) (vaddr : VirtAddr)
    (previouslyValid : Bool) (previousTag : BitVec 32) (i : Fin t.lines) :
    (invalidate tlb vaddr previouslyValid previousTag i).phyPageNum = (tlb i).phyPageNum := by
  rw [invalidate]
  split
  · rcases eq_or_ne i (addrLine t vaddr) with rfl | hi
    · rw [update_self]
    · rw [update_of_ne hi]
  · rfl

/-- Filling an L1 table with what L2 holds. -/
theorem Copies.fill {tlb : Table (l1Type access)} {l2Tlb : Table .l2Tlb} {paddr : PhyAddr}
    (h : ∀ i page, held tlb i = some page → i ≠ addrLine _ vaddr →
      (tlb i).phyPageNum = (l2Tlb (lineOf .l2Tlb page)).phyPageNum)
    (hpaddr : paddr.phyPageNum = (l2Tlb (addrLine .l2Tlb vaddr)).phyPageNum) :
    ∀ i page, held (update tlb (addrLine _ vaddr) (tlbEntryInit _ vaddr paddr)) i = some page →
      (update tlb (addrLine _ vaddr) (tlbEntryInit _ vaddr paddr) i).phyPageNum =
        (l2Tlb (lineOf .l2Tlb page)).phyPageNum := by
  intro i page hheld
  rw [held_insert] at hheld
  rcases eq_or_ne i (addrLine _ vaddr) with rfl | hi
  · rw [update_self, Option.some_inj] at hheld
    rw [update_self, ← hheld]
    exact hpaddr
  · rw [update_of_ne hi] at hheld ⊢
    exact h i page hheld hi

/-- **One search** keeps the copies, whatever the memory. -/
theorem Copies.search (h : Copies s) (hinclusive : Inclusive pages s) (memSpace : Mem)
    (vaddr : VirtAddr) (access : MemAccess) :
    Copies (tlbSearch memSpace vaddr access s).state := by
  obtain ⟨paddr, hhit, hsearch⟩ | ⟨-, paddr, hhit, hsearch⟩ | ⟨-, hmiss, paddr, -, hsearch⟩ :=
    tlbSearch_cases memSpace vaddr access s
  · rw [hsearch]
    exact h
  · rw [hsearch]
    intro access'
    rw [fillL1_answer.2.2.2]
    rcases eq_or_ne access' access with rfl | hne
    · rw [fillL1_l1_self]
      exact Copies.fill (fun i page hheld _ => h access' i page hheld)
        (congrArg PhyAddr.phyPageNum (paddr_of_tlbHit hhit))
    · rw [fillL1_l1_of_ne hne]
      intro i page hkept
      rw [phyPageNum_invalidate]
      exact h access' i page (held_of_held_invalidate hkept).1
  · rw [hsearch]
    intro access'
    rw [fillL1_answer.2.2.2]
    rcases eq_or_ne access' access with rfl | hne
    · rw [fillL1_l1_self, l1_with_l2Tlb]
      dsimp only
      refine Copies.fill (fun i page hheld hi => ?_) (by rw [update_self]; rfl)
      -- what shares the line of L2 shares the line of L1, which is overwritten
      have hline : lineOf .l2Tlb page ≠ addrLine .l2Tlb vaddr := fun heq =>
        hi ((lineOf_of_held hheld).symm.trans (lineOf_l1Type_eq heq access'))
      rw [update_of_ne hline]
      exact h access' i page hheld
    · rw [fillL1_l1_of_ne hne, l1_with_l2Tlb]
      dsimp only
      intro i page hkept
      have hline : lineOf .l2Tlb page ≠ addrLine .l2Tlb vaddr :=
        lineOf_ne_of_kept (hinclusive.included access') hkept
      rw [phyPageNum_invalidate, update_of_ne hline]
      exact h access' i page (held_of_held_invalidate hkept).1

/-- **The answer** is what L2 holds for the page afterwards. -/
theorem Copies.answer (h : Copies s) (memSpace : Mem) (vaddr : VirtAddr) (access : MemAccess) :
    let r := tlbSearch memSpace vaddr access s
    r.paddr = some ⟨(r.state.l2Tlb (addrLine .l2Tlb vaddr)).phyPageNum, vaddr.pageOffset⟩ := by
  intro r
  obtain ⟨paddr, hhit, hsearch⟩ | ⟨-, paddr, hhit, hsearch⟩ | ⟨-, -, paddr, hwalk, hsearch⟩ :=
    tlbSearch_cases memSpace vaddr access s
  · have hcopy := h access _ _ (held_of_tlbHit_eq_some hhit)
    simp only [r, hsearch, paddr_of_tlbHit hhit, hcopy]
    rfl
  · simp only [r, hsearch, fillL1_answer, paddr_of_tlbHit hhit]
  · rw [pageWalk_eq, Except.ok.injEq] at hwalk
    simp only [r, hsearch, fillL1_answer, update_self, ← hwalk, tlbEntryInit]

/-- **L2 after a search**: as it was, if it held the page. -/
theorem Inclusive.l2Tlb_search (h : Inclusive pages s) (memSpace : Mem) (vaddr : VirtAddr)
    (access : MemAccess) :
    (tlbSearch memSpace vaddr access s).state.l2Tlb =
      if held s.l2Tlb (addrLine .l2Tlb vaddr) = some (pageOf vaddr) then s.l2Tlb
      else update s.l2Tlb (addrLine .l2Tlb vaddr)
        (tlbEntryInit .l2Tlb vaddr ⟨pageFrame memSpace vaddr, vaddr.pageOffset⟩) := by
  obtain ⟨paddr, hhit, hsearch⟩ | ⟨-, paddr, hhit, hsearch⟩ | ⟨-, hmiss, paddr, hwalk, hsearch⟩ :=
    tlbSearch_cases memSpace vaddr access s
  · have hl2 : held s.l2Tlb (addrLine .l2Tlb vaddr) = some (pageOf vaddr) :=
      h.included access _ _ (held_of_tlbHit_eq_some hhit)
    rw [hsearch, if_pos hl2]
  · rw [hsearch, fillL1_answer.2.2.2, if_pos (held_of_tlbHit_eq_some hhit)]
  · rw [pageWalk_eq, Except.ok.injEq] at hwalk
    rw [hsearch, fillL1_answer.2.2.2, if_neg (held_ne_of_tlbHit_eq_none hmiss), hwalk]

/-! ### Whole runs -/

theorem runIn_concat (s : State) (searches : List Search) (search : Search) :
    runIn s (searches ++ [search]) = (search.result (runIn s searches)).state := by
  rw [runIn, List.foldl_append]
  rfl

/-- Every run keeps the inclusion, and the copies. -/
theorem copies_runIn (searches : List Search) :
    Inclusive (pagesIn searches) (runIn flushed searches) ∧
      Copies (runIn flushed searches) := by
  induction searches using List.reverseRecOn with
  | nil => exact ⟨inclusive_flushed, copies_flushed⟩
  | append_singleton searches search ih =>
    rw [runIn_concat, pagesIn, List.map_append]
    exact ⟨(ih.1.search search.memSpace search.vaddr search.access).2,
      ih.2.search ih.1 search.memSpace search.vaddr search.access⟩

/-- A search that fills L2 with `page`, in `frame`: the one that L2 last held of its class was
another page. -/
def Fills (page : ℕ) (frame : BitVec 20) (before : List Search) (search : Search) : Prop :=
  pageOf search.vaddr = page ∧ lastIn (· % 64) (pagesIn before) (page % 64) ≠ some page ∧
    pageFrame search.memSpace search.vaddr = frame

/-- A search that leaves `page` in L2. -/
def Keeps (page : ℕ) (_before : List Search) (search : Search) : Prop :=
  pageOf search.vaddr % 64 = page % 64 → pageOf search.vaddr = page

/-- **What L2 holds**, with its frame, in terms of the searches. -/
theorem l2_iff_since (searches : List Search) (page : ℕ) (frame : BitVec 20) :
    (held (runIn flushed searches).l2Tlb (lineOf .l2Tlb page) = some page ∧
      ((runIn flushed searches).l2Tlb (lineOf .l2Tlb page)).phyPageNum = frame) ↔
      Since (Fills page frame) (Keeps page) searches := by
  refine iff_since (P := fun searches =>
    held (runIn flushed searches).l2Tlb (lineOf .l2Tlb page) = some page ∧
      ((runIn flushed searches).l2Tlb (lineOf .l2Tlb page)).phyPageNum = frame) ?_
    (fun searches search => ?_) searches
  · rintro ⟨hheld, -⟩
    cases hheld
  · obtain ⟨hinclusive, -⟩ := copies_runIn searches
    rw [runIn_concat, Fills, Keeps, ← lastIn_lineOf_l2Tlb, ← hinclusive.l2_held]
    generalize runIn flushed searches = s at hinclusive
    have hclass : pageOf search.vaddr % 64 = page % 64 ↔
        lineOf .l2Tlb page = addrLine .l2Tlb search.vaddr := by
      rw [addrLine_eq, eq_comm (a := lineOf _ _), lineOf, lineOf, Fin.mk.injEq]
      rfl
    rw [Search.result, hinclusive.l2Tlb_search, hclass]
    by_cases hl2 : held s.l2Tlb (addrLine .l2Tlb search.vaddr) = some (pageOf search.vaddr)
    · rw [if_pos hl2]
      constructor
      · intro hheld
        refine .inr ⟨hheld, fun hline => ?_⟩
        rw [hline, hl2] at hheld
        exact Option.some_injective _ hheld.1
      · rintro (⟨rfl, hnot, -⟩ | ⟨hheld, -⟩)
        · exact absurd hl2 hnot
        · exact hheld
    · rw [if_neg hl2]
      rcases eq_or_ne (lineOf .l2Tlb page) (addrLine .l2Tlb search.vaddr) with hline | hline
      · rw [held_insert, hline, update_self, update_self, Option.some_inj]
        constructor
        · rintro ⟨rfl, hframe⟩
          exact .inl ⟨rfl, hl2, hframe⟩
        · rintro (⟨hpage, -, hframe⟩ | ⟨⟨hheld, -⟩, hsame⟩)
          · exact ⟨hpage, hframe⟩
          · rw [hsame rfl] at hl2
            exact absurd hheld hl2
      · rw [held_insert, update_of_ne hline, update_of_ne hline]
        constructor
        · exact fun hheld => .inr ⟨hheld, fun heq => absurd heq hline⟩
        · rintro (⟨rfl, -⟩ | ⟨hheld, -⟩)
          · exact absurd rfl hline
          · exact hheld

/-- **Answers may be stale, and how.** After any sequence of searches, each in a memory of its own,
the next one is answered with a frame if and only if that is the frame of the walk of the search
that last filled L2 with the page, in the memory of that search: it is this one or an earlier one,
it found another page in place of the page, and no search since was for another page of the
class. -/
theorem answer_iff_since (searches : List Search) (search : Search) (frame : BitVec 20) :
    (search.result (runIn flushed searches)).paddr = some ⟨frame, search.vaddr.pageOffset⟩ ↔
      Since (Fills (pageOf search.vaddr) frame) (Keeps (pageOf search.vaddr))
        (searches ++ [search]) := by
  have hheld := (copies_runIn (searches ++ [search])).1.l2_held
  have hanswer := (copies_runIn searches).2.answer search.memSpace search.vaddr search.access
  rw [← l2_iff_since, hheld, pagesIn, List.map_append, List.map_singleton, lastIn_concat,
    update_self, and_iff_right rfl, runIn_concat, Search.result, hanswer, Option.some_inj,
    PhyAddr.mk.injEq, and_iff_left rfl, addrLine_eq]

end MemoryHierarchy.TlbHrchy
