import MemoryHierarchy.Lib.Local
import MemoryHierarchy.Tlb.Stale
import Mathlib.Data.Set.Restrict

/-!
# Interleavings of searches

The number of L2 lines is a multiple of the number of L1 lines, so the tables fall into 16 parts:
line `k` of both L1 tables, and the lines of L2 congruent to `k`. A search stays within the part of
its page (`localTo_search`): what it displaces from L2 shares the L1 line, which is all that the
cross-invalidation looks at. So how the searches of different parts are interleaved cannot be told
from the tables or from any answer (`interleaved_searches`).
-/

namespace MemoryHierarchy.TlbHrchy

open Lib Function

/-- Part `k` of the tables: line `k` of the L1 tables, and the L2 lines that go with it. -/
@[ext]
structure TablePart (k : ℕ) where
  l1 : (access : MemAccess) → {i : Fin (l1Type access).lines | i.val = k} → TlbEntry (l1Type access)
  l2Tlb : {j : Fin TlbT.l2Tlb.lines | j.val % 16 = k} → TlbEntry .l2Tlb

/-- One part of the tables. -/
def State.part (k : ℕ) (s : State) : TablePart k where
  l1 access := Set.domRestrict _ (s.l1 access)
  l2Tlb := Set.domRestrict _ s.l2Tlb

variable {k : ℕ} {s s' : State} {vaddr : VirtAddr} {access : MemAccess}

theorem State.part_eq_iff :
    s.part k = s'.part k ↔
      (∀ access (i : Fin (l1Type access).lines), i.val = k → s.l1 access i = s'.l1 access i) ∧
        ∀ j : Fin TlbT.l2Tlb.lines, j.val % 16 = k → s.l2Tlb j = s'.l2Tlb j := by
  rw [TablePart.ext_iff, funext_iff]
  exact and_congr (forall_congr' fun _ => Set.domRestrict_eq_domRestrict_iff)
    Set.domRestrict_eq_domRestrict_iff

/-- The parts determine the tables. -/
theorem State.eq_of_parts (h : ∀ k, s.part k = s'.part k) : s = s' := by
  have hparts := fun k => State.part_eq_iff.mp (h k)
  have hl1 := fun access i => (hparts i.val).1 access i rfl
  obtain ⟨l1Itlb, l1Dtlb, l2Tlb⟩ := s
  obtain ⟨l1Itlb', l1Dtlb', l2Tlb'⟩ := s'
  obtain rfl : l1Itlb = l1Itlb' := funext (hl1 .instruction)
  obtain rfl : l1Dtlb = l1Dtlb' := funext (hl1 .data)
  obtain rfl : l2Tlb = l2Tlb' := funext fun j => (hparts (j.val % 16)).2 j rfl
  rfl

/-! ### One search -/

theorem addrLine_l1Type_val (access : MemAccess) (vaddr : VirtAddr) :
    (addrLine (l1Type access) vaddr).val = pageOf vaddr % 16 := by
  cases access <;> rfl

theorem addrLine_l2Tlb_mod (vaddr : VirtAddr) :
    (addrLine .l2Tlb vaddr).val % 16 = pageOf vaddr % 16 :=
  Nat.mod_mod_of_dvd _ (by decide)

theorem invalidate_of_ne {t : TlbT} (tlb : Table t) {previouslyValid : Bool}
    {previousTag : BitVec 32} {i : Fin t.lines} (hi : i ≠ addrLine t vaddr) :
    invalidate tlb vaddr previouslyValid previousTag i = tlb i := by
  rw [invalidate]
  split
  · rw [update_of_ne hi]
  · rfl

/-- `invalidate` looks at one line only. -/
theorem invalidate_congr {t : TlbT} {tlb tlb' : Table t} (previouslyValid : Bool)
    (previousTag : BitVec 32) (h : tlb (addrLine t vaddr) = tlb' (addrLine t vaddr)) :
    invalidate tlb vaddr previouslyValid previousTag (addrLine t vaddr) =
      invalidate tlb' vaddr previouslyValid previousTag (addrLine t vaddr) := by
  simp only [invalidate, h]
  split
  · rw [update_self, update_self]
  · exact h

/-- A lookup looks at one line only. -/
theorem tlbHit_congr {t : TlbT} {tlb tlb' : Table t}
    (h : tlb (addrLine t vaddr) = tlb' (addrLine t vaddr)) :
    tlbHit vaddr tlb = tlbHit vaddr tlb' := by
  simp only [tlbHit, h]

/-- What a search hands back. -/
def TlbSearch.answer (r : TlbSearch) : ErrorCode × Option PhyAddr × ℕ :=
  (r.err, r.paddr, r.hitOrMiss)

/-- A search, as a step on the tables. -/
def searchStep (s : State) (search : Search) : State × (ErrorCode × Option PhyAddr × ℕ) :=
  ((search.result s).state, (search.result s).answer)

/-- Filling L1 is local to the part of the page. -/
theorem localTo_fillL1 (vaddr : VirtAddr) (access : MemAccess) (paddr : PhyAddr) (hitOrMiss : ℕ)
    (previouslyValid : Bool) (previousTag : BitVec 32) :
    LocalTo State.part (pageOf vaddr % 16) fun s =>
      ((fillL1 vaddr access paddr hitOrMiss previouslyValid previousTag s).state,
        (fillL1 vaddr access paddr hitOrMiss previouslyValid previousTag s).answer) where
  frame s k hk := by
    refine State.part_eq_iff.mpr ⟨fun access' i hi => ?_, fun j _ => by rw [fillL1_answer.2.2.2]⟩
    have hne : i ≠ addrLine (l1Type access') vaddr := by
      rintro rfl
      exact hk (hi.symm.trans (addrLine_l1Type_val access' vaddr))
    rcases eq_or_ne access' access with rfl | ha
    · rw [fillL1_l1_self, update_of_ne hne]
    · rw [fillL1_l1_of_ne ha, invalidate_of_ne _ hne]
  determined s s' h := by
    obtain ⟨hl1, hl2⟩ := State.part_eq_iff.mp h
    refine ⟨State.part_eq_iff.mpr ⟨fun access' i hi => ?_, fun j hj => ?_⟩, ?_⟩
    · obtain rfl : i = addrLine (l1Type access') vaddr :=
        Fin.ext (hi.trans (addrLine_l1Type_val access' vaddr).symm)
      rcases eq_or_ne access' access with rfl | ha
      · rw [fillL1_l1_self, fillL1_l1_self, update_self, update_self]
      · rw [fillL1_l1_of_ne ha, fillL1_l1_of_ne ha]
        exact invalidate_congr _ _ (hl1 access' _ hi)
    · rw [fillL1_answer.2.2.2, fillL1_answer.2.2.2]
      exact hl2 j hj
    · simp only [TlbSearch.answer, fillL1_answer]

/-- Filling L2, with what it displaces. -/
theorem localTo_fillL2 (vaddr : VirtAddr) (entry : TlbEntry .l2Tlb) :
    LocalTo State.part (pageOf vaddr % 16) fun s =>
      ({ s with l2Tlb := update s.l2Tlb (addrLine .l2Tlb vaddr) entry },
        s.l2Tlb (addrLine .l2Tlb vaddr)) where
  frame s k hk := by
    refine State.part_eq_iff.mpr ⟨fun access' i _ => by rw [l1_with_l2Tlb], fun j hj => ?_⟩
    refine update_of_ne ?_ _ _
    rintro rfl
    exact hk (hj.symm.trans (addrLine_l2Tlb_mod vaddr))
  determined s s' h := by
    obtain ⟨hl1, hl2⟩ := State.part_eq_iff.mp h
    refine ⟨State.part_eq_iff.mpr ⟨fun access' i hi => ?_, fun j hj => ?_⟩,
      hl2 _ (addrLine_l2Tlb_mod vaddr)⟩
    · rw [l1_with_l2Tlb, l1_with_l2Tlb]
      exact hl1 access' i hi
    · change update _ _ _ j = update _ _ _ j
      rw [update_apply, update_apply, hl2 j hj]

/-- A search whose lookups in L1 and in L2 found what is given. -/
def searchFound (search : Search) : Option PhyAddr × Option PhyAddr → State →
    State × (ErrorCode × Option PhyAddr × ℕ)
  | (some paddr, _), s => (s, .errNone, some paddr, hit)
  | (none, some paddr), s =>
    ((fillL1 search.vaddr search.access paddr hit false 0 s).state,
      (fillL1 search.vaddr search.access paddr hit false 0 s).answer)
  | (none, none), s =>
    let paddr := ⟨pageFrame search.memSpace search.vaddr, search.vaddr.pageOffset⟩
    let lost := s.l2Tlb (addrLine .l2Tlb search.vaddr)
    let s := { s with
      l2Tlb := update s.l2Tlb (addrLine .l2Tlb search.vaddr)
        (tlbEntryInit .l2Tlb search.vaddr paddr) }
    let r := fillL1 search.vaddr search.access paddr miss lost.v (lost.tag.setWidth 32) s
    (r.state, r.answer)

theorem searchStep_eq (s : State) (search : Search) :
    searchStep s search =
      searchFound search
        (tlbHit search.vaddr (s.l1 search.access), tlbHit search.vaddr s.l2Tlb) s := by
  obtain ⟨paddr, hhit, hsearch⟩ | ⟨hmiss, paddr, hhit, hsearch⟩ |
      ⟨hmiss, hmiss2, paddr, hwalk, hsearch⟩ :=
    tlbSearch_cases search.memSpace search.vaddr search.access s
  · simp only [searchStep, Search.result, hsearch, hhit, searchFound, TlbSearch.answer]
  · simp only [searchStep, Search.result, hsearch, hmiss, hhit, searchFound]
  · rw [pageWalk_eq, Except.ok.injEq] at hwalk
    simp only [searchStep, Search.result, hsearch, hmiss, hmiss2, searchFound, hwalk]

/-- **A search is local** to the part of its page, whatever the tables hold. -/
theorem localTo_search (search : Search) :
    LocalTo State.part (pageOf search.vaddr % 16) fun s => searchStep s search := by
  simp only [searchStep_eq]
  refine LocalTo.choose (fun s s' h => ?_) fun found => ?_
  · obtain ⟨hl1, hl2⟩ := State.part_eq_iff.mp h
    rw [tlbHit_congr (hl1 search.access _ (addrLine_l1Type_val search.access search.vaddr)),
      tlbHit_congr (hl2 _ (addrLine_l2Tlb_mod search.vaddr))]
  · rcases found with ⟨_ | paddr, _ | paddr'⟩
    · -- what L2 has lost is handed over to the cross-invalidation
      exact (localTo_fillL2 search.vaddr _).andThen fun lost => localTo_fillL1 search.vaddr
        search.access _ miss lost.v (lost.tag.setWidth 32)
    · exact localTo_fillL1 search.vaddr search.access paddr' hit false 0
    · exact localTo_refused _ _ _
    · exact localTo_refused _ _ _

/-! ### Whole runs -/

/-- **Interleavings agree.** From tables with any contents, two sequences that have the same
searches in each of the 16 parts, in the same order, leave the same tables, and the searches of each
part get the same answers. -/
theorem interleaved_searches (s : State) {searches searches' : List Search}
    (h : ∀ k, (searches.filter fun search => pageOf search.vaddr % 16 = k) =
      searches'.filter fun search => pageOf search.vaddr % 16 = k) :
    runIn s searches = runIn s searches' ∧
      ∀ k, (transcript searchStep s searches).filter (fun x => pageOf x.1.vaddr % 16 = k) =
        (transcript searchStep s searches').filter fun x => pageOf x.1.vaddr % 16 = k := by
  refine ⟨run_eq_of_filter_eq localTo_search (fun _ _ => State.eq_of_parts) h s, fun k => ?_⟩
  rw [transcript_filter localTo_search rfl searches, transcript_filter localTo_search rfl searches',
    h]

/-- Page 0 is displaced by page 64 in L2; a search for page 1 may come at any time. -/
theorem interleaved_searches_displaced :
    runIn flushed
        [⟨fun _ => 0, ⟨0, 0, 0, 0, 0, 0⟩, .data⟩, ⟨fun _ => 0, ⟨0, 0, 0, 0, 1, 0⟩, .data⟩,
          ⟨fun _ => 0, ⟨0, 0, 0, 0, 64, 0⟩, .instruction⟩] =
      runIn flushed
        [⟨fun _ => 0, ⟨0, 0, 0, 0, 0, 0⟩, .data⟩, ⟨fun _ => 0, ⟨0, 0, 0, 0, 64, 0⟩, .instruction⟩,
          ⟨fun _ => 0, ⟨0, 0, 0, 0, 1, 0⟩, .data⟩] := by
  refine (interleaved_searches _ fun k => ?_).1
  have h0 : pageOf ⟨0, 0, 0, 0, 0, 0⟩ % 16 = 0 := by decide
  have h1 : pageOf ⟨0, 0, 0, 0, 1, 0⟩ % 16 = 1 := by decide
  have h64 : pageOf ⟨0, 0, 0, 0, 64, 0⟩ % 16 = 0 := by decide
  simp only [List.filter_cons, h0, h1, h64]
  by_cases hk : 1 = k
  · subst hk
    rfl
  · simp [hk]

end MemoryHierarchy.TlbHrchy
