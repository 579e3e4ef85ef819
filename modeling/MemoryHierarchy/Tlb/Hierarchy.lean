import MemoryHierarchy.Lib.DirectMapped
import MemoryHierarchy.Lib.Run
import MemoryHierarchy.Tlb.Held

/-!
# The hierarchy translates, and is inclusive

One search has three outcomes (`tlbSearch_cases`): a hit in its own L1 table, which changes
nothing; a hit in L2, which fills that L1 table; a miss in both, which fills L2 and the L1 table
and invalidates in the other one. Whatever the outcome the answer is that of the walk, L2 holds
the last page searched in each of its classes, and the L1 tables are included in L2: an entry that
L2 displaces shares its L1 line with the new page, so the own L1 table overwrites it and the other
one finds it by its tag.
-/

namespace MemoryHierarchy.TlbHrchy

open Lib Function

/-- The L1 table of an access. -/
def l1Type : MemAccess → TlbT
  | .instruction => .l1Itlb
  | .data => .l1Dtlb

/-- The L1 table an access looks into. -/
def State.l1 (s : State) : (access : MemAccess) → Table (l1Type access)
  | .instruction => s.l1Itlb
  | .data => s.l1Dtlb

variable {memSpace : Mem} {s : State} {vaddr : VirtAddr} {access access' : MemAccess}

/-! ### What one search can do -/

section FillL1

variable {paddr : PhyAddr} {hitOrMiss : ℕ} {previouslyValid : Bool} {previousTag : BitVec 32}

theorem fillL1_answer :
    let r := fillL1 vaddr access paddr hitOrMiss previouslyValid previousTag s
    r.err = .errNone ∧ r.paddr = some paddr ∧ r.hitOrMiss = hitOrMiss ∧
      r.state.l2Tlb = s.l2Tlb := by
  cases access <;> simp [fillL1, createAndInsertEntry, tlbInsert_eq]

theorem fillL1_l1_self :
    (fillL1 vaddr access paddr hitOrMiss previouslyValid previousTag s).state.l1 access =
      update (s.l1 access) (addrLine _ vaddr) (tlbEntryInit _ vaddr paddr) := by
  cases access <;> simp only [fillL1, createAndInsertEntry, tlbInsert_eq] <;> rfl

theorem fillL1_l1_of_ne (h : access' ≠ access) :
    (fillL1 vaddr access paddr hitOrMiss previouslyValid previousTag s).state.l1 access' =
      invalidate (s.l1 access') vaddr previouslyValid previousTag := by
  cases access <;> cases access' <;>
    first
    | exact absurd rfl h
    | simp only [fillL1, createAndInsertEntry, tlbInsert_eq]; rfl

end FillL1

/-- **One search**: a hit in its L1 table, a hit in L2, or a miss in both. -/
theorem tlbSearch_cases (memSpace : Mem) (vaddr : VirtAddr) (access : MemAccess) (s : State) :
    (∃ paddr, tlbHit vaddr (s.l1 access) = some paddr ∧
      tlbSearch memSpace vaddr access s =
        { err := .errNone, paddr := some paddr, hitOrMiss := hit, state := s }) ∨
    (tlbHit vaddr (s.l1 access) = none ∧ ∃ paddr, tlbHit vaddr s.l2Tlb = some paddr ∧
      tlbSearch memSpace vaddr access s = fillL1 vaddr access paddr hit false 0 s) ∨
    (tlbHit vaddr (s.l1 access) = none ∧ tlbHit vaddr s.l2Tlb = none ∧
      ∃ paddr, pageWalk memSpace vaddr = .ok paddr ∧
        tlbSearch memSpace vaddr access s =
          fillL1 vaddr access paddr miss (s.l2Tlb (addrLine .l2Tlb vaddr)).v
            ((s.l2Tlb (addrLine .l2Tlb vaddr)).tag.setWidth 32)
            { s with
              l2Tlb := update s.l2Tlb (addrLine .l2Tlb vaddr)
                (tlbEntryInit .l2Tlb vaddr paddr) }) := by
  have hl1 : l1Hit vaddr access s = tlbHit vaddr (s.l1 access) := by cases access <;> rfl
  cases h1 : tlbHit vaddr (s.l1 access) with
  | some paddr =>
    left
    refine ⟨paddr, rfl, ?_⟩
    simp only [tlbSearch, hl1, h1]
  | none =>
    right
    cases h2 : tlbHit vaddr s.l2Tlb with
    | some paddr =>
      left
      refine ⟨rfl, paddr, rfl, ?_⟩
      simp only [tlbSearch, hl1, h1, h2]
    | none =>
      right
      refine ⟨rfl, rfl, _, pageWalk_eq memSpace vaddr, ?_⟩
      simp only [tlbSearch, hl1, h1, h2, pageWalk_eq, tlbInsert_eq]
      rfl

/-! ### Translation -/

/-- The entries of all three tables map their pages to the frames of the walk. -/
structure Translates (memSpace : Mem) (s : State) : Prop where
  l1 : ∀ access, Framed memSpace (s.l1 access)
  l2Tlb : Framed memSpace s.l2Tlb

theorem translates_flushed (memSpace : Mem) : Translates memSpace flushed :=
  ⟨fun access => by cases access <;> exact framed_tlbFlush memSpace _,
    framed_tlbFlush memSpace .l2Tlb⟩

theorem l1_with_l2Tlb (s : State) (l2Tlb : Table .l2Tlb) (access : MemAccess) :
    ({ s with l2Tlb := l2Tlb } : State).l1 access = s.l1 access := by
  cases access <;> rfl

/-- Filling L1 with a translated address. -/
theorem Translates.fillL1 (h : Translates memSpace s) {paddr : PhyAddr}
    (hwalk : pageWalk memSpace vaddr = .ok paddr) (access : MemAccess) (hitOrMiss : ℕ)
    (previouslyValid : Bool) (previousTag : BitVec 32) :
    Translates memSpace
      (fillL1 vaddr access paddr hitOrMiss previouslyValid previousTag s).state := by
  refine ⟨fun access' => ?_, ?_⟩
  · rcases eq_or_ne access' access with rfl | hne
    · rw [fillL1_l1_self]
      exact (h.l1 access').insert hwalk
    · rw [fillL1_l1_of_ne hne]
      exact (h.l1 access').invalidate vaddr previouslyValid previousTag
  · rw [fillL1_answer.2.2.2]
    exact h.l2Tlb

/-- **One search** answers with the walk, and the tables go on translating. -/
theorem Translates.search (h : Translates memSpace s) (vaddr : VirtAddr) (access : MemAccess) :
    (tlbSearch memSpace vaddr access s).err = .errNone ∧
      (∃ paddr, (tlbSearch memSpace vaddr access s).paddr = some paddr ∧
        pageWalk memSpace vaddr = .ok paddr) ∧
      Translates memSpace (tlbSearch memSpace vaddr access s).state := by
  obtain ⟨paddr, hhit, hsearch⟩ | ⟨-, paddr, hhit, hsearch⟩ | ⟨-, -, paddr, hwalk, hsearch⟩ :=
    tlbSearch_cases memSpace vaddr access s
  · rw [hsearch]
    exact ⟨rfl, ⟨paddr, rfl, (h.l1 access).tlbHit hhit⟩, h⟩
  · have hwalk := h.l2Tlb.tlbHit hhit
    rw [hsearch]
    exact ⟨fillL1_answer.1, ⟨paddr, fillL1_answer.2.1, hwalk⟩, h.fillL1 hwalk _ _ _ _⟩
  · rw [hsearch]
    refine ⟨fillL1_answer.1, ⟨paddr, fillL1_answer.2.1, hwalk⟩, Translates.fillL1 ?_ hwalk _ _ _ _⟩
    refine ⟨fun access' => ?_, h.l2Tlb.insert hwalk⟩
    rw [l1_with_l2Tlb]
    exact h.l1 access'

/-- **The hierarchy translates.** Whatever was searched before, through either L1 table, a search
succeeds with the address the walk computes. -/
theorem tlb_translates (memSpace : Mem) (calls : List (VirtAddr × MemAccess)) (vaddr : VirtAddr)
    (access : MemAccess) :
    let r := tlbSearch memSpace vaddr access (runSearches memSpace flushed calls)
    r.err = .errNone ∧ ∃ paddr, r.paddr = some paddr ∧ pageWalk memSpace vaddr = .ok paddr := by
  have h : Translates memSpace (runSearches memSpace flushed calls) :=
    run_invariant_of_step (translates_flushed memSpace)
      (fun s call hs => (hs.search call.1 call.2).2.2) calls
  obtain ⟨herr, hpaddr, -⟩ := h.search vaddr access
  exact ⟨herr, hpaddr⟩

/-! ### Inclusion -/

/-- L2 holds the last page searched of each of its lines, and the L1 tables are included in
it. -/
structure Inclusive (pages : List ℕ) (s : State) : Prop where
  l2_held : held s.l2Tlb = lastIn (lineOf .l2Tlb) pages
  included : ∀ access, Included (lineOf .l2Tlb) (held (s.l1 access)) (held s.l2Tlb)

theorem inclusive_flushed : Inclusive [] flushed := by
  refine ⟨rfl, fun access i page hheld => ?_⟩
  cases access <;> cases hheld

/-- Pages that share a line of L2 share a line of either L1 table. -/
theorem lineOf_l1Type_eq {page page' : ℕ} (h : lineOf .l2Tlb page = lineOf .l2Tlb page')
    (access : MemAccess) : lineOf (l1Type access) page = lineOf (l1Type access) page' := by
  have h64 : page % 64 = page' % 64 := Fin.mk.inj h
  refine Fin.ext ?_
  cases access
  · change page % 16 = page' % 16
    omega
  · change page % 16 = page' % 16
    omega

/-- The tag of an L1 entry without its two low bits is the tag the page would have in L2. -/
theorem div_lines_l1Type (page : ℕ) (access : MemAccess) :
    page / (l1Type access).lines / 4 = page / TlbT.lines .l2Tlb := by
  cases access <;> exact Nat.div_div_eq_div_mul page 16 4

/-- **The other L1 table gives up what L2 displaces**: what it keeps shares no line of L2 with the
new page. -/
theorem lineOf_ne_of_kept
    (h : Included (lineOf .l2Tlb) (held (s.l1 access)) (held s.l2Tlb))
    {i : Fin (l1Type access).lines} {page : ℕ}
    (hkept : held (invalidate (s.l1 access) vaddr (s.l2Tlb (addrLine .l2Tlb vaddr)).v
      ((s.l2Tlb (addrLine .l2Tlb vaddr)).tag.setWidth 32)) i = some page) :
    lineOf .l2Tlb page ≠ lineOf .l2Tlb (pageOf vaddr) := by
  obtain ⟨hheld, hnot⟩ := held_of_held_invalidate hkept
  intro hline
  -- the page is the one L2 holds at that line, so it is what the invalidation looks for
  have hl2 := h i page hheld
  rw [hline, ← addrLine_eq, held_eq_some_iff] at hl2
  refine hnot ⟨hl2.1, ?_, ?_⟩
  · rw [addrLine_eq, ← lineOf_l1Type_eq hline, lineOf_of_held hheld]
  · rw [div_lines_l1Type, toNat_setWidth_tag, hl2.2.1]

/-- **One search** keeps both, and hits exactly when L2 holds the page. -/
theorem Inclusive.search {pages : List ℕ} (h : Inclusive pages s) (memSpace : Mem)
    (vaddr : VirtAddr) (access : MemAccess) :
    ((tlbSearch memSpace vaddr access s).hitOrMiss = hit ↔
      held s.l2Tlb (addrLine .l2Tlb vaddr) = some (pageOf vaddr)) ∧
    Inclusive (pages ++ [pageOf vaddr]) (tlbSearch memSpace vaddr access s).state := by
  obtain ⟨paddr, hhit, hsearch⟩ | ⟨-, paddr, hhit, hsearch⟩ | ⟨-, hmiss, paddr, -, hsearch⟩ :=
    tlbSearch_cases memSpace vaddr access s
  · -- what its L1 table holds, L2 holds too
    have hl2 : held s.l2Tlb (addrLine .l2Tlb vaddr) = some (pageOf vaddr) :=
      h.included access _ _ (held_of_tlbHit_eq_some hhit)
    rw [hsearch]
    refine ⟨iff_of_true rfl hl2, ?_, h.included⟩
    rw [lastIn_concat_of_eq (h.l2_held ▸ hl2)]
    exact h.l2_held
  · have hl2 := held_of_tlbHit_eq_some hhit
    rw [hsearch]
    refine ⟨iff_of_true fillL1_answer.2.2.1 hl2, ?_, fun access' => ?_⟩
    · rw [fillL1_answer.2.2.2, lastIn_concat_of_eq (h.l2_held ▸ hl2)]
      exact h.l2_held
    · rw [fillL1_answer.2.2.2]
      rcases eq_or_ne access' access with rfl | hne
      · rw [fillL1_l1_self, held_insert]
        exact (h.included access').promote hl2 _
      · rw [fillL1_l1_of_ne hne]
        intro i page hkept
        exact h.included access' i page (held_of_held_invalidate hkept).1
  · have hl2 := held_ne_of_tlbHit_eq_none hmiss
    rw [hsearch]
    refine ⟨iff_of_false ?_ hl2, ?_, fun access' => ?_⟩
    · rw [fillL1_answer.2.2.1]
      decide
    · rw [fillL1_answer.2.2.2, held_insert, h.l2_held, lastIn_concat]
      rfl
    · rw [fillL1_answer.2.2.2, held_insert]
      rcases eq_or_ne access' access with rfl | hne
      · rw [fillL1_l1_self, l1_with_l2Tlb, held_insert]
        refine (h.included access').fill fun i page hheld hline => ?_
        rw [← lineOf_of_held hheld]
        exact lineOf_l1Type_eq hline access'
      · rw [fillL1_l1_of_ne hne, l1_with_l2Tlb]
        refine (h.included access').drop fun i page hkept => ?_
        exact ⟨(held_of_held_invalidate hkept).1, lineOf_ne_of_kept (h.included access') hkept⟩

/-- The pages searched by a sequence of calls. -/
def pagesOf (calls : List (VirtAddr × MemAccess)) : List ℕ := calls.map fun call => pageOf call.1

/-- **Every run** keeps both. -/
theorem inclusive_runSearches (memSpace : Mem) (calls : List (VirtAddr × MemAccess)) :
    Inclusive (pagesOf calls) (runSearches memSpace flushed calls) := by
  refine run_invariant (C := fun _ _ => True) (I := fun calls s => Inclusive (pagesOf calls) s)
    inclusive_flushed (fun calls call s hs _ => ?_) (stepsMeet_of_forall (fun _ _ _ => trivial) _)
  have hsearch := (hs.search memSpace call.1 call.2).2
  rw [pagesOf, List.map_append, List.map_singleton]
  exact hsearch

/-- The line of L2 is the page number modulo 64. -/
theorem lastIn_lineOf_l2Tlb (pages : List ℕ) (page : ℕ) :
    lastIn (lineOf .l2Tlb) pages (lineOf .l2Tlb page) = lastIn (· % 64) pages (page % 64) := by
  have hclass : ∀ page', lineOf .l2Tlb page' = lineOf .l2Tlb page ↔ page' % 64 = page % 64 :=
    fun _ => Fin.ext_iff
  simp only [lastIn, hclass]

/-- **The hierarchy is inclusive and hits like its L2 alone.** After any sequence of searches a
page valid in either L1 table is valid in L2, and a search hits exactly when the last search of
its class modulo 64 was for its own page. -/
theorem tlb_inclusive (memSpace : Mem) (calls : List (VirtAddr × MemAccess)) :
    let s := runSearches memSpace flushed calls
    (∀ access i page, held (s.l1 access) i = some page → ∃ j, held s.l2Tlb j = some page) ∧
    ∀ vaddr access, (tlbSearch memSpace vaddr access s).hitOrMiss = hit ↔
      lastIn (· % 64) (pagesOf calls) (pageOf vaddr % 64) = some (pageOf vaddr) := by
  intro s
  have h : Inclusive (pagesOf calls) s := inclusive_runSearches memSpace calls
  refine ⟨fun access i page hheld => ⟨_, h.included access i page hheld⟩, fun vaddr access => ?_⟩
  rw [(h.search memSpace vaddr access).1, h.l2_held, addrLine_eq, lastIn_lineOf_l2Tlb]

end MemoryHierarchy.TlbHrchy
