import MemoryHierarchy.Tlb.Hierarchy

/-!
# What a search takes from the other L1 table

A search that misses in both levels displaces an entry of L2, and `invalidate` looks for its page
in the other L1 table. It compares the tag of the L1 entry without its two low bits with the tag
of the displaced entry. Four pages of one line have the same such tag, so what is cleared is an
entry whose page agrees with the displaced one in both tests (`SameTags`), and nothing else is
touched (`cross_invalidation`); it need not be the displaced page itself
(`not_cross_invalidation`).
-/

namespace MemoryHierarchy.TlbHrchy

open Lib Function

variable {t : TlbT} {vaddr : VirtAddr} {tlb : Table t}

/-- The valid bit of an entry has been cleared. -/
def Cleared (tlb tlb' : Table t) (i : Fin t.lines) : Prop :=
  (tlb i).v = true ∧ (tlb' i).v = false

/-- What is cleared from `tlb` to `tlb'` are the entries whose page is related to the one L2 held
at the line of `vaddr`, and every other entry is as it was. -/
def Clears (related : ℕ → ℕ → Prop) (l2Tlb : Table .l2Tlb) (vaddr : VirtAddr)
    (tlb tlb' : Table t) : Prop :=
  ∀ i, (Cleared tlb tlb' i ↔ ∃ page displaced, held tlb i = some page ∧
      held l2Tlb (addrLine .l2Tlb vaddr) = some displaced ∧ related page displaced) ∧
    (¬ Cleared tlb tlb' i → tlb' i = tlb i)

/-- The pages share an L1 line, and their tags agree but for the two low bits of an L1 tag. -/
def SameTags (page displaced : ℕ) : Prop :=
  page / 64 = displaced / 64 ∧ page % 16 = displaced % 16

/-- What `invalidate` clears, and what it leaves. -/
theorem cleared_invalidate_iff (tlb : Table t) (vaddr : VirtAddr) (previouslyValid : Bool)
    (previousTag : BitVec 32) (i : Fin t.lines) :
    (Cleared tlb (invalidate tlb vaddr previouslyValid previousTag) i ↔
      previouslyValid = true ∧ i = addrLine t vaddr ∧ (tlb i).v = true ∧
        (tlb i).tag.toNat / 4 = previousTag.toNat) ∧
    (¬ Cleared tlb (invalidate tlb vaddr previouslyValid previousTag) i →
      invalidate tlb vaddr previouslyValid previousTag i = tlb i) := by
  have htag : (tlb (addrLine t vaddr)).tag.setWidth 32 >>> 2 = previousTag ↔
      (tlb (addrLine t vaddr)).tag.toNat / 4 = previousTag.toNat := by
    rw [← BitVec.toNat_inj, BitVec.toNat_ushiftRight, toNat_setWidth_tag,
      Nat.shiftRight_eq_div_pow]
  simp only [Cleared, invalidate, htag]
  split_ifs with hfound
  · rcases eq_or_ne i (addrLine t vaddr) with rfl | hi
    · rw [update_self]
      simp [hfound]
    · rw [update_of_ne hi]
      simp [hi]
  · refine ⟨iff_of_false (by simp) ?_, fun _ => rfl⟩
    rintro ⟨hvalid, rfl, hv, heq⟩
    exact hfound ⟨hvalid, hv, heq⟩

variable {memSpace : Mem} {s : State} {access other : MemAccess}

/-- A search that misses in both levels clears what its invalidation clears. -/
theorem l1_other_of_miss (hother : other ≠ access)
    (hmiss : (tlbSearch memSpace vaddr access s).hitOrMiss = miss) :
    (tlbSearch memSpace vaddr access s).state.l1 other =
      invalidate (s.l1 other) vaddr (s.l2Tlb (addrLine .l2Tlb vaddr)).v
        ((s.l2Tlb (addrLine .l2Tlb vaddr)).tag.setWidth 32) := by
  obtain ⟨paddr, -, hsearch⟩ | ⟨-, paddr, -, hsearch⟩ | ⟨-, -, paddr, -, hsearch⟩ :=
    tlbSearch_cases memSpace vaddr access s
  · rw [hsearch] at hmiss
    cases hmiss
  · rw [hsearch, fillL1_answer.2.2.1] at hmiss
    cases hmiss
  · rw [hsearch, fillL1_l1_of_ne hother, l1_with_l2Tlb]

/-- The two tests of `invalidate` on an L1 entry, of a page that L2 has displaced from the line of
`vaddr`. -/
theorem sameTags_iff {page displaced : ℕ} (access : MemAccess)
    (hline : lineOf .l2Tlb displaced = addrLine .l2Tlb vaddr) :
    SameTags page displaced ↔ lineOf (l1Type access) page = addrLine (l1Type access) vaddr ∧
      page / (l1Type access).lines / 4 = displaced / TlbT.lines .l2Tlb := by
  have hindex : lineOf (l1Type access) page = lineOf (l1Type access) displaced ↔
      page % 16 = displaced % 16 := by
    cases access <;> exact Fin.ext_iff
  have hl1 : lineOf (l1Type access) displaced = addrLine (l1Type access) vaddr :=
    lineOf_l1Type_eq hline access
  rw [← hl1, hindex, div_lines_l1Type, and_comm]
  exact Iff.rfl

/-- **One search** that misses in both levels clears the entries whose tags agree with the
displaced one's. -/
theorem clears_of_miss (hother : other ≠ access)
    (hmiss : (tlbSearch memSpace vaddr access s).hitOrMiss = miss) :
    Clears SameTags s.l2Tlb vaddr (s.l1 other)
      ((tlbSearch memSpace vaddr access s).state.l1 other) := by
  rw [l1_other_of_miss hother hmiss]
  intro i
  obtain ⟨hcleared, hkept⟩ := cleared_invalidate_iff (s.l1 other) vaddr
    (s.l2Tlb (addrLine .l2Tlb vaddr)).v ((s.l2Tlb (addrLine .l2Tlb vaddr)).tag.setWidth 32) i
  refine ⟨hcleared.trans ?_, hkept⟩
  rw [toNat_setWidth_tag]
  constructor
  · rintro ⟨hvalid, hi, hv, htag⟩
    have hpage : held (s.l1 other) i = some _ := if_pos hv
    have hdisplaced : held s.l2Tlb (addrLine .l2Tlb vaddr) = some _ := if_pos hvalid
    obtain ⟨-, hpageTag, hpageLine⟩ := held_eq_some_iff.mp hpage
    obtain ⟨-, hdisplacedTag, hdisplacedLine⟩ := held_eq_some_iff.mp hdisplaced
    refine ⟨_, _, hpage, hdisplaced, (sameTags_iff other hdisplacedLine).mpr ?_⟩
    rw [← hpageTag, ← hdisplacedTag]
    exact ⟨hpageLine.trans hi, htag⟩
  · rintro ⟨page, displaced, hpage, hdisplaced, hsame⟩
    obtain ⟨hv, hpageTag, hpageLine⟩ := held_eq_some_iff.mp hpage
    obtain ⟨hvalid, hdisplacedTag, hdisplacedLine⟩ := held_eq_some_iff.mp hdisplaced
    obtain ⟨hline, htag⟩ := (sameTags_iff other hdisplacedLine).mp hsame
    refine ⟨hvalid, hpageLine.symm.trans hline, hv, ?_⟩
    rw [hpageTag, hdisplacedTag]
    exact htag

/-- **Cross-invalidation.** After any sequence of searches, one that misses in both levels clears
in the other L1 table exactly the entries whose tags agree with those of the page it displaces
from L2, and leaves every other entry as it was. -/
theorem cross_invalidation (memSpace : Mem) (calls : List (VirtAddr × MemAccess))
    (vaddr : VirtAddr) (access other : MemAccess) (hother : other ≠ access)
    (hmiss :
      (tlbSearch memSpace vaddr access (runSearches memSpace flushed calls)).hitOrMiss = miss) :
    let s := runSearches memSpace flushed calls
    Clears SameTags s.l2Tlb vaddr (s.l1 other)
      ((tlbSearch memSpace vaddr access s).state.l1 other) :=
  clears_of_miss hother hmiss

/-- The first address of one of the first 512 pages. -/
def pageStart (pteEntry : BitVec 9) : VirtAddr :=
  { reserved := 0, pgdEntry := 0, pudEntry := 0, pmdEntry := 0, pteEntry := pteEntry,
    pageOffset := 0 }

/-- An instruction of page 16, then data of page 0. -/
def sixteenThenZero : List (VirtAddr × MemAccess) :=
  [(pageStart 16, .instruction), (pageStart 0, .data)]

/-- Data of page 64 then displaces page 0 from L2, and the instruction table loses page 16, which
L2 still holds. -/
theorem cross_invalidation_sixteen :
    let s := runSearches (fun _ => 0) flushed sixteenThenZero
    Cleared (s.l1 .instruction)
      ((tlbSearch (fun _ => 0) (pageStart 64) .data s).state.l1 .instruction)
      (lineOf _ 0) := by
  intro s
  refine ((cross_invalidation (fun _ => 0) sixteenThenZero (pageStart 64) .data .instruction
    (by decide) (by decide +kernel)) _).1.mpr ⟨16, 0, ?_, ?_, ?_, ?_⟩ <;> decide +kernel

/-- Page 16 is not the page that was displaced. -/
theorem not_cross_invalidation :
    ¬ ∀ (memSpace : Mem) (calls : List (VirtAddr × MemAccess)) (vaddr : VirtAddr)
      (access other : MemAccess), other ≠ access →
      (tlbSearch memSpace vaddr access (runSearches memSpace flushed calls)).hitOrMiss = miss →
      let s := runSearches memSpace flushed calls
      Clears Eq s.l2Tlb vaddr (s.l1 other)
        ((tlbSearch memSpace vaddr access s).state.l1 other) := by
  intro h
  have hzero := (h (fun _ => 0) sixteenThenZero (pageStart 64) .data .instruction (by decide)
    (by decide +kernel) (lineOf _ 0)).1
  obtain ⟨page, displaced, hpage, hdisplaced, heq⟩ := hzero.mp (by constructor <;> decide +kernel)
  have hsixteen : held ((runSearches (fun _ => 0) flushed sixteenThenZero).l1 .instruction)
      (lineOf _ 0) = some 16 := by decide +kernel
  have hlost : held (runSearches (fun _ => 0) flushed sixteenThenZero).l2Tlb
      (addrLine .l2Tlb (pageStart 64)) = some 0 := by decide +kernel
  rw [hsixteen, Option.some_inj] at hpage
  rw [hlost, Option.some_inj] at hdisplaced
  omega

end MemoryHierarchy.TlbHrchy
