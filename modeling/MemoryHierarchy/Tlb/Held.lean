import MemoryHierarchy.Tlb.TlbHrchy

/-!
# The page an entry stands for

A valid entry stands for exactly one page: its tag is the page number without the bits that
select the line, and the line gives those back (`held`). So `tlb_hit` hits exactly when the line
of the page holds that page (`tlbHit_eq`), inserting an entry puts its page into its line
(`held_insert`), and an entry is `Framed` if it maps its page to the frame the walk ends in.
-/

namespace MemoryHierarchy.TlbHrchy

open Lib Function

variable {t : TlbT} {vaddr : VirtAddr} {tlb : Table t}

/-- The number of the page an address lies in. -/
def pageOf (vaddr : VirtAddr) : ℕ := (virtAddrToVirtualPageNumber vaddr).toNat

theorem pageOf_lt (vaddr : VirtAddr) : pageOf vaddr < 2 ^ 36 := virtAddrToVirtualPageNumber_lt vaddr

theorem addrLine_eq (t : TlbT) (vaddr : VirtAddr) :
    addrLine t vaddr = lineOf t (pageOf vaddr) := rfl

theorem TlbT.lines_eq (t : TlbT) : t.lines = 2 ^ t.linesBits := by cases t <;> rfl

/-- Line bits and tag bits together hold a page number. -/
theorem TlbT.le_linesBits_add_tagBits (t : TlbT) : 36 ≤ t.linesBits + t.tagBits := by
  cases t <;> decide

theorem TlbT.tagBits_le (t : TlbT) : t.tagBits ≤ 32 := by cases t <;> decide

/-- The page the entry at a line stands for. -/
def held (tlb : Table t) (i : Fin t.lines) : Option ℕ :=
  if (tlb i).v then some ((tlb i).tag.toNat * t.lines + i) else none

theorem held_eq_some_iff {i : Fin t.lines} {page : ℕ} :
    held tlb i = some page ↔
      (tlb i).v = true ∧ (tlb i).tag.toNat = page / t.lines ∧ lineOf t page = i := by
  have hpos := t.lines_pos
  rw [held]
  cases (tlb i).v with
  | false => simp
  | true =>
    simp only [if_true, Option.some_inj, true_and]
    constructor
    · rintro rfl
      refine ⟨?_, Fin.ext ?_⟩
      · rw [Nat.add_comm, Nat.add_mul_div_right _ _ hpos, Nat.div_eq_of_lt i.isLt, Nat.zero_add]
      · change ((tlb i).tag.toNat * t.lines + i) % t.lines = i
        rw [Nat.mul_comm, Nat.mul_add_mod, Nat.mod_eq_of_lt i.isLt]
    · rintro ⟨htag, rfl⟩
      rw [htag]
      exact Nat.div_add_mod' page t.lines

/-- A page is held in its own line. -/
theorem lineOf_of_held {i : Fin t.lines} {page : ℕ} (h : held tlb i = some page) :
    lineOf t page = i :=
  (held_eq_some_iff.mp h).2.2

/-- The part of the page number above the line, in any width that holds it. -/
theorem toNat_tag (t : TlbT) (vaddr : VirtAddr) {w : ℕ} (hw : t.tagBits ≤ w) :
    ((virtAddrToVirtualPageNumber vaddr >>> t.linesBits).setWidth w).toNat =
      pageOf vaddr / t.lines := by
  have hfit : pageOf vaddr / t.lines < 2 ^ w := by
    rw [t.lines_eq]
    refine Nat.div_lt_of_lt_mul ((pageOf_lt vaddr).trans_le ?_)
    rw [← Nat.pow_add]
    exact Nat.pow_le_pow_right (by decide) (t.le_linesBits_add_tagBits.trans (by omega))
  rw [BitVec.toNat_setWidth, BitVec.toNat_ushiftRight, Nat.shiftRight_eq_div_pow, ← t.lines_eq]
  exact Nat.mod_eq_of_lt hfit

theorem toNat_setWidth_tag (tag : BitVec t.tagBits) : (tag.setWidth 32).toNat = tag.toNat := by
  rw [BitVec.toNat_setWidth]
  exact Nat.mod_eq_of_lt (tag.isLt.trans_le (Nat.pow_le_pow_right (by decide) t.tagBits_le))

/-- The comparison of `hit_generic`. -/
theorem tag_eq_iff (tag : BitVec t.tagBits) (vaddr : VirtAddr) :
    tag.setWidth 32 = (virtAddrToVirtualPageNumber vaddr >>> t.linesBits).setWidth 32 ↔
      tag.toNat = pageOf vaddr / t.lines := by
  rw [← BitVec.toNat_inj, toNat_setWidth_tag, toNat_tag t vaddr t.tagBits_le]

/-- **`tlb_hit` hits exactly when the line of the page holds it.** -/
theorem tlbHit_eq (vaddr : VirtAddr) (tlb : Table t) :
    tlbHit vaddr tlb =
      if held tlb (addrLine t vaddr) = some (pageOf vaddr) then
        some ⟨(tlb (addrLine t vaddr)).phyPageNum, vaddr.pageOffset⟩
      else none := by
  have hiff : ((tlb (addrLine t vaddr)).tag.setWidth 32 =
      (virtAddrToVirtualPageNumber vaddr >>> t.linesBits).setWidth 32 ∧
        (tlb (addrLine t vaddr)).v = true) ↔
      held tlb (addrLine t vaddr) = some (pageOf vaddr) := by
    rw [tag_eq_iff, held_eq_some_iff, and_comm, and_iff_left (addrLine_eq t vaddr).symm]
  simp only [tlbHit, hiff, initPhyAddr_frame]

theorem held_of_tlbHit_eq_some {paddr : PhyAddr} (h : tlbHit vaddr tlb = some paddr) :
    held tlb (addrLine t vaddr) = some (pageOf vaddr) := by
  rw [tlbHit_eq] at h
  exact (Option.ite_none_right_eq_some.mp h).1

theorem held_ne_of_tlbHit_eq_none (h : tlbHit vaddr tlb = none) :
    held tlb (addrLine t vaddr) ≠ some (pageOf vaddr) := by
  intro hheld
  rw [tlbHit_eq, if_pos hheld] at h
  exact absurd h (Option.some_ne_none _)

/-! ### Insertion -/

theorem tlbInsert_eq (i : Fin t.lines) (entry : TlbEntry t) (tlb : Table t) :
    tlbInsert i entry tlb = (.errNone, update tlb i entry) :=
  dif_pos i.isLt

/-- Inserting the entry of an address puts its page into its line. -/
theorem held_insert (tlb : Table t) (vaddr : VirtAddr) (paddr : PhyAddr) :
    held (update tlb (addrLine t vaddr) (tlbEntryInit t vaddr paddr)) =
      update (held tlb) (addrLine t vaddr) (some (pageOf vaddr)) := by
  funext i
  rcases eq_or_ne i (addrLine t vaddr) with rfl | hi
  · rw [update_self, held_eq_some_iff, update_self]
    exact ⟨rfl, toNat_tag t vaddr le_rfl, rfl⟩
  · rw [update_of_ne hi, held, held, update_of_ne hi]

/-! ### Invalidation -/

/-- What is held after `invalidate` was held before, and is not what it was looking for. -/
theorem held_of_held_invalidate {i : Fin t.lines} {page : ℕ} {previouslyValid : Bool}
    {previousTag : BitVec 32}
    (h : held (invalidate tlb vaddr previouslyValid previousTag) i = some page) :
    held tlb i = some page ∧
      ¬ (previouslyValid = true ∧ i = addrLine t vaddr ∧
        page / t.lines / 4 = previousTag.toNat) := by
  by_cases hfound : previouslyValid = true ∧ (tlb (addrLine t vaddr)).v = true ∧
      (tlb (addrLine t vaddr)).tag.setWidth 32 >>> 2 = previousTag
  · simp only [invalidate, if_pos hfound] at h
    rcases eq_or_ne i (addrLine t vaddr) with rfl | hi
    · simp [held_eq_some_iff] at h
    · rw [held, update_of_ne hi] at h
      exact ⟨h, fun hlooked => hi hlooked.2.1⟩
  · simp only [invalidate, if_neg hfound] at h
    refine ⟨h, ?_⟩
    rintro ⟨hvalid, rfl, htag⟩
    obtain ⟨hv, hpage, -⟩ := held_eq_some_iff.mp h
    refine hfound ⟨hvalid, hv, BitVec.eq_of_toNat_eq ?_⟩
    rw [BitVec.toNat_ushiftRight, toNat_setWidth_tag, hpage, Nat.shiftRight_eq_div_pow]
    exact htag

/-! ### Frames -/

/-- Every entry maps its page to the frame the walk ends in. -/
def Framed (memSpace : Mem) (tlb : Table t) : Prop :=
  ∀ i vaddr, held tlb i = some (pageOf vaddr) → (tlb i).phyPageNum = pageFrame memSpace vaddr

variable {memSpace : Mem}

theorem framed_tlbFlush (memSpace : Mem) (t : TlbT) : Framed memSpace (tlbFlush t) := by
  rintro i vaddr ⟨⟩

/-- A hit answers with the walk. -/
theorem Framed.tlbHit (h : Framed memSpace tlb) {paddr : PhyAddr}
    (hhit : tlbHit vaddr tlb = some paddr) : pageWalk memSpace vaddr = .ok paddr := by
  rw [tlbHit_eq] at hhit
  obtain ⟨hheld, hpaddr⟩ := Option.ite_none_right_eq_some.mp hhit
  rw [pageWalk_eq, ← Option.some_inj.mp hpaddr, h _ vaddr hheld]

/-- The entry of a translated address may be inserted. -/
theorem Framed.insert (h : Framed memSpace tlb) {paddr : PhyAddr}
    (hwalk : pageWalk memSpace vaddr = .ok paddr) :
    Framed memSpace (update tlb (addrLine t vaddr) (tlbEntryInit t vaddr paddr)) := by
  intro i vaddr' hheld
  rw [held_insert] at hheld
  rcases eq_or_ne i (addrLine t vaddr) with rfl | hi
  · rw [update_self, Option.some_inj] at hheld
    rw [pageWalk_eq, Except.ok.injEq] at hwalk
    rw [update_self, tlbEntryInit, ← hwalk]
    exact pageFrame_congr memSpace (BitVec.eq_of_toNat_eq hheld)
  · rw [update_of_ne hi] at hheld ⊢
    exact h i vaddr' hheld

/-- Clearing valid bits keeps the frames. -/
theorem Framed.invalidate (h : Framed memSpace tlb) (vaddr : VirtAddr) (previouslyValid : Bool)
    (previousTag : BitVec 32) :
    Framed memSpace (invalidate tlb vaddr previouslyValid previousTag) := by
  intro i vaddr' hheld
  have hframe := h i vaddr' (held_of_held_invalidate hheld).1
  rw [TlbHrchy.invalidate]
  split
  · rcases eq_or_ne i (addrLine t vaddr) with rfl | hi
    · rw [update_self, ← hframe]
    · rw [update_of_ne hi, ← hframe]
  · exact hframe

end MemoryHierarchy.TlbHrchy
