import MemoryHierarchy.Lib.Since
import MemoryHierarchy.Tlb.CrossInvalidation

/-!
# What the L1 tables hold

The L1 tables in terms of the searches alone. A search puts its page into its line of the L1 table
it goes through, whether it hits or misses. A search through the other table takes away an entry
only if it displaces a page from L2, and then the entry whose tags agree with that page's
(`Loses`). So an L1 table holds a page exactly when a search has put it there, and no search since
then has overwritten it or taken it away (`l1_held_iff`).
-/

namespace MemoryHierarchy.TlbHrchy

open Lib Function

instance (page displaced : ℕ) : Decidable (SameTags page displaced) :=
  inferInstanceAs (Decidable (_ ∧ _))

/-- After searches of `pages`, a search of `page` through the other table takes away `kept`: L2
then holds another page of the class of `page`, which is displaced and has the tags of `kept`. -/
def Loses (pages : List ℕ) (page kept : ℕ) : Prop :=
  ∃ displaced ∈ lastIn (· % 64) pages (page % 64), displaced ≠ page ∧ SameTags kept displaced

instance (pages : List ℕ) (page kept : ℕ) : Decidable (Loses pages page kept) :=
  inferInstanceAs (Decidable (∃ displaced ∈ lastIn (· % 64) pages (page % 64), _ ∧ _))

variable {memSpace : Mem} {s : State} {vaddr : VirtAddr} {via access : MemAccess}
  {pages : List ℕ}

/-- What L2 holds at the line of a page. -/
private theorem Inclusive.lastIn_eq (h : Inclusive pages s) (vaddr : VirtAddr) :
    lastIn (· % 64) pages (pageOf vaddr % 64) = held s.l2Tlb (addrLine .l2Tlb vaddr) := by
  rw [h.l2_held, addrLine_eq, lastIn_lineOf_l2Tlb]

/-- A search of a page that L2 holds takes nothing away. -/
private theorem not_loses_of_held (h : Inclusive pages s)
    (hheld : held s.l2Tlb (addrLine .l2Tlb vaddr) = some (pageOf vaddr)) (kept : ℕ) :
    ¬ Loses pages (pageOf vaddr) kept := by
  rw [Loses, h.lastIn_eq, hheld]
  rintro ⟨displaced, hdisplaced, hne, -⟩
  exact hne (Option.some_injective _ hdisplaced).symm

/-- **One search** through the table itself. -/
theorem held_l1_self (memSpace : Mem) (vaddr : VirtAddr) (access : MemAccess) (s : State) :
    held ((tlbSearch memSpace vaddr access s).state.l1 access) =
      update (held (s.l1 access)) (addrLine _ vaddr) (some (pageOf vaddr)) := by
  obtain ⟨paddr, hhit, hsearch⟩ | ⟨-, paddr, -, hsearch⟩ | ⟨-, -, paddr, -, hsearch⟩ :=
    tlbSearch_cases memSpace vaddr access s
  · rw [hsearch, ← held_of_tlbHit_eq_some hhit, update_eq_self]
  · rw [hsearch, fillL1_l1_self, held_insert]
  · rw [hsearch, fillL1_l1_self, l1_with_l2Tlb, held_insert]

/-- **One search** through the other table. -/
theorem held_l1_other (h : Inclusive pages s) (memSpace : Mem) (vaddr : VirtAddr)
    (hvia : access ≠ via) (i : Fin (l1Type access).lines) (kept : ℕ) :
    held ((tlbSearch memSpace vaddr via s).state.l1 access) i = some kept ↔
      held (s.l1 access) i = some kept ∧ ¬ Loses pages (pageOf vaddr) kept := by
  obtain ⟨paddr, hhit, hsearch⟩ | ⟨-, paddr, hhit, hsearch⟩ | ⟨-, hmiss, paddr, -, hsearch⟩ :=
    tlbSearch_cases memSpace vaddr via s
  · have hl2 := h.included via _ _ (held_of_tlbHit_eq_some hhit)
    rw [hsearch, and_iff_left (not_loses_of_held h hl2 kept)]
  · have hl2 := held_of_tlbHit_eq_some hhit
    rw [hsearch, fillL1_l1_of_ne hvia, and_iff_left (not_loses_of_held h hl2 kept), invalidate,
      if_neg (by simp)]
  · have hclears : Clears SameTags s.l2Tlb vaddr (s.l1 access)
        ((tlbSearch memSpace vaddr via s).state.l1 access) :=
      clears_of_miss hvia (by rw [hsearch]; exact fillL1_answer.2.2.1)
    obtain ⟨hcleared, hkept⟩ := hclears i
    have hloses : ∀ page, held (s.l1 access) i = some page →
        (Cleared (s.l1 access) ((tlbSearch memSpace vaddr via s).state.l1 access) i ↔
          Loses pages (pageOf vaddr) page) := by
      intro page hpage
      rw [hcleared, Loses, h.lastIn_eq]
      constructor
      · rintro ⟨page', displaced, hpage', hdisplaced, hsame⟩
        obtain rfl := Option.some_injective _ (hpage'.symm.trans hpage)
        refine ⟨displaced, hdisplaced, ?_, hsame⟩
        rintro rfl
        exact held_ne_of_tlbHit_eq_none hmiss hdisplaced
      · rintro ⟨displaced, hdisplaced, -, hsame⟩
        exact ⟨page, displaced, hpage, hdisplaced, hsame⟩
    by_cases hc : Cleared (s.l1 access) ((tlbSearch memSpace vaddr via s).state.l1 access) i
    · refine iff_of_false (fun hheld => ?_) fun hboth => hboth.2 ((hloses kept hboth.1).mp hc)
      rw [held, hc.2] at hheld
      exact Option.some_ne_none kept hheld.symm
    · rw [held, held, hkept hc]
      exact ⟨fun hheld => ⟨hheld, fun hlost => hc ((hloses kept hheld).mpr hlost)⟩, And.left⟩

/-! ### The whole history -/

/-- One more search, and the tables after it. -/
theorem runSearches_concat (memSpace : Mem) (s : State) (calls : List (VirtAddr × MemAccess))
    (call : VirtAddr × MemAccess) :
    runSearches memSpace s (calls ++ [call]) =
      (tlbSearch memSpace call.1 call.2 (runSearches memSpace s calls)).state := by
  rw [runSearches, List.foldl_append]
  rfl

/-- A search that puts `page` into line `i` of the L1 table of `access`. -/
def Puts (access : MemAccess) (i : Fin (l1Type access).lines) (page : ℕ)
    (_before : List (VirtAddr × MemAccess)) (call : VirtAddr × MemAccess) : Prop :=
  call.2 = access ∧ addrLine _ call.1 = i ∧ pageOf call.1 = page

/-- A search that leaves `page` in line `i` of the L1 table of `access`. -/
def Leaves (access : MemAccess) (i : Fin (l1Type access).lines) (page : ℕ)
    (before : List (VirtAddr × MemAccess)) (call : VirtAddr × MemAccess) : Prop :=
  if call.2 = access then addrLine _ call.1 = i → pageOf call.1 = page
  else ¬ Loses (pagesOf before) (pageOf call.1) page

/-- **The L1 tables in closed form.** After any sequence of searches, through either table, a line
of an L1 table holds a page if and only if a search through that table has put it there and every
search since then has left it. -/
theorem l1_held_iff (memSpace : Mem) (calls : List (VirtAddr × MemAccess)) (access : MemAccess)
    (i : Fin (l1Type access).lines) (page : ℕ) :
    held ((runSearches memSpace flushed calls).l1 access) i = some page ↔
      Since (Puts access i page) (Leaves access i page) calls := by
  refine iff_since (P := fun calls =>
    held ((runSearches memSpace flushed calls).l1 access) i = some page) ?_
    (fun calls call => ?_) calls
  · cases access <;> exact fun hheld => nomatch hheld
  · have hinclusive := inclusive_runSearches memSpace calls
    rw [runSearches_concat, Puts, Leaves]
    rcases eq_or_ne call.2 access with rfl | hvia
    · rw [held_l1_self, if_pos rfl, and_iff_right rfl]
      rcases eq_or_ne i (addrLine _ call.1) with rfl | hi
      · rw [update_self, Option.some_inj]
        exact ⟨fun hpage => .inl ⟨rfl, hpage⟩,
          fun h => h.elim And.right fun hleft => hleft.2 rfl⟩
      · rw [update_of_ne hi]
        exact ⟨fun hheld => .inr ⟨hheld, fun heq => absurd heq.symm hi⟩,
          fun h => h.elim (fun hput => absurd hput.1.symm hi) And.left⟩
    · rw [held_l1_other hinclusive memSpace call.1 hvia.symm, if_neg hvia]
      exact ⟨.inr, fun h => h.elim (fun hput => absurd hput.1 hvia) id⟩

/-- The page in line `i` of the L1 table of `access`, from the searches, the last one first. -/
def l1Page (access : MemAccess) (i : Fin (l1Type access).lines) :
    List (VirtAddr × MemAccess) → Option ℕ
  | [] => none
  | call :: earlier =>
    if call.2 = access then
      if addrLine _ call.1 = i then some (pageOf call.1) else l1Page access i earlier
    else (l1Page access i earlier).filter fun kept =>
      ¬ Loses (pagesOf earlier.reverse) (pageOf call.1) kept

/-- **The L1 tables, computed** from the searches. -/
theorem held_l1_eq (memSpace : Mem) (calls : List (VirtAddr × MemAccess)) (access : MemAccess)
    (i : Fin (l1Type access).lines) :
    held ((runSearches memSpace flushed calls).l1 access) i = l1Page access i calls.reverse := by
  induction calls using List.reverseRecOn with
  | nil => cases access <;> rfl
  | append_singleton calls call ih =>
    rw [runSearches_concat, List.reverse_append, List.reverse_singleton, List.singleton_append,
      l1Page, List.reverse_reverse, ← ih]
    rcases eq_or_ne call.2 access with rfl | hvia
    · rw [held_l1_self, if_pos rfl]
      rcases eq_or_ne i (addrLine _ call.1) with rfl | hi
      · rw [update_self, if_pos rfl]
      · rw [update_of_ne hi, if_neg hi.symm]
    · rw [if_neg hvia]
      refine Option.ext fun kept => ?_
      rw [held_l1_other (inclusive_runSearches memSpace calls) memSpace call.1 hvia.symm]
      simp

end MemoryHierarchy.TlbHrchy
