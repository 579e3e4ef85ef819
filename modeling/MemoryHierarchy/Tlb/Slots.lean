import MemoryHierarchy.Addr.Print
import MemoryHierarchy.Lib.Slots
import MemoryHierarchy.Tlb.TlbLru

/-!
# The TLB as a list of slots

Table, list and heap together are a list of slots in order of use: the lines that the list names,
front to back, each with the page it holds. The table is the entries of those pages, with the
frames of the page walk, and zero elsewhere (`Refines.tlb`). A search uses its page, and does
nothing else (`Refines.search`).
-/

namespace MemoryHierarchy.Tlb

open Lib Function

/-- The number of the page an address lies in, as wide as a tag. -/
def pageOf (vaddr : VirtAddr) : BitVec 36 := (virtAddrToVirtualPageNumber vaddr).setWidth 36

/-- The entry of a line that holds a page, or none. -/
def entryOf (memSpace : Mem) : Option (BitVec 36) → TlbEntry
  | none => { tag := 0, phyPageNum := 0, v := false }
  | some page => { tag := page, phyPageNum := frameOfPage memSpace page.toNat, v := true }

/-- Lines in order of use, with the pages they hold. -/
abbrev Slots := List (Fin tlbLines × Option (BitVec 36))

/-- The list names the lines of the slots, and the table holds their pages. -/
structure Refines (memSpace : Mem) (s : State) (slots : Slots) : Prop where
  policy : s.replacementPolicy.moveBack = moveBack
  list : ∃ nodes, s.replacementPolicy.ll.Represents s.heap nodes ∧
    nodes.map Prod.snd = slots.map fun slot => BitVec.ofNat 32 slot.1
  distinct : Distinct slots
  tlb : ∀ i, s.tlb i = entryOf memSpace (contents slots i)

variable {memSpace : Mem} {s : State} {slots : Slots} {vaddr : VirtAddr}

theorem toNat_ofNat_line (i : Fin tlbLines) : (BitVec.ofNat 32 i).toNat = i := by
  rw [BitVec.toNat_ofNat, Nat.mod_eq_of_lt (i.isLt.trans (by decide))]

theorem toNat_pageOf (vaddr : VirtAddr) :
    (pageOf vaddr).toNat = (virtAddrToVirtualPageNumber vaddr).toNat := by
  rw [pageOf, BitVec.toNat_setWidth, Nat.mod_eq_of_lt (virtAddrToVirtualPageNumber_lt vaddr)]

theorem frameOfPage_pageOf (memSpace : Mem) (vaddr : VirtAddr) :
    frameOfPage memSpace (pageOf vaddr).toNat = pageFrame memSpace vaddr := by
  rw [toNat_pageOf, frameOfPage_eq]

/-- The entry that a search fills in. -/
theorem tlbEntryInit_eq (memSpace : Mem) (vaddr : VirtAddr) :
    tlbEntryInit vaddr ⟨pageFrame memSpace vaddr, vaddr.pageOffset⟩ =
      entryOf memSpace (some (pageOf vaddr)) := by
  rw [entryOf, frameOfPage_pageOf]
  rfl

/-! ### Nodes and slots -/

/-- Nodes name lines of the table. -/
theorem toNat_lt_of_names {nodes : List (Ptr × ListContent)}
    (hnames : nodes.map Prod.snd = slots.map fun slot => BitVec.ofNat 32 slot.1) :
    ∀ n ∈ nodes, n.2.toNat < tlbLines := by
  intro n hn
  have hmem : n.2 ∈ slots.map fun slot => BitVec.ofNat 32 slot.1 :=
    hnames ▸ List.mem_map_of_mem hn
  obtain ⟨slot, -, hslot⟩ := List.mem_map.mp hmem
  rw [← hslot, toNat_ofNat_line]
  exact slot.1.isLt

/-- A line holds the page of an address exactly if its slot does. -/
theorem Refines.held_iff (h : Refines memSpace s slots) {n : Ptr × ListContent}
    {slot : Fin tlbLines × Option (BitVec 36)} (hslot : slot ∈ slots)
    (hname : n.2 = BitVec.ofNat 32 slot.1) :
    s.tlb.held n = some (virtAddrToVirtualPageNumber vaddr) ↔ slot.2 = some (pageOf vaddr) := by
  have hline : n.2.toNat = slot.1 := hname ▸ toNat_ofNat_line slot.1
  have hlt : n.2.toNat < tlbLines := hline ▸ slot.1.isLt
  have hfin : (⟨n.2.toNat, hlt⟩ : Fin tlbLines) = slot.1 := Fin.ext hline
  rw [held_eq_some_iff hlt, hfin, h.tlb, contents_of_mem h.distinct.places hslot]
  cases slot.2 with
  | none => exact iff_of_false (fun heq => Bool.false_ne_true heq.2) (Option.some_ne_none _).symm
  | some page =>
    have hwide : page.setWidth 64 = virtAddrToVirtualPageNumber vaddr ↔ page = pageOf vaddr := by
      rw [← BitVec.toNat_inj, ← BitVec.toNat_inj, toNat_pageOf, BitVec.toNat_setWidth,
        Nat.mod_eq_of_lt (page.isLt.trans (by decide))]
    rw [entryOf, Option.some_inj]
    exact (and_iff_left rfl).trans hwide

/-! ### One search -/

/-- **A search that hits** moves the slot of its page to the end. -/
theorem Refines.search_hit {pre post : Slots} {i : Fin tlbLines}
    (h : Refines memSpace s (pre ++ (i, some (pageOf vaddr)) :: post)) {fuel : ℕ}
    (hfuel : (pre ++ (i, some (pageOf vaddr)) :: post).length ≤ fuel) :
    ∃ s', tlbSearch fuel memSpace vaddr s =
        some
          { err := .errNone
            paddr := some ⟨pageFrame memSpace vaddr, vaddr.pageOffset⟩
            hitOrMiss := some 1
            state := s' } ∧
      Refines memSpace s' (use (pre ++ (i, some (pageOf vaddr)) :: post) (pageOf vaddr)) := by
  obtain ⟨nodes, hlist, hnames⟩ := h.list
  have hlt := toNat_lt_of_names hnames
  have hlength : nodes.length ≤ fuel := by
    rw [← List.length_map (f := Prod.snd), hnames, List.length_map]
    exact hfuel
  -- the node of the slot
  rw [List.map_append, List.map_cons] at hnames
  obtain ⟨npre, nrest, rfl, hpre, hrest⟩ := List.map_eq_append_iff.mp hnames
  obtain ⟨n, npost, rfl, hn, hpost⟩ := List.map_eq_cons_iff.mp hrest
  have hheld := (h.held_iff (by simp) hn).mpr (rfl : some (pageOf vaddr) = some (pageOf vaddr))
  have hmiss : ∀ m ∈ npost, s.tlb.held m ≠ some (virtAddrToVirtualPageNumber vaddr) := by
    intro m hm hheld'
    obtain ⟨slot, hslot, hname⟩ := List.mem_map.mp (hpost ▸ List.mem_map_of_mem hm)
    have hmem : slot ∈ pre ++ (i, some (pageOf vaddr)) :: post := by simp [hslot]
    exact h.distinct.ne_some.2 slot hslot ((h.held_iff hmem hname.symm).mp hheld')
  have hline : n.2.toNat < tlbLines := hlt n (by simp)
  have hfin : (⟨n.2.toNat, hline⟩ : Fin tlbLines) = i :=
    Fin.ext ((congrArg BitVec.toNat hn).trans (toNat_ofNat_line i))
  obtain ⟨heap, ll, hll, hhit⟩ := tlbHit_of_eq h.policy hlist hlt hheld hmiss hlength hline
  refine ⟨{ s with heap := heap, replacementPolicy := { s.replacementPolicy with ll := ll } },
    ?_, h.policy, ⟨npre ++ npost ++ [n], hll, ?_⟩, h.distinct.use _, fun j => ?_⟩
  · have hfront : s.replacementPolicy.ll.front ≠ none := by
      rw [hlist.front_eq, firstAddr_append]
      cases npre <;> exact Option.some_ne_none _
    have hentry : (s.tlb i).phyPageNum = pageFrame memSpace vaddr := by
      rw [h.tlb, contents_of_mem h.distinct.places
        (show (i, some (pageOf vaddr)) ∈ pre ++ (i, some (pageOf vaddr)) :: post by simp)]
      exact frameOfPage_pageOf memSpace vaddr
    rw [tlbSearch, if_neg hfront, hhit, Option.bind_eq_bind, Option.bind_some, hfin, hentry]
    rfl
  · rw [use_of_mem h.distinct]
    simp only [List.map_append, List.map_singleton, hpre, hpost, hn]
  · rw [contents_use_of_mem h.distinct]
    exact h.tlb j

/-- **A search that misses** fills the first slot and moves it to the end. -/
theorem Refines.search_miss {slot : Fin tlbLines × Option (BitVec 36)} {rest : Slots}
    (h : Refines memSpace s (slot :: rest))
    (hnot : ∀ t ∈ slot :: rest, t.2 ≠ some (pageOf vaddr)) {fuel : ℕ}
    (hfuel : (slot :: rest).length ≤ fuel) :
    ∃ s', tlbSearch fuel memSpace vaddr s =
        some
          { err := .errNone
            paddr := some ⟨pageFrame memSpace vaddr, vaddr.pageOffset⟩
            hitOrMiss := some 0
            state := s' } ∧
      Refines memSpace s' (use (slot :: rest) (pageOf vaddr)) := by
  obtain ⟨nodes, hlist, hnames⟩ := h.list
  have hlt := toNat_lt_of_names hnames
  have hlength : nodes.length ≤ fuel := by
    rw [← List.length_map (f := Prod.snd), hnames, List.length_map]
    exact hfuel
  have hmiss : ∀ m ∈ nodes, s.tlb.held m ≠ some (virtAddrToVirtualPageNumber vaddr) := by
    intro m hm hheld
    obtain ⟨t, ht, hname⟩ := List.mem_map.mp (hnames ▸ List.mem_map_of_mem hm)
    exact hnot t ht ((h.held_iff ht hname.symm).mp hheld)
  have hhit := tlbHit_of_forall_ne hlist hlt hmiss hlength
  -- the node of the first slot
  obtain ⟨n, npost, rfl, hn, hpost⟩ := List.map_eq_cons_iff.mp hnames
  have hline : n.2.toNat < tlbLines := hlt n List.mem_cons_self
  have hfin : (⟨n.2.toNat, hline⟩ : Fin tlbLines) = slot.1 :=
    Fin.ext ((congrArg BitVec.toNat hn).trans (toNat_ofNat_line slot.1))
  have hsplit : s.replacementPolicy.ll.Represents s.heap ([] ++ n :: npost) := hlist
  obtain ⟨heap, ll, hmove, hll, -⟩ := hsplit.moveBack
  have hfront := hlist.front_eq_cons
  have hnode : s.heap n.1 = some ⟨n.2, none, firstAddr npost none⟩ :=
    (linked_cons.mp hlist.linked).1
  refine ⟨⟨update s.tlb slot.1 (entryOf memSpace (some (pageOf vaddr))), heap,
    { s.replacementPolicy with ll := ll }⟩, ?_, h.policy, ⟨npost ++ [n], hll, ?_⟩,
    h.distinct.use _, fun j => ?_⟩
  · rw [tlbSearch, if_neg (by rw [hfront]; exact Option.some_ne_none _), hhit,
      Option.bind_eq_bind, Option.bind_some, if_pos rfl, tlbMiss, pageWalk_eq]
    simp only [hfront, hnode, Option.bind_eq_bind, Option.bind_some, if_pos hline,
      tlbInsert_eq hline, hfin, tlbEntryInit_eq, h.policy, hmove]
  · rw [use_of_not_mem hnot]
    simp only [List.map_append, List.map_singleton, hpost, hn]
  · change update s.tlb slot.1 _ j = _
    rw [contents_use_of_not_mem h.distinct hnot]
    rcases eq_or_ne j slot.1 with rfl | hj
    · rw [update_self, update_self]
    · rw [update_of_ne hj, update_of_ne hj]
      exact h.tlb j

/-- **One search** answers with the walk, hits if a slot holds the page, and uses it. -/
theorem Refines.search (h : Refines memSpace s slots) (hne : slots ≠ []) {fuel : ℕ}
    (hfuel : slots.length ≤ fuel) (vaddr : VirtAddr) :
    ∃ s', tlbSearch fuel memSpace vaddr s =
        some
          { err := .errNone
            paddr := some ⟨pageFrame memSpace vaddr, vaddr.pageOffset⟩
            hitOrMiss := some (if ∃ slot ∈ slots, slot.2 = some (pageOf vaddr) then 1 else 0)
            state := s' } ∧
      Refines memSpace s' (use slots (pageOf vaddr)) := by
  by_cases hheld : ∃ slot ∈ slots, slot.2 = some (pageOf vaddr)
  · rw [if_pos hheld]
    obtain ⟨⟨i, page⟩, hslot, rfl⟩ := hheld
    obtain ⟨pre, post, rfl⟩ := List.append_of_mem hslot
    exact h.search_hit hfuel
  · rw [if_neg hheld]
    obtain ⟨slot, rest, rfl⟩ := List.exists_cons_of_ne_nil hne
    exact h.search_miss (fun t ht heq => hheld ⟨t, ht, heq⟩) hfuel

/-- Without slots a search is refused. -/
theorem Refines.search_nil (h : Refines memSpace s []) (fuel : ℕ) (vaddr : VirtAddr) :
    tlbSearch fuel memSpace vaddr s =
      some { err := .errBadParameter, paddr := none, hitOrMiss := none, state := s } := by
  obtain ⟨nodes, hlist, hnames⟩ := h.list
  obtain rfl := List.map_eq_nil_iff.mp hnames
  have hfront : s.replacementPolicy.ll.front = none := hlist.front_eq
  rw [tlbSearch, if_pos hfront]

end MemoryHierarchy.Tlb
