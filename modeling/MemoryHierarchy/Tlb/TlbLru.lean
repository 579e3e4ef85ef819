import MemoryHierarchy.Lib.Recency
import MemoryHierarchy.Lib.Run
import MemoryHierarchy.Tlb.Tlb

/-!
# The fully associative TLB is an LRU cache of the page walk

Three structures move together: the lines of the TLB, the replacement list and the history of
the pages searched. `Tracks` ties them: the lines named by the list, front to back, hold what `k`
places hold from the least to the most recently used page. A search that hits moves a node to the
back, a search that misses fills the line of the front node and moves it to the back, and both are
what one more use does to such places (`lruOrder_concat_of_mem`, `lruOrder_concat_of_not_mem`).
-/

namespace MemoryHierarchy.Tlb

open Lib Function

/-! ### The page a line holds -/

/-- The page number the line named by a node holds. -/
def Table.held (tlb : Table) (n : Ptr × ListContent) : Option (BitVec 64) :=
  if h : n.2.toNat < tlbLines then
    if (tlb ⟨n.2.toNat, h⟩).v then some ((tlb ⟨n.2.toNat, h⟩).tag.setWidth 64) else none
  else none

theorem held_eq_some_iff {tlb : Table} {n : Ptr × ListContent} (h : n.2.toNat < tlbLines)
    {page : BitVec 64} :
    tlb.held n = some page ↔
      (tlb ⟨n.2.toNat, h⟩).tag.setWidth 64 = page ∧ (tlb ⟨n.2.toNat, h⟩).v = true := by
  rw [Table.held, dif_pos h]
  cases (tlb ⟨n.2.toNat, h⟩).v <;> simp

/-- A tag is as wide as a page number. -/
theorem setWidth_setWidth_virtualPageNumber (vaddr : VirtAddr) :
    ((virtAddrToVirtualPageNumber vaddr).setWidth 36).setWidth 64 =
      virtAddrToVirtualPageNumber vaddr := by
  refine BitVec.eq_of_toNat_eq ?_
  have hlt := virtAddrToVirtualPageNumber_lt vaddr
  simp only [BitVec.toNat_setWidth]
  omega

/-! ### The walk of `tlb_hit` -/

section Walk

variable {vaddr : VirtAddr} {s : State} {pre post nodes : List (Ptr × ListContent)}
  {n : Ptr × ListContent} {after : Option Ptr}

/-- The walk goes past a node whose line does not hold the page. -/
theorem tlbHitLoop_succ (hlinked : Linked s.heap none (pre ++ [n]) after)
    (hlt : n.2.toNat < tlbLines)
    (hmiss : s.tlb.held n ≠ some (virtAddrToVirtualPageNumber vaddr)) (fuel : ℕ) :
    tlbHitLoop vaddr s (fuel + 1) (some n.1) = tlbHitLoop vaddr s fuel (lastAddr none pre) := by
  have hnode : s.heap n.1 = some ⟨n.2, lastAddr none pre, after⟩ := hlinked.lookup
  rw [Ne, held_eq_some_iff hlt] at hmiss
  rw [tlbHitLoop, hnode, Option.bind_eq_bind, Option.bind_some, dif_pos hlt, if_neg hmiss]

/-- The walk from the back over nodes none of which matches. -/
theorem tlbHitLoop_append (hlinked : Linked s.heap none (pre ++ post) after)
    (hlt : ∀ n ∈ post, n.2.toNat < tlbLines)
    (hmiss : ∀ n ∈ post, s.tlb.held n ≠ some (virtAddrToVirtualPageNumber vaddr)) (fuel : ℕ) :
    tlbHitLoop vaddr s (fuel + post.length) (lastAddr none (pre ++ post)) =
      tlbHitLoop vaddr s fuel (lastAddr none pre) := by
  induction post generalizing pre fuel with
  | nil => rw [List.append_nil]; rfl
  | cons n post ih =>
    have hsplit : pre ++ n :: post = pre ++ [n] ++ post := by simp
    rw [hsplit] at hlinked ⊢
    rw [List.length_cons, ← Nat.add_assoc, Nat.add_right_comm,
      ih hlinked (fun m hm => hlt m (List.mem_cons_of_mem n hm))
        (fun m hm => hmiss m (List.mem_cons_of_mem n hm)) (fuel + 1), lastAddr_append]
    exact tlbHitLoop_succ (linked_append.mp hlinked).1 (hlt n List.mem_cons_self)
      (hmiss n List.mem_cons_self) fuel

/-- **A miss**: the walk ends at the front, and nothing has changed. -/
theorem tlbHit_of_forall_ne (hlist : s.replacementPolicy.ll.Represents s.heap nodes)
    (hlt : ∀ n ∈ nodes, n.2.toNat < tlbLines)
    (hmiss : ∀ n ∈ nodes, s.tlb.held n ≠ some (virtAddrToVirtualPageNumber vaddr)) {fuel : ℕ}
    (hfuel : nodes.length ≤ fuel) :
    tlbHit fuel vaddr s = some { returned := 0, paddr := none, state := s } := by
  obtain ⟨extra, rfl⟩ := Nat.exists_eq_add_of_le' hfuel
  rw [tlbHit, hlist.back_eq]
  have hlinked : Linked s.heap none ([] ++ nodes) none := hlist.linked
  have hwalk := tlbHitLoop_append hlinked hlt hmiss extra
  rw [List.nil_append, lastAddr_nil] at hwalk
  rw [hwalk, tlbHitLoop]

/-- **A hit**: the last node whose line holds the page is moved to the back. -/
theorem tlbHit_of_eq (hpolicy : s.replacementPolicy.moveBack = moveBack)
    (hlist : s.replacementPolicy.ll.Represents s.heap (pre ++ n :: post))
    (hlt : ∀ m ∈ pre ++ n :: post, m.2.toNat < tlbLines)
    (hheld : s.tlb.held n = some (virtAddrToVirtualPageNumber vaddr))
    (hmiss : ∀ m ∈ post, s.tlb.held m ≠ some (virtAddrToVirtualPageNumber vaddr)) {fuel : ℕ}
    (hfuel : (pre ++ n :: post).length ≤ fuel) (hn : n.2.toNat < tlbLines) :
    ∃ heap ll, ll.Represents heap (pre ++ post ++ [n]) ∧
      tlbHit fuel vaddr s =
        some
          { returned := 1
            paddr := some ⟨(s.tlb ⟨n.2.toNat, hn⟩).phyPageNum, vaddr.pageOffset⟩
            state :=
              { s with
                heap := heap
                replacementPolicy := { s.replacementPolicy with ll := ll } } } := by
  obtain ⟨extra, rfl⟩ : ∃ extra, fuel = extra + 1 + post.length := by
    refine ⟨fuel - 1 - post.length, ?_⟩
    rw [List.length_append, List.length_cons] at hfuel
    omega
  have hsplit : pre ++ n :: post = pre ++ [n] ++ post := by simp
  have hlinked : Linked s.heap none (pre ++ [n] ++ post) none := hsplit ▸ hlist.linked
  have hwalk :=
    tlbHitLoop_append hlinked (fun m hm => hlt m (by simp [hm])) hmiss (extra + 1)
  obtain ⟨heap, ll, hmove, hll, -⟩ := hlist.moveBack
  refine ⟨heap, ll, hll, ?_⟩
  rw [tlbHit, hlist.back_eq, hsplit, hwalk, lastAddr_append]
  -- at the node itself
  change tlbHitLoop vaddr s (extra + 1) (some n.1) = _
  rw [tlbHitLoop, hlist.lookup, Option.bind_eq_bind, Option.bind_some, dif_pos hn,
    if_pos ((held_eq_some_iff hn).mp hheld)]
  simp only [initPhyAddr_frame, hpolicy, hmove]
  rfl

end Walk

/-! ### What every search keeps -/

/-- The list names `nodes.length` distinct lines, in the order of the pages searched, and every
entry maps its page to the frame the walk ends in. -/
structure Tracks (memSpace : Mem) (pages : List (BitVec 64)) (s : State)
    (nodes : List (Ptr × ListContent)) : Prop where
  policy : s.replacementPolicy.moveBack = moveBack
  list : s.replacementPolicy.ll.Represents s.heap nodes
  lines_lt : ∀ n ∈ nodes, n.2.toNat < tlbLines
  lines_nodup : (nodes.map Prod.snd).Nodup
  held_eq : nodes.map s.tlb.held = lruOrder nodes.length pages
  named : ∀ i, (s.tlb i).v = true → ∃ n ∈ nodes, n.2.toNat = i
  frame : ∀ i, (s.tlb i).v = true → ∀ vaddr,
    (s.tlb i).tag.setWidth 64 = virtAddrToVirtualPageNumber vaddr →
      (s.tlb i).phyPageNum = pageFrame memSpace vaddr

variable {memSpace : Mem} {pages : List (BitVec 64)} {s : State}
  {nodes pre post : List (Ptr × ListContent)} {n : Ptr × ListContent} {vaddr : VirtAddr}

/-- A page is held by some line exactly when it is recent. -/
theorem Tracks.exists_held_iff (h : Tracks memSpace pages s nodes) {page : BitVec 64} :
    (∃ n ∈ nodes, s.tlb.held n = some page) ↔ page ∈ recent nodes.length pages := by
  rw [← some_mem_lruOrder, ← h.held_eq, List.mem_map]

/-- No two lines hold one page. -/
theorem Tracks.eq_of_tag_eq (h : Tracks memSpace pages s nodes) {i j : Fin tlbLines}
    (hi : (s.tlb i).v = true) (hj : (s.tlb j).v = true) (htag : (s.tlb i).tag = (s.tlb j).tag) :
    i = j := by
  obtain ⟨n, hn, hni⟩ := h.named i hi
  obtain ⟨m, hm, hmj⟩ := h.named j hj
  have hheld : ∀ {n : Ptr × ListContent} {i : Fin tlbLines}, n.2.toNat = i → (s.tlb i).v = true →
      s.tlb.held n = some ((s.tlb i).tag.setWidth 64) := by
    intro n i hni hi
    have hlt : n.2.toNat < tlbLines := hni ▸ i.isLt
    have hfin : (⟨n.2.toNat, hlt⟩ : Fin tlbLines) = i := Fin.ext hni
    exact (held_eq_some_iff hlt).mpr (by rw [hfin]; exact ⟨rfl, hi⟩)
  have hnm : n = m := eq_of_map_eq_lruOrder h.held_eq hn hm (hheld hni hi) (htag ▸ hheld hmj hj)
  rw [Fin.ext_iff, ← hni, ← hmj, hnm]

/-- **A search that hits** moves the node of the page's line to the back. -/
theorem Tracks.search_hit (h : Tracks memSpace pages s nodes) {fuel : ℕ}
    (hfuel : nodes.length ≤ fuel)
    (hmem : virtAddrToVirtualPageNumber vaddr ∈ recent nodes.length pages) :
    ∃ s' nodes', tlbSearch fuel memSpace vaddr s =
        some
          { err := .errNone
            paddr := some ⟨pageFrame memSpace vaddr, vaddr.pageOffset⟩
            hitOrMiss := some 1
            state := s' } ∧
      nodes'.Perm nodes ∧
      Tracks memSpace (pages ++ [virtAddrToVirtualPageNumber vaddr]) s' nodes' := by
  obtain ⟨n, hn, hheld⟩ := h.exists_held_iff.mpr hmem
  obtain ⟨pre, post, rfl⟩ := List.append_of_mem hn
  have hlt : n.2.toNat < tlbLines := h.lines_lt n hn
  have horder := h.held_eq
  rw [List.map_append, List.map_cons, hheld] at horder
  have hmiss : ∀ m ∈ post, s.tlb.held m ≠ some (virtAddrToVirtualPageNumber vaddr) := by
    intro m hm hheld'
    have hmn : m = n := eq_of_map_eq_lruOrder h.held_eq (by simp [hm]) hn hheld' hheld
    have hnot := (nodup_addrs_middle.mp h.list.nodup).1
    exact hnot (List.mem_map_of_mem (List.mem_append_right pre (hmn ▸ hm)))
  obtain ⟨heap, ll, hll, hhit⟩ := tlbHit_of_eq h.policy h.list h.lines_lt hheld hmiss hfuel hlt
  have hperm : (pre ++ post ++ [n]).Perm (pre ++ n :: post) :=
    (List.perm_append_singleton n _).trans List.perm_middle.symm
  have hframe := h.frame ⟨n.2.toNat, hlt⟩ ((held_eq_some_iff hlt).mp hheld).2 vaddr
    ((held_eq_some_iff hlt).mp hheld).1
  refine ⟨{ s with heap := heap, replacementPolicy := { s.replacementPolicy with ll := ll } },
    pre ++ post ++ [n], ?_, hperm, ?_⟩
  · have hfront : s.replacementPolicy.ll.front ≠ none := by
      obtain ⟨p, l, hnodes⟩ := List.exists_cons_of_ne_nil (List.ne_nil_of_mem hn)
      have hlist := h.list
      rw [hnodes] at hlist
      rw [hlist.front_eq_cons]
      exact Option.some_ne_none _
    rw [tlbSearch, if_neg hfront, hhit, Option.bind_eq_bind, Option.bind_some, hframe]
    rfl
  · refine ⟨h.policy, hll, fun m hm => h.lines_lt m (hperm.mem_iff.mp hm), ?_, ?_, ?_, h.frame⟩
    · exact (hperm.map Prod.snd).nodup_iff.mpr h.lines_nodup
    · rw [hperm.length_eq, lruOrder_concat_of_mem horder.symm]
      simp [hheld]
    · intro i hi
      obtain ⟨m, hm, hmi⟩ := h.named i hi
      exact ⟨m, hperm.mem_iff.mpr hm, hmi⟩

/-- Filling the line of one node leaves what the other nodes' lines hold. -/
theorem held_update_of_ne (tlb : Table) (entry : TlbEntry) (hn : n.2.toNat < tlbLines)
    {m : Ptr × ListContent} (hne : m.2 ≠ n.2) :
    Table.held (update tlb ⟨n.2.toNat, hn⟩ entry) m = tlb.held m := by
  by_cases hm : m.2.toNat < tlbLines
  · have hidx : (⟨m.2.toNat, hm⟩ : Fin tlbLines) ≠ ⟨n.2.toNat, hn⟩ := by
      intro heq
      exact hne (BitVec.eq_of_toNat_eq (Fin.mk.inj heq))
    rw [Table.held, Table.held, dif_pos hm, dif_pos hm, update_of_ne hidx]
  · rw [Table.held, Table.held, dif_neg hm, dif_neg hm]

/-- **A search that misses** fills the line of the front node and moves it to the back. -/
theorem Tracks.search_miss (h : Tracks memSpace pages s (n :: post)) {fuel : ℕ}
    (hfuel : (n :: post).length ≤ fuel)
    (hmem : virtAddrToVirtualPageNumber vaddr ∉ recent (n :: post).length pages) :
    ∃ s' nodes', tlbSearch fuel memSpace vaddr s =
        some
          { err := .errNone
            paddr := some ⟨pageFrame memSpace vaddr, vaddr.pageOffset⟩
            hitOrMiss := some 0
            state := s' } ∧
      nodes'.Perm (n :: post) ∧
      Tracks memSpace (pages ++ [virtAddrToVirtualPageNumber vaddr]) s' nodes' := by
  have hn : n.2.toNat < tlbLines := h.lines_lt n List.mem_cons_self
  have hmiss : ∀ m ∈ n :: post, s.tlb.held m ≠ some (virtAddrToVirtualPageNumber vaddr) := by
    intro m hm hheld
    exact hmem (h.exists_held_iff.mp ⟨m, hm, hheld⟩)
  have hhit := tlbHit_of_forall_ne h.list h.lines_lt hmiss hfuel
  have hlist : s.replacementPolicy.ll.Represents s.heap ([] ++ n :: post) := h.list
  obtain ⟨heap, ll, hmove, hll, -⟩ := hlist.moveBack
  have hperm : (post ++ [n]).Perm (n :: post) := List.perm_append_singleton n post
  have hfront := h.list.front_eq_cons
  have hnode : s.heap n.1 = some ⟨n.2, none, firstAddr post none⟩ :=
    (linked_cons.mp h.list.linked).1
  -- the entry filled in
  let entry := tlbEntryInit vaddr ⟨pageFrame memSpace vaddr, vaddr.pageOffset⟩
  refine ⟨⟨update s.tlb ⟨n.2.toNat, hn⟩ entry, heap, { s.replacementPolicy with ll := ll }⟩,
    post ++ [n], ?_, hperm, ?_⟩
  · rw [tlbSearch, if_neg (by rw [hfront]; exact Option.some_ne_none _), hhit,
      Option.bind_eq_bind, Option.bind_some, if_pos rfl, tlbMiss, pageWalk_eq]
    simp only [hfront, hnode, Option.bind_eq_bind, Option.bind_some, if_pos hn, tlbInsert_eq hn,
      h.policy, hmove]
    rfl
  · have hnodup := List.nodup_cons.mp h.lines_nodup
    have hrest : ∀ m ∈ post,
        Table.held (update s.tlb ⟨n.2.toNat, hn⟩ entry) m = s.tlb.held m := by
      intro m hm
      refine held_update_of_ne s.tlb entry hn ?_
      intro heq
      exact hnodup.1 (heq ▸ List.mem_map_of_mem hm)
    have hself : Table.held (update s.tlb ⟨n.2.toNat, hn⟩ entry) n =
        some (virtAddrToVirtualPageNumber vaddr) := by
      rw [held_eq_some_iff hn, update_self]
      exact ⟨setWidth_setWidth_virtualPageNumber vaddr, rfl⟩
    refine ⟨h.policy, hll, fun m hm => h.lines_lt m (hperm.mem_iff.mp hm), ?_, ?_, ?_, ?_⟩
    · exact (hperm.map Prod.snd).nodup_iff.mpr h.lines_nodup
    · rw [hperm.length_eq, lruOrder_concat_of_not_mem hmem h.held_eq.symm, List.map_append,
        List.map_singleton, hself, List.map_congr_left hrest]
    · intro i hi
      rcases eq_or_ne i ⟨n.2.toNat, hn⟩ with rfl | hne
      · exact ⟨n, by simp, rfl⟩
      · simp only [update_of_ne hne] at hi
        obtain ⟨m, hm, hmi⟩ := h.named i hi
        exact ⟨m, hperm.mem_iff.mpr hm, hmi⟩
    · intro i hi vaddr' htag
      rcases eq_or_ne i ⟨n.2.toNat, hn⟩ with rfl | hne
      · simp only [update_self] at htag ⊢
        exact pageFrame_congr memSpace ((setWidth_setWidth_virtualPageNumber vaddr).symm.trans htag)
      · simp only [update_of_ne hne] at hi htag ⊢
        exact h.frame i hi vaddr' htag

/-- **One search** answers with the walk, hits exactly the recent pages, and keeps the order. -/
theorem Tracks.search (h : Tracks memSpace pages s nodes) (hpos : 0 < nodes.length) {fuel : ℕ}
    (hfuel : nodes.length ≤ fuel) (vaddr : VirtAddr) :
    ∃ s' nodes', tlbSearch fuel memSpace vaddr s =
        some
          { err := .errNone
            paddr := some ⟨pageFrame memSpace vaddr, vaddr.pageOffset⟩
            hitOrMiss := some
              (if virtAddrToVirtualPageNumber vaddr ∈ recent nodes.length pages then 1 else 0)
            state := s' } ∧
      nodes'.Perm nodes ∧
      Tracks memSpace (pages ++ [virtAddrToVirtualPageNumber vaddr]) s' nodes' := by
  by_cases hmem : virtAddrToVirtualPageNumber vaddr ∈ recent nodes.length pages
  · rw [if_pos hmem]
    exact h.search_hit hfuel hmem
  · obtain ⟨n, post, rfl⟩ := List.exists_cons_of_length_pos hpos
    rw [if_neg hmem]
    exact h.search_miss hfuel hmem

theorem tracks_tlbFlush (memSpace : Mem) {heap : Heap} {ll : ListT}
    (hlist : ll.Represents heap nodes) (hlt : ∀ n ∈ nodes, n.2.toNat < tlbLines)
    (hnodup : (nodes.map Prod.snd).Nodup) :
    Tracks memSpace [] ⟨tlbFlush, heap, listPolicy ll⟩ nodes := by
  refine ⟨rfl, hlist, hlt, hnodup, ?_, ?_, ?_⟩
  · rw [lruOrder_nil, List.eq_replicate_iff]
    refine ⟨List.length_map _, fun held hmem => ?_⟩
    obtain ⟨n, hn, rfl⟩ := List.mem_map.mp hmem
    rw [Table.held, dif_pos (hlt n hn)]
    rfl
  · rintro i ⟨⟩
  · rintro i ⟨⟩

/-- **Every run** from a flushed TLB goes through and keeps the order of its own history. -/
theorem exists_runSearches (memSpace : Mem) {heap : Heap} {ll : ListT}
    (hlist : ll.Represents heap nodes) (hpos : 0 < nodes.length)
    (hlt : ∀ n ∈ nodes, n.2.toNat < tlbLines) (hnodup : (nodes.map Prod.snd).Nodup) {fuel : ℕ}
    (hfuel : nodes.length ≤ fuel) (vaddrs : List VirtAddr) :
    ∃ s, runSearches fuel memSpace ⟨tlbFlush, heap, listPolicy ll⟩ vaddrs = some s ∧
      ∃ nodes', nodes'.Perm nodes ∧
        Tracks memSpace (vaddrs.map virtAddrToVirtualPageNumber) s nodes' := by
  refine runM_invariant (I := fun vaddrs s => ∃ nodes' : List (Ptr × ListContent),
    nodes'.Perm nodes ∧ Tracks memSpace (vaddrs.map virtAddrToVirtualPageNumber) s nodes')
    ⟨nodes, .refl _, tracks_tlbFlush memSpace hlist hlt hnodup⟩ ?_ vaddrs
  rintro vaddrs vaddr s ⟨nodes', hperm, h⟩
  obtain ⟨s', nodes'', hsearch, hperm', h'⟩ :=
    h.search (hperm.length_eq ▸ hpos) (hperm.length_eq ▸ hfuel) vaddr
  refine ⟨s', by rw [hsearch, Option.map_some], nodes'', hperm'.trans hperm, ?_⟩
  rw [List.map_append]
  exact h'

/-- **The fully associative TLB is an exact LRU cache of `page_walk`.** Start from a flushed TLB
and a well-formed list naming `k` distinct lines. After any sequence of searches one more search
succeeds with the address the walk computes, and hits exactly when its page is among the `k` most
recently searched ones. The list still names the same lines, which hold, front to back, the pages
from the least to the most recently searched, and no two valid lines hold the same tag. `fuel`
bounds the nodes `tlb_hit` may visit. -/
theorem tlb_lru (memSpace : Mem) {heap : Heap} {ll : ListT} {nodes : List (Ptr × ListContent)}
    (hlist : ll.Represents heap nodes) (hpos : 0 < nodes.length)
    (hlt : ∀ n ∈ nodes, n.2.toNat < tlbLines) (hnodup : (nodes.map Prod.snd).Nodup) {fuel : ℕ}
    (hfuel : nodes.length ≤ fuel) (vaddrs : List VirtAddr) (vaddr : VirtAddr) :
    let pages := vaddrs.map virtAddrToVirtualPageNumber
    let page := virtAddrToVirtualPageNumber vaddr
    ∃ s paddr hitOrMiss s',
      runSearches fuel memSpace ⟨tlbFlush, heap, listPolicy ll⟩ vaddrs = some s ∧
      tlbSearch fuel memSpace vaddr s =
        some { err := .errNone, paddr := some paddr, hitOrMiss := some hitOrMiss, state := s' } ∧
      pageWalk memSpace vaddr = .ok paddr ∧
      hitOrMiss = (if page ∈ recent nodes.length pages then 1 else 0) ∧
      (∃ nodes', s'.replacementPolicy.ll.Represents s'.heap nodes' ∧ nodes'.Perm nodes ∧
        nodes'.map s'.tlb.held = lruOrder nodes.length (pages ++ [page])) ∧
      ∀ i j, (s'.tlb i).v = true → (s'.tlb j).v = true → (s'.tlb i).tag = (s'.tlb j).tag →
        i = j := by
  intro pages page
  obtain ⟨s, hrun, nodes', hperm, h⟩ :=
    exists_runSearches memSpace hlist hpos hlt hnodup hfuel vaddrs
  obtain ⟨s', nodes'', hsearch, hperm', h'⟩ :=
    h.search (hperm.length_eq ▸ hpos) (hperm.length_eq ▸ hfuel) vaddr
  have hlen : nodes''.length = nodes.length := (hperm'.trans hperm).length_eq
  refine ⟨s, _, _, s', hrun, hsearch, pageWalk_eq memSpace vaddr, ?_,
    ⟨nodes'', h'.list, hperm'.trans hperm, hlen ▸ h'.held_eq⟩, fun i j => h'.eq_of_tag_eq⟩
  rw [hperm.length_eq]

/-- The list of the test program names all the lines: searching a page twice hits the second
time. -/
theorem tlb_lru_filled :
    ∃ heap ll s r, fillList tlbLines = some (heap, ll) ∧
      runSearches tlbLines (fun _ => 0) ⟨tlbFlush, heap, listPolicy ll⟩ [⟨0, 1, 2, 3, 4, 5⟩] =
        some s ∧
      tlbSearch tlbLines (fun _ => 0) ⟨0, 1, 2, 3, 4, 6⟩ s = some r ∧ r.hitOrMiss = some 1 := by
  obtain ⟨heap, ll, hfill, hlist⟩ := exists_fillList tlbLines
  obtain ⟨s, paddr, hitOrMiss, s', hrun, hsearch, -, hhit, -⟩ :=
    tlb_lru (fun _ => 0) hlist (by simp) (by decide +kernel) (by decide +kernel)
      (length_filledNodes tlbLines).le [⟨0, 1, 2, 3, 4, 5⟩] ⟨0, 1, 2, 3, 4, 6⟩
  exact ⟨heap, ll, s, _, hfill, hrun, hsearch, congrArg some (hhit.trans (by decide +kernel))⟩

end MemoryHierarchy.Tlb
