import MemoryHierarchy.Tlb.TlbLru

/-!
# More lines never cost a hit

Which searches hit depends on the pages searched and on the number of lines alone
(`runHits_eq`). The recent pages of a shorter list are among those of a longer one, so a TLB with
more lines hits wherever one with fewer does (`hits_of_le`): the replacement has no anomaly.
-/

namespace MemoryHierarchy.Tlb

open Lib

/-- What the searches of a run store in `*hit_or_miss`. -/
def runHits (fuel : ℕ) (memSpace : Mem) : State → List VirtAddr → Option (List (Option ℕ))
  | _, [] => some []
  | s, vaddr :: vaddrs => do
    let r ← tlbSearch fuel memSpace vaddr s
    let hits ← runHits fuel memSpace r.state vaddrs
    some (r.hitOrMiss :: hits)

/-- The same for `k` lines and the pages searched before, with no table kept. -/
def hitsOf (k : ℕ) : List (BitVec 64) → List VirtAddr → List (Option ℕ)
  | _, [] => []
  | pages, vaddr :: vaddrs =>
    some (if virtAddrToVirtualPageNumber vaddr ∈ recent k pages then 1 else 0) ::
      hitsOf k (pages ++ [virtAddrToVirtualPageNumber vaddr]) vaddrs

variable {memSpace : Mem} {pages : List (BitVec 64)} {s : State} {fuel : ℕ}
  {nodes : List (Ptr × ListContent)}

/-- **The hits of a run** are a matter of the pages. -/
theorem Tracks.runHits_eq (h : Tracks memSpace pages s nodes) (hpos : 0 < nodes.length)
    (hfuel : nodes.length ≤ fuel) (vaddrs : List VirtAddr) :
    runHits fuel memSpace s vaddrs = some (hitsOf nodes.length pages vaddrs) := by
  induction vaddrs generalizing pages s nodes with
  | nil => rfl
  | cons vaddr vaddrs ih =>
    obtain ⟨s', nodes', hsearch, hperm, h'⟩ := h.search hpos hfuel vaddr
    have hlength := hperm.length_eq
    simp only [runHits, hsearch, Option.bind_eq_bind, Option.bind_some]
    rw [ih h' (hlength ▸ hpos) (hlength ▸ hfuel), hlength]
    rfl

/-- A list without lines has no front: every search is refused. -/
theorem runHits_of_front_eq_none (h : s.replacementPolicy.ll.front = none)
    (vaddrs : List VirtAddr) :
    runHits fuel memSpace s vaddrs = some (vaddrs.map fun _ => none) := by
  induction vaddrs with
  | nil => rfl
  | cons vaddr vaddrs ih => simp [runHits, tlbSearch, h, ih]

theorem length_hitsOf (k : ℕ) (pages : List (BitVec 64)) (vaddrs : List VirtAddr) :
    (hitsOf k pages vaddrs).length = vaddrs.length := by
  induction vaddrs generalizing pages with
  | nil => rfl
  | cons vaddr vaddrs ih => exact congrArg Nat.succ (ih _)

/-- With lines or without, a run of searches has a result, one entry a search. -/
theorem Tracks.exists_runHits (h : Tracks memSpace pages s nodes) (hfuel : nodes.length ≤ fuel)
    (vaddrs : List VirtAddr) :
    ∃ hits, runHits fuel memSpace s vaddrs = some hits ∧ hits.length = vaddrs.length := by
  cases nodes with
  | nil => exact ⟨_, runHits_of_front_eq_none h.list.front_eq vaddrs, List.length_map ..⟩
  | cons n nodes =>
    exact ⟨_, h.runHits_eq (Nat.succ_pos _) hfuel vaddrs, length_hitsOf _ pages vaddrs⟩

theorem forall₂_hitsOf {k k' : ℕ} (hk : k ≤ k') (pages : List (BitVec 64))
    (vaddrs : List VirtAddr) :
    List.Forall₂ (fun hit hit' => hit = some 1 → hit' = some 1) (hitsOf k pages vaddrs)
      (hitsOf k' pages vaddrs) := by
  induction vaddrs generalizing pages with
  | nil => exact .nil
  | cons vaddr vaddrs ih =>
    refine .cons (fun hhit => ?_) (ih _)
    by_cases hmem : virtAddrToVirtualPageNumber vaddr ∈ recent k pages
    · rw [if_pos (mem_recent_of_le hk hmem)]
    · rw [if_neg hmem] at hhit
      cases hhit

/-- **More lines, no fewer hits.** Two flushed TLBs, whose well-formed lists name distinct lines,
are searched for the same addresses, each over a memory of its own. If the second list is at least
as long, every search that hits in the first one hits in the second. -/
theorem hits_of_le (memSpace memSpace' : Mem) {heap heap' : Heap} {ll ll' : ListT}
    {nodes nodes' : List (Ptr × ListContent)} (hlist : ll.Represents heap nodes)
    (hlist' : ll'.Represents heap' nodes') (hle : nodes.length ≤ nodes'.length)
    (hlt : ∀ n ∈ nodes, n.2.toNat < tlbLines) (hlt' : ∀ n ∈ nodes', n.2.toNat < tlbLines)
    (hnodup : (nodes.map Prod.snd).Nodup) (hnodup' : (nodes'.map Prod.snd).Nodup) {fuel : ℕ}
    (hfuel : nodes'.length ≤ fuel) (vaddrs : List VirtAddr) :
    ∃ hits hits',
      runHits fuel memSpace ⟨tlbFlush, heap, listPolicy ll⟩ vaddrs = some hits ∧
      runHits fuel memSpace' ⟨tlbFlush, heap', listPolicy ll'⟩ vaddrs = some hits' ∧
      List.Forall₂ (fun hit hit' => hit = some 1 → hit' = some 1) hits hits' := by
  have htracks := tracks_tlbFlush memSpace hlist hlt hnodup
  have htracks' := tracks_tlbFlush memSpace' hlist' hlt' hnodup'
  cases nodes with
  | nil =>
    obtain ⟨hits', hruns', hlength⟩ := htracks'.exists_runHits hfuel vaddrs
    refine ⟨_, hits', runHits_of_front_eq_none hlist.front_eq vaddrs, hruns', ?_⟩
    rw [List.forall₂_map_left_iff, List.forall₂_iff_get]
    refine ⟨hlength.symm, fun i hi hi' hhit => ?_⟩
    cases hhit
  | cons n nodes =>
    have hpos : 0 < (n :: nodes).length := Nat.succ_pos _
    exact ⟨_, _, htracks.runHits_eq hpos (hle.trans hfuel) vaddrs,
      htracks'.runHits_eq (hpos.trans_le hle) hfuel vaddrs, forall₂_hitsOf hle [] vaddrs⟩

/-- With two lines and with three. -/
theorem hits_of_le_three :
    ∃ heap ll heap' ll' hits hits', fillList 2 = some (heap, ll) ∧
      fillList 3 = some (heap', ll') ∧
      runHits 3 (fun _ => 0) ⟨tlbFlush, heap, listPolicy ll⟩
        [⟨0, 0, 0, 0, 1, 0⟩, ⟨0, 0, 0, 0, 2, 0⟩, ⟨0, 0, 0, 0, 1, 8⟩] = some hits ∧
      runHits 3 (fun _ => 1) ⟨tlbFlush, heap', listPolicy ll'⟩
        [⟨0, 0, 0, 0, 1, 0⟩, ⟨0, 0, 0, 0, 2, 0⟩, ⟨0, 0, 0, 0, 1, 8⟩] = some hits' ∧
      List.Forall₂ (fun hit hit' => hit = some 1 → hit' = some 1) hits hits' := by
  obtain ⟨heap, ll, hfill, hlist⟩ := exists_fillList 2
  obtain ⟨heap', ll', hfill', hlist'⟩ := exists_fillList 3
  obtain ⟨hits, hits', hruns⟩ := hits_of_le (fun _ => 0) (fun _ => 1) hlist hlist' (by simp)
    (by decide) (by decide) (by decide) (by decide) (length_filledNodes 3).le
    [⟨0, 0, 0, 0, 1, 0⟩, ⟨0, 0, 0, 0, 2, 0⟩, ⟨0, 0, 0, 0, 1, 8⟩]
  exact ⟨heap, ll, heap', ll', hits, hits', hfill, hfill', hruns⟩

end MemoryHierarchy.Tlb
