import MemoryHierarchy.Cache.L1Lru

/-!
# Holes in L2

`cache_hit` stops at the first invalid way, so it is complete as long as the valid ways of a
set are a prefix of it. The L1 caches keep that by themselves: they only ever replace. L2 does
not: a promotion to L1 invalidates the way it finds, wherever it is. The set stays packed when
that way is the last valid one, or when the L1 victim of the promotion falls into the same set
and fills the hole (`CacheState.LeavesNoHole`).
-/

namespace MemoryHierarchy

open Lib Function

variable {g : Geometry}

/-! ### Complete lookups -/

/-- `cache_hit` at an address reports a hit exactly when some way of the indexed set is valid
with the tag of the address, and then points at such a way. -/
structure HitComplete (cache : Cache g) (paddr : PhyAddr) : Prop where
  isSome_iff : (cacheHit cache paddr).2.isSome = true ↔
    ∃ w, (cache (extractLineIndex g (phyToInt paddr)) w).v = true ∧
      (cache (extractLineIndex g (phyToInt paddr)) w).tag = addrTag g (phyToInt paddr)
  hit : ∀ hit, (cacheHit cache paddr).2 = some hit →
    hit.hitIndex = extractLineIndex g (phyToInt paddr) ∧
      (cache hit.hitIndex hit.hitWay).v = true ∧
      (cache hit.hitIndex hit.hitWay).tag = addrTag g (phyToInt paddr) ∧
      hit.pLine = (cache hit.hitIndex hit.hitWay).line

/-- The lookup is complete at an address exactly when the line, if it is held at all, is held
by a way with no invalid way before it. -/
theorem hitComplete_iff {cache : Cache g} {paddr : PhyAddr} :
    HitComplete cache paddr ↔
      ((∃ w, Holds cache (lineOf (phyToInt paddr)) (extractLineIndex g (phyToInt paddr)) w) →
        ∃ w, Holds cache (lineOf (phyToInt paddr)) (extractLineIndex g (phyToInt paddr)) w ∧
          ∀ u < w, (cache (extractLineIndex g (phyToInt paddr)) u).v = true) := by
  have hholds : ∀ w,
      Holds cache (lineOf (phyToInt paddr)) (extractLineIndex g (phyToInt paddr)) w ↔
        (cache (extractLineIndex g (phyToInt paddr)) w).v = true ∧
          (cache (extractLineIndex g (phyToInt paddr)) w).tag = addrTag g (phyToInt paddr) :=
    fun w => by rw [holds_lineOf_iff, eq_self_iff_true, true_and]
  cases hlookup : lookup cache (phyToInt paddr) with
  | some w =>
    have hfound := (lookup_eq_some_iff.mp hlookup)
    have hw := (hholds w).mp hfound.1
    refine iff_of_true ⟨?_, fun hit hhit => ?_⟩ fun _ =>
      ⟨w, hfound.1, fun u hu => (hfound.2 u hu).1⟩
    · rw [cacheHit_eq_some hlookup]
      exact iff_of_true rfl ⟨w, hw⟩
    · rw [cacheHit_eq_some hlookup] at hhit
      obtain rfl := Option.some_inj.mp hhit
      exact ⟨rfl, hw.1, hw.2, rfl⟩
  | none =>
    constructor
    · rintro ⟨hsome, -⟩ ⟨w, hw⟩
      rw [cacheHit_eq_none hlookup] at hsome
      exact absurd (hsome.mpr ⟨w, (hholds w).mp hw⟩) (by simp)
    · intro hcomplete
      rw [lookup_eq_none_iff] at hlookup
      have hnot : ∀ w,
          ¬ Holds cache (lineOf (phyToInt paddr)) (extractLineIndex g (phyToInt paddr)) w := by
        intro w hw
        obtain ⟨w', hw', hbefore⟩ := hcomplete ⟨w, hw⟩
        obtain ⟨u, hlt, hu⟩ := hlookup w' hw'
        rw [hbefore u hlt] at hu
        cases hu
      have hmiss : cacheHit cache paddr = (cache, none) :=
        cacheHit_eq_none (lookup_eq_none_iff.mpr hlookup)
      refine ⟨?_, fun hit hhit => ?_⟩
      · rw [hmiss]
        exact iff_of_false (by simp) fun ⟨w, hw⟩ => hnot w ((hholds w).mpr hw)
      · rw [hmiss] at hhit
        cases hhit

/-- The lookup is complete in a packed set. -/
theorem hitComplete_of_packed {cache : Cache g} {paddr : PhyAddr}
    (h : Packed (cache (extractLineIndex g (phyToInt paddr)))) : HitComplete cache paddr :=
  hitComplete_iff.mpr fun ⟨w, hw⟩ => ⟨w, hw, fun u hu => h w u hu hw.1⟩

/-! ### Promotions -/

/-- The L2 set that the victim of an insertion into set `i` of an L1 cache is pushed to, if
there is a victim. -/
def spillIndex (l1 : Cache g) (i : Fin g.lines) : Option (Fin Geometry.l2Cache.lines) :=
  match emptyWay (l1 i) with
  | some _ => none
  | none => (victimWay (l1 i)).map fun w => extractLineIndex .l2Cache (oldPhyAddr l1 i w)

theorem spillIndex_eq_some_iff {l1 : Cache g} {i : Fin g.lines}
    {j : Fin Geometry.l2Cache.lines} :
    spillIndex l1 i = some j ↔ emptyWay (l1 i) = none ∧
      ∃ w, victimWay (l1 i) = some w ∧ extractLineIndex .l2Cache (oldPhyAddr l1 i w) = j := by
  rw [spillIndex]
  cases emptyWay (l1 i) <;> simp

/-- The access does not leave a hole in an L2 set: a way it promotes is the last valid one of
its set, or the L1 victim is pushed to that set. -/
def CacheState.AccessLeavesNoHole (s : CacheState) (access : MemAccess) (phyAddr : BitVec 32) :
    Prop :=
  lookup (s.l1 access) phyAddr = none → ∀ u, lookup s.l2Cache phyAddr = some u →
    (∀ w, u < w → (s.l2Cache (extractLineIndex .l2Cache phyAddr) w).v = false) ∨
      spillIndex (s.l1 access) (extractLineIndex .l1Icache phyAddr) =
        some (extractLineIndex .l2Cache phyAddr)

/-- The step condition: the access an operation makes leaves no hole. -/
def CacheState.LeavesNoHole (s : CacheState) (op : CacheOp) : Prop :=
  op.Aligned → s.AccessLeavesNoHole op.access (phyToInt op.target)

instance (s : CacheState) (op : CacheOp) : Decidable (s.LeavesNoHole op) := by
  unfold CacheState.LeavesNoHole CacheState.AccessLeavesNoHole
  infer_instance

/-- Dropping the last valid way leaves no hole. -/
private theorem packed_dropSet {set : CacheSet g} (h : Packed set) {u : Fin g.ways}
    (hlast : ∀ w, u < w → (set w).v = false) (line : Line) : Packed (dropSet set u line) := by
  intro w x hlt hw
  have hwu : w ≠ u := by
    rintro rfl
    rw [dropSet_self_v] at hw
    cases hw
  rw [dropSet_v_of_ne set hwu] at hw
  have hwlt : w < u := by
    rcases lt_or_gt_of_ne hwu with hlt' | hgt
    · exact hlt'
    · rw [hlast w hgt] at hw
      cases hw
  rw [dropSet_v_of_ne set (hlt.trans hwlt).ne]
  exact h w x hlt hw

/-- An insertion right after a way is dropped fills the hole. -/
private theorem packed_insertSet_dropSet {set : CacheSet g} (h : Packed set) {u : Fin g.ways}
    (hu : (set u).v = true) (line : Line) {entry : CacheEntry g} (hentry : entry.v = true) :
    Packed (insertSet (dropSet set u line) entry) := by
  have hempty : emptyWay (dropSet set u line) = some u := by
    rw [emptyWay_eq_some_iff]
    refine ⟨dropSet_self_v set u line, fun w hw => ?_⟩
    rw [dropSet_v_of_ne set hw.ne]
    exact h u w hw hu
  have hway : insertWay (dropSet set u line) = some u := insertWay_eq_some_iff.mpr (.inl hempty)
  refine h.congr fun w => ?_
  rcases eq_or_ne w u with rfl | hw
  · rw [(insertSet_self hway entry).1, hentry, hu]
  · rw [(insertSet_of_ne hway entry hw).1, dropSet_v_of_ne set hw]

/-- Spilling keeps L2 packed. -/
private theorem packed_spill {l1 : Cache g} {l2 : Cache .l2Cache} (h : ∀ j, Packed (l2 j))
    (i : Fin g.lines) (j : Fin Geometry.l2Cache.lines) : Packed (spill l1 l2 i j) := by
  cases hempty : emptyWay (l1 i) with
  | some w =>
    rw [spill_of_free hempty]
    exact h j
  | none =>
    obtain ⟨w, hw⟩ := exists_victimWay_of_full hempty
    rw [spill_of_full hempty hw, insertAt, update_apply]
    split_ifs
    · exact (h _).insertSet rfl
    · exact h j

/-- **An access that leaves no hole keeps L2 packed.** -/
theorem packed_access {s : CacheState} {access : MemAccess} {phyAddr : BitVec 32}
    (h : ∀ j, Packed (s.l2Cache j)) (hno : s.AccessLeavesNoHole access phyAddr) (line : Line)
    (j : Fin Geometry.l2Cache.lines) :
    Packed ((MemoryHierarchy.access (s.l1 access) s.l2Cache phyAddr line).2 j) := by
  rw [MemoryHierarchy.access]
  cases h1 : lookup (s.l1 access) phyAddr with
  | some w => exact h j
  | none =>
    cases h2 : lookup s.l2Cache phyAddr with
    | none => exact packed_spill h _ j
    | some u =>
      have hu := (lookup_eq_some_iff.mp h2).1.1
      rcases hno h1 u h2 with hlast | hspill
      · refine packed_spill (fun j' => ?_) _ j
        rw [setAt, update_apply]
        split_ifs
        · exact packed_dropSet (h _) hlast line
        · exact h j'
      · obtain ⟨hempty, w, hw, hj⟩ := spillIndex_eq_some_iff.mp hspill
        change Packed (spill _ _ _ j)
        rw [spill_of_full hempty hw, insertAt, hj, setAt, update_self, update_apply]
        split_ifs with hset
        · exact packed_insertSet_dropSet (h _) hu line rfl
        · rw [update_of_ne hset]
          exact h j

/-! ### Runs -/

/-- **One command** that leaves no hole keeps L2 packed. -/
theorem packed_stepCommand {s : CacheState} (h : ∀ j, Packed (s.l2Cache j))
    {op : CacheOp} (hno : s.LeavesNoHole op) (j : Fin Geometry.l2Cache.lines) :
    Packed ((stepCommand s op).l2Cache j) := by
  by_cases ha : op.Aligned
  · rw [stepCommand_l2Cache s ha]
    exact packed_access h (hno ha) _ j
  · rw [stepCommand, executeCommand_unaligned ha]
    exact h j

/-- **Lookups are complete.** In every reachable state for the L1 caches, and for L2 along
every run whose operations leave no hole. -/
theorem cacheHit_complete (memSpace : Mem) (ops : List CacheOp)
    (hno : StepsMeet stepCommand CacheState.LeavesNoHole (flushed memSpace) ops)
    (paddr : PhyAddr) :
    (∀ access, HitComplete ((runCommands (flushed memSpace) ops).l1 access) paddr) ∧
      HitComplete (runCommands (flushed memSpace) ops).l2Cache paddr := by
  have hrun := run_invariant (I := fun _ (s : CacheState) =>
      s.L1Sound ∧ ∀ j, Packed (s.l2Cache j))
    ⟨l1Sound_flushed memSpace, fun j => packed_cacheFlush j⟩
    (fun _ op s hs hop =>
      ⟨l1Sound_stepCommand hs.1 op, packed_stepCommand hs.2 hop⟩) hno
  refine ⟨fun access => ?_, hitComplete_of_packed (hrun.2 _)⟩
  obtain ⟨history, hl1⟩ := hrun.1 access
  exact hitComplete_of_packed (hl1 _).1

/-- Lines that share an L1 set and, as the page number is even, an L2 set. -/
abbrev lineA (k : BitVec 20) : PhyAddr := ⟨2 * k, 0⟩

/-- Lines of the same L1 set and another L2 set. -/
abbrev lineB (k : BitVec 20) : PhyAddr := ⟨2 * k, 1024⟩

/-- A line pushed down to L2 and brought back, its L2 way the only valid one of its set. -/
theorem cacheHit_complete_promoted :
    HitComplete (runCommands (flushed fun _ => 0)
      [.read .data (lineA 1), .read .data (lineB 1), .read .data (lineB 2),
        .read .data (lineB 3), .read .data (lineB 4), .read .data (lineA 1)]).l2Cache
      (lineB 1) :=
  (cacheHit_complete _ _ (by decide +kernel) _).2

/-- `lineA 1` and `lineA 2` are pushed down to L2, in this order; reading `lineA 1` again
frees the first way of their set, while its victim, a `B` line, goes to another set. -/
def holeRun : List CacheOp :=
  [.read .data (lineA 1), .read .data (lineA 2), .read .data (lineB 1), .read .data (lineB 2),
    .read .data (lineB 3), .read .data (lineB 4), .read .data (lineA 1)]

/-- After `holeRun` the lookup misses `lineA 2`, which L2 holds. -/
theorem not_cacheHit_complete :
    ¬ ∀ (memSpace : Mem) (ops : List CacheOp), (∀ op ∈ ops, op.Aligned) →
      ∀ paddr, (∀ access, HitComplete ((runCommands (flushed memSpace) ops).l1 access) paddr) ∧
        HitComplete (runCommands (flushed memSpace) ops).l2Cache paddr := by
  intro h
  have hiff := (h (fun _ => 0) holeRun (by decide) (lineA 2)).2.isSome_iff
  exact absurd (hiff.mpr ⟨1, by decide +kernel⟩) (by decide +kernel)

end MemoryHierarchy
