import MemoryHierarchy.Cache.Exclusive

/-!
# No line is lost or invented

The lines cached in an L1 cache or in L2, whatever the contents of the two: duplicates and holes
are allowed. An access adds its own line and drops at most one, and it drops one only when the
L1 set is full and the L2 set that receives the L1 victim is full too, a promoted entry having
been invalidated before (`lineAccounting_access`). Promotion itself drops nothing: the copy it
invalidates is one of the accessed line.
-/

namespace MemoryHierarchy

open Lib Function

variable {g : Geometry} {l1 : Cache g} {l2 : Cache .l2Cache} {phyAddr : BitVec 32}

/-- The numbers of the lines held in an L1 cache or in L2. -/
def cachedLines (l1 : Cache g) (l2 : Cache .l2Cache) : Set ℕ :=
  {n | (∃ i w, Holds l1 n i w) ∨ ∃ j u, Holds l2 n j u}

theorem cachedLines_eq (l1 : Cache g) (l2 : Cache .l2Cache) :
    cachedLines l1 l2 = kept (lineAt l1) ∪ kept (lineAt l2) := by
  have hkept : ∀ {g : Geometry} (cache : Cache g) (n : ℕ),
      n ∈ kept (lineAt cache) ↔ ∃ i w, Holds cache n i w := by
    intro g cache n
    constructor
    · rintro ⟨⟨i, w⟩, h⟩
      exact ⟨i, w, lineAt_eq_some_iff.mp h⟩
    · rintro ⟨i, w, h⟩
      exact ⟨(i, w), lineAt_eq_some_iff.mpr h⟩
  ext n
  rw [Set.mem_union, hkept, hkept]
  rfl

/-! ### What an access may drop -/

/-- L2 with the entry that a lookup finds invalidated, as a promotion does it. -/
def clearFound (l2 : Cache .l2Cache) (phyAddr : BitVec 32) : Cache .l2Cache :=
  match lookup l2 phyAddr with
  | some u => clearValid l2 (extractLineIndex .l2Cache phyAddr) u
  | none => l2

/-- Both sets an access goes through are full, and line `n` is in the L2 one: the L1 set of the
address has no free way, nor has the L2 set that receives its victim, a promoted entry having
been invalidated. -/
structure Overflows (l1 : Cache g) (l2 : Cache .l2Cache) (phyAddr : BitVec 32) (n : ℕ) :
    Prop where
  l1_full : ∀ w, (l1 (extractLineIndex g phyAddr) w).v = true
  l2_full : ∃ w, (evict l1 (extractLineIndex g phyAddr)).2 = some w ∧
    (∀ u, (clearFound l2 phyAddr
      (extractLineIndex .l2Cache (oldPhyAddr l1 (extractLineIndex g phyAddr) w)) u).v = true) ∧
    ∃ u, Holds (clearFound l2 phyAddr) n
      (extractLineIndex .l2Cache (oldPhyAddr l1 (extractLineIndex g phyAddr) w)) u

/-- The lines cached after an access, `l1'` and `l2'` being the caches it leaves: those cached
before and the accessed one, minus at most one, which overflowed. -/
structure LineAccounting (l1 : Cache g) (l2 : Cache .l2Cache) (phyAddr : BitVec 32)
    (l1' : Cache g) (l2' : Cache .l2Cache) : Prop where
  accessed : lineOf phyAddr ∈ cachedLines l1' l2'
  not_invented : cachedLines l1' l2' ⊆ insert (lineOf phyAddr) (cachedLines l1 l2)
  at_most_one : (insert (lineOf phyAddr) (cachedLines l1 l2) \ cachedLines l1' l2').Subsingleton
  overflows : ∀ n ∈ insert (lineOf phyAddr) (cachedLines l1 l2) \ cachedLines l1' l2',
    Overflows l1 l2 phyAddr n

/-! ### Insertion -/

/-- Inserting a line into L1, with its victim falling into L2: nothing is invented. -/
private theorem cachedLines_insert (l1 : Cache g) (l2 : Cache .l2Cache) (phyAddr : BitVec 32)
    (line : Line) :
    lineOf phyAddr ∈ cachedLines (insertAt l1 phyAddr (cacheInitEntryWithParam g phyAddr line))
        (spill l1 l2 (extractLineIndex g phyAddr)) ∧
      cachedLines (insertAt l1 phyAddr (cacheInitEntryWithParam g phyAddr line))
        (spill l1 l2 (extractLineIndex g phyAddr)) ⊆
          insert (lineOf phyAddr) (cachedLines l1 l2) := by
  obtain ⟨w, hw⟩ := exists_insertWay (l1 (extractLineIndex g phyAddr))
  rw [cachedLines_eq, cachedLines_eq, lineAt_of_held (held_insertAt line hw), Option.map_some]
  refine ⟨.inl (mem_kept_update_some _ _ _), ?_⟩
  rw [← Set.insert_union]
  refine Set.union_subset (kept_update_some_subset.trans Set.subset_union_left) ?_
  cases hempty : emptyWay (l1 (extractLineIndex g phyAddr)) with
  | some w' =>
    rw [spill_of_free hempty]
    exact Set.subset_union_right
  | none =>
    obtain ⟨v, hv⟩ := exists_victimWay_of_full hempty
    obtain ⟨u, hu⟩ := exists_insertWay
      (l2 (extractLineIndex .l2Cache (oldPhyAddr l1 (extractLineIndex g phyAddr) v)))
    rw [spill_of_full hempty hv, lineAt_of_held (held_insertAt _ hu)]
    -- the line that arrives in L2 is the victim's
    have hvictim : lineOf (oldPhyAddr l1 (extractLineIndex g phyAddr) v) ∈ kept (lineAt l1) :=
      ⟨(extractLineIndex g phyAddr, v), lineAt_of_full hempty v⟩
    refine kept_update_some_subset.trans (Set.insert_subset ?_ Set.subset_union_right)
    exact .inl (Set.mem_insert_of_mem _ hvictim)

/-- Where there is a free way, the way an insertion uses holds nothing. -/
private theorem lineAt_insertWay_of_free {cache : Cache g} {i : Fin g.lines} {w u : Fin g.ways}
    (h : insertWay (cache i) = some w) (hu : (cache i u).v = false) (n : ℕ) :
    lineAt cache (i, w) ≠ some n := by
  intro hat
  have hv := (lineAt_eq_some_iff.mp hat).1
  rw [insertWay_free h hu] at hv
  cases hv

/-- What an insertion loses: the line in the way of L2 that the victim lands on, both sets being
full. -/
private theorem lost_by_insert {line : Line} {n : ℕ} (hn : n ∈ cachedLines l1 l2)
    (hlost : n ∉ cachedLines (insertAt l1 phyAddr (cacheInitEntryWithParam g phyAddr line))
      (spill l1 l2 (extractLineIndex g phyAddr))) :
    emptyWay (l1 (extractLineIndex g phyAddr)) = none ∧
      ∃ w, victimWay (l1 (extractLineIndex g phyAddr)) = some w ∧
        emptyWay (l2 (extractLineIndex .l2Cache (oldPhyAddr l1 (extractLineIndex g phyAddr) w))) =
          none ∧
        ∃ u, insertWay (l2 (extractLineIndex .l2Cache
            (oldPhyAddr l1 (extractLineIndex g phyAddr) w))) = some u ∧
          lineAt l2 (extractLineIndex .l2Cache (oldPhyAddr l1 (extractLineIndex g phyAddr) w), u) =
            some n := by
  obtain ⟨w, hw⟩ := exists_insertWay (l1 (extractLineIndex g phyAddr))
  rw [cachedLines_eq, lineAt_of_held (held_insertAt line hw), Option.map_some] at hlost
  rw [cachedLines_eq] at hn
  cases hempty : emptyWay (l1 (extractLineIndex g phyAddr)) with
  | some w' =>
    -- the line goes into a free way, and L2 is untouched
    rw [spill_of_free hempty] at hlost
    refine absurd ?_ hlost
    have hfree := lineAt_insertWay_of_free hw (emptyWay_eq_some_iff.mp hempty).1 n
    exact hn.imp (fun h => mem_kept_update h hfree _) id
  | none =>
    have hvictim : victimWay (l1 (extractLineIndex g phyAddr)) = some w := by
      simpa [insertWay, hempty] using hw
    obtain ⟨u, hu⟩ := exists_insertWay
      (l2 (extractLineIndex .l2Cache (oldPhyAddr l1 (extractLineIndex g phyAddr) w)))
    rw [spill_of_full hempty hvictim, lineAt_of_held (held_insertAt _ hu), Option.map_some]
      at hlost
    have hat := eq_some_of_lost_by_move (lineAt_of_full hempty w) hn hlost
    refine ⟨rfl, w, hvictim, ?_, u, hu, hat⟩
    -- into a free way nothing would have been lost
    by_contra hfree
    obtain ⟨u', hu'⟩ := Option.ne_none_iff_exists'.mp hfree
    exact lineAt_insertWay_of_free hu (emptyWay_eq_some_iff.mp hu').1 n hat

/-! ### The access -/

/-- Two lines lost were both in the way of L2 that the victim lands on. -/
private theorem lost_by_insert_subsingleton (l1 : Cache g) (l2 : Cache .l2Cache)
    (phyAddr : BitVec 32) (line : Line) :
    (cachedLines l1 l2 \ cachedLines
      (insertAt l1 phyAddr (cacheInitEntryWithParam g phyAddr line))
        (spill l1 l2 (extractLineIndex g phyAddr))).Subsingleton := by
  rintro n ⟨hn, hlost⟩ n' ⟨hn', hlost'⟩
  obtain ⟨-, w, hw, -, u, hu, hat⟩ := lost_by_insert hn hlost
  obtain ⟨-, w', hw', -, u', hu', hat'⟩ := lost_by_insert hn' hlost'
  -- the two land on the same way, the insertion being deterministic
  obtain rfl : w = w' := Option.some_inj.mp (hw.symm.trans hw')
  obtain rfl : u = u' := Option.some_inj.mp (hu.symm.trans hu')
  exact Option.some_inj.mp (hat.symm.trans hat')

/-- The lines of a promoted entry's cache, the accessed line put aside, are those it had. -/
private theorem insert_cachedLines_drop {u : Fin Geometry.l2Cache.ways} (l1 : Cache g)
    (h : lookup l2 phyAddr = some u) (line : Line) :
    insert (lineOf phyAddr) (cachedLines l1 (setAt l2 phyAddr
        (dropSet (l2 (extractLineIndex .l2Cache phyAddr)) u line))) =
      insert (lineOf phyAddr) (cachedLines l1 l2) := by
  have hu : lineAt l2 (extractLineIndex .l2Cache phyAddr, u) = some (lineOf phyAddr) :=
    lineAt_eq_some_iff.mpr (lookup_eq_some_iff.mp h).1
  rw [cachedLines_eq, cachedLines_eq, lineAt_of_held (held_drop l2 phyAddr u line),
    Option.map_none]
  refine Set.Subset.antisymm
    (Set.insert_subset_insert (Set.union_subset_union_right _ kept_update_none_subset)) ?_
  refine Set.insert_subset (Set.mem_insert _ _) ?_
  rintro n (hn | hn)
  · exact .inr (.inl hn)
  · by_cases hnu : n = lineOf phyAddr
    · exact .inl hnu
    · refine .inr (.inr (mem_kept_update hn ?_ _))
      rw [hu]
      exact fun heq => hnu (Option.some_inj.mp heq).symm

/-- The lookup's ageing and the data put aside, dropping a way is clearing its valid bit. -/
private theorem drop_eq_clearValid (l2 : Cache .l2Cache) (phyAddr : BitVec 32)
    (u : Fin Geometry.l2Cache.ways) (line : Line) (j : Fin Geometry.l2Cache.lines)
    (u' : Fin Geometry.l2Cache.ways) :
    (setAt l2 phyAddr (dropSet (l2 (extractLineIndex .l2Cache phyAddr)) u line) j u').v =
        (clearValid l2 (extractLineIndex .l2Cache phyAddr) u j u').v ∧
      (setAt l2 phyAddr (dropSet (l2 (extractLineIndex .l2Cache phyAddr)) u line) j u').tag =
        (clearValid l2 (extractLineIndex .l2Cache phyAddr) u j u').tag := by
  rw [setAt, clearValid, dropSet]
  by_cases hj : j = extractLineIndex .l2Cache phyAddr
  · rw [hj, update_self, update_self]
    by_cases hu : u' = u
    · rw [hu, update_self, update_self]
      exact ⟨rfl, lruAgeUpdate_tag _ _ _⟩
    · rw [update_of_ne hu, update_of_ne hu]
      exact ⟨lruAgeUpdate_v _ _ _, lruAgeUpdate_tag _ _ _⟩
  · rw [update_of_ne hj, update_of_ne hj]
    exact ⟨rfl, rfl⟩

/-- Accounting for an insertion into L1, `l2p` being L2 after the promotion. -/
private theorem lineAccounting_insert {l2p : Cache .l2Cache} {line : Line}
    (hlines : insert (lineOf phyAddr) (cachedLines l1 l2p) =
      insert (lineOf phyAddr) (cachedLines l1 l2))
    (hl2p : ∀ j u, (l2p j u).v = (clearFound l2 phyAddr j u).v ∧
      (l2p j u).tag = (clearFound l2 phyAddr j u).tag) :
    LineAccounting l1 l2 phyAddr (insertAt l1 phyAddr (cacheInitEntryWithParam g phyAddr line))
      (spill l1 l2p (extractLineIndex g phyAddr)) := by
  obtain ⟨haccessed, hsubset⟩ := cachedLines_insert l1 l2p phyAddr line
  -- what is lost was cached after the promotion
  have hlost : ∀ n, n ∈ insert (lineOf phyAddr) (cachedLines l1 l2) \
      cachedLines (insertAt l1 phyAddr (cacheInitEntryWithParam g phyAddr line))
        (spill l1 l2p (extractLineIndex g phyAddr)) → n ∈ cachedLines l1 l2p := by
    rintro n ⟨hn, hnot⟩
    rw [← hlines] at hn
    exact hn.resolve_left fun heq => hnot (heq ▸ haccessed)
  refine ⟨haccessed, hlines ▸ hsubset, ?_, fun n hn => ?_⟩
  · exact (lost_by_insert_subsingleton l1 l2p phyAddr line).anti
      fun n hn => ⟨hlost n hn, hn.2⟩
  · obtain ⟨hfull, w, hw, hfull2, u, -, hat⟩ := lost_by_insert (hlost n hn) hn.2
    refine ⟨emptyWay_eq_none_iff.mp hfull, w, by rw [evict_eq _ _ hw], fun u => ?_, u, ?_⟩
    · rw [← (hl2p _ u).1]
      exact emptyWay_eq_none_iff.mp hfull2 u
    · obtain ⟨hvalid, hnumber⟩ := lineAt_eq_some_iff.mp hat
      rw [(hl2p _ u).1] at hvalid
      rw [(hl2p _ u).2] at hnumber
      exact ⟨hvalid, hnumber⟩

/-- **No line is lost or invented by an access.** -/
theorem lineAccounting_access (l1 : Cache g) (l2 : Cache .l2Cache) (phyAddr : BitVec 32)
    (line : Line) :
    LineAccounting l1 l2 phyAddr (access l1 l2 phyAddr line).1
      (access l1 l2 phyAddr line).2 := by
  cases h1 : lookup l1 phyAddr with
  | some w =>
    -- a hit in L1 moves nothing
    have hsame : cachedLines (access l1 l2 phyAddr line).1 (access l1 l2 phyAddr line).2 =
        cachedLines l1 l2 := by
      rw [cachedLines_eq, cachedLines_eq, lineAt_access_of_hit l2 h1, access_snd_of_hit l2 h1]
    have hmem : lineOf phyAddr ∈ cachedLines l1 l2 := .inl ⟨_, w, (lookup_eq_some_iff.mp h1).1⟩
    have hnone : insert (lineOf phyAddr) (cachedLines l1 l2) \
        cachedLines (access l1 l2 phyAddr line).1 (access l1 l2 phyAddr line).2 = ∅ := by
      rw [hsame, Set.insert_eq_of_mem hmem, Set.sdiff_self]
    refine ⟨hsame ▸ hmem, hsame ▸ Set.subset_insert _ _, ?_, ?_⟩
    · rw [hnone]
      exact Set.subsingleton_empty
    · rw [hnone]
      exact fun n hn => absurd hn (Set.notMem_empty n)
  | none =>
    rw [access, h1]
    cases h2 : lookup l2 phyAddr with
    | some u =>
      refine lineAccounting_insert (insert_cachedLines_drop l1 h2 line) fun j u' => ?_
      rw [clearFound, h2]
      exact drop_eq_clearValid l2 phyAddr u line j u'
    | none =>
      have hp : clearFound l2 phyAddr = l2 := by rw [clearFound, h2]
      exact lineAccounting_insert rfl fun j u => by rw [hp]; exact ⟨rfl, rfl⟩

/-- **No line is lost or invented**, by `cache_read` nor by `cache_write`: at most one line is
dropped, and only when it overflows both levels. -/
theorem lineAccounting_cacheRead_cacheWrite (memSpace : Mem) {paddr : PhyAddr}
    (haligned : paddr.pageOffset.toNat % 4 = 0) (l1 : Cache g) (l2 : Cache .l2Cache) :
    LineAccounting l1 l2 (phyToInt paddr) (cacheRead memSpace paddr l1 l2).2.2.1
        (cacheRead memSpace paddr l1 l2).2.2.2 ∧
      ∀ word, LineAccounting l1 l2 (phyToInt paddr) (cacheWrite memSpace paddr l1 l2 word).2.2.1
        (cacheWrite memSpace paddr l1 l2 word).2.2.2 := by
  constructor
  · rw [cacheRead_eq haligned]
    exact lineAccounting_access l1 l2 _ _
  · intro word
    rw [cacheWrite_eq haligned]
    exact lineAccounting_access l1 l2 _ _

/-- Two full caches: a write that misses both drops a line, one that hits in L2 promotes it. -/
theorem lineAccounting_cacheRead_cacheWrite_full :
    LineAccounting (fullCache .l1Dcache 4096) (fullCache .l2Cache 0) (phyToInt ⟨256, 20⟩)
        (cacheWrite (fun _ => 0) ⟨256, 20⟩ (fullCache .l1Dcache 4096)
          (fullCache .l2Cache 0) 7).2.2.1
        (cacheWrite (fun _ => 0) ⟨256, 20⟩ (fullCache .l1Dcache 4096)
          (fullCache .l2Cache 0) 7).2.2.2 ∧
      LineAccounting (fullCache .l1Dcache 4096) (fullCache .l2Cache 0) (phyToInt ⟨1, 16⟩)
        (cacheWrite (fun _ => 0) ⟨1, 16⟩ (fullCache .l1Dcache 4096)
          (fullCache .l2Cache 0) 7).2.2.1
        (cacheWrite (fun _ => 0) ⟨1, 16⟩ (fullCache .l1Dcache 4096)
          (fullCache .l2Cache 0) 7).2.2.2 :=
  ⟨(lineAccounting_cacheRead_cacheWrite _ (by decide) _ _).2 7,
    (lineAccounting_cacheRead_cacheWrite _ (by decide) _ _).2 7⟩

end MemoryHierarchy
