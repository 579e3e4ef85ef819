import MemoryHierarchy.Cache.WriteThrough

/-!
# Programs that fit in the L1 caches

A condition on a sequence of operations alone: in no set of an L1 cache does it access more than
four lines, and it writes no line that it also fetches as instructions. Such a program never evicts
anything, so that L2 stays empty and no write can find a second copy of its line. It runs as on a
flat memory, and misses only on the first access to a line.
-/

namespace MemoryHierarchy

open Lib Function

/-! ### The condition -/

/-- No set of an L1 cache sees more lines than it has ways. -/
def FitsL1 (ops : List CacheOp) : Prop :=
  ∀ access i, (lineHistory access i ops).dedup.length ≤ Geometry.l1Icache.ways

/-- No line is both written and fetched through the instruction cache. -/
def FetchesApart (ops : List CacheOp) : Prop :=
  ∀ op ∈ ops, op.Aligned → ¬ op.IsRead →
    ∀ op' ∈ ops, op'.Aligned → op'.access = .instruction → op'.line ≠ op.line

variable {memSpace : Mem} {ops : List CacheOp} {op : CacheOp} {access : MemAccess}
  {i : Fin Geometry.l1Icache.lines}

/-- A history is a part of the history of a longer run. -/
theorem lineHistory_sublist_append (access : MemAccess) (i : Fin Geometry.l1Icache.lines)
    (ops ops' : List CacheOp) :
    (lineHistory access i ops).Sublist (lineHistory access i (ops ++ ops')) := by
  simp only [lineHistory, List.filter_append, List.map_append]
  exact List.sublist_append_left _ _

theorem length_dedup_le_of_sublist {l l' : List ℕ} (h : l.Sublist l') :
    l.dedup.length ≤ l'.dedup.length :=
  ((List.nodup_dedup l).subperm fun _ ha =>
    List.mem_dedup.mpr (h.subset (List.mem_dedup.mp ha))).length_le

theorem FitsL1.left {ops' : List CacheOp} (h : FitsL1 (ops ++ ops')) : FitsL1 ops :=
  fun access i => (length_dedup_le_of_sublist (lineHistory_sublist_append access i ops ops')).trans
    (h access i)

theorem FetchesApart.left {ops' : List CacheOp} (h : FetchesApart (ops ++ ops')) :
    FetchesApart ops := fun op hop ha hw op' hop' =>
  h op (List.mem_append_left _ hop) ha hw op' (List.mem_append_left _ hop')

/-- What is recent is all there is. -/
theorem FitsL1.recent_eq (h : FitsL1 ops) (access : MemAccess)
    (i : Fin Geometry.l1Icache.lines) :
    recent 4 (lineHistory access i ops) = recency (lineHistory access i ops) := by
  refine List.take_of_length_le ?_
  rw [recency, List.length_reverse]
  exact h access i

/-- The lines in a history are those of the operations that went through the cache. -/
theorem mem_lineHistory_iff {n : ℕ} : n ∈ lineHistory access i ops ↔
    (∃ op ∈ ops, op.Aligned ∧ op.access = access ∧ op.line = n) ∧
      n % Geometry.l1Icache.lines = i := by
  simp only [lineHistory, List.mem_filter, List.mem_map, decide_eq_true_eq, and_assoc]

/-! ### No evictions -/

/-- While a program fits, a line that is accessed for the first time finds a free way. -/
private theorem emptyWay_ne_none (h : FitsL1 (ops ++ [op])) (ha : op.Aligned)
    (hmiss : lookup ((runCommands (flushed memSpace) ops).l1 op.access) (phyToInt op.target) =
      none) :
    emptyWay ((runCommands (flushed memSpace) ops).l1 op.access
      (extractLineIndex .l1Icache (phyToInt op.target))) ≠ none := by
  have hordered := l1Ordered_runCommands memSpace ops op.access
  obtain ⟨hpacked, r, hr⟩ := hordered (extractLineIndex .l1Icache (phyToInt op.target))
  intro hfull
  -- a full set holds four lines, and this is a fifth one
  have hlength : (recent 4 (lineHistory op.access
      (extractLineIndex .l1Icache (phyToInt op.target)) ops)).length = 4 := by
    rw [hr.length_eq]
    exact length_eq_of_forall_mem hr.ordered.nodup fun w =>
      (hr.mem w).mpr (emptyWay_eq_none_iff.mp hfull w)
  have hnot : lineOf (phyToInt op.target) ∉ recent 4 (lineHistory op.access
      (extractLineIndex .l1Icache (phyToInt op.target)) ops) := by
    rw [← hr.lines_eq, List.mem_map]
    rintro ⟨w, hw, hline⟩
    exact (lookup_eq_none_iff_of_packed hpacked).mp hmiss w ⟨(hr.mem w).mp hw, hline⟩
  have hfits := h op.access (extractLineIndex .l1Icache (phyToInt op.target))
  have hconcat := congrFun (lineHistory_concat_self ops ha)
    (extractLineIndex .l1Icache (phyToInt op.target))
  rw [update_self] at hconcat
  rw [h.left.recent_eq] at hlength hnot
  have hlen : (recency (lineHistory op.access
      (extractLineIndex .l1Icache (phyToInt op.target)) (ops ++ [op]))).length = 5 := by
    rw [hconcat, recency_concat, List.erase_of_not_mem hnot, List.length_cons, hlength]
  rw [recency, List.length_reverse] at hlen
  rw [hlen] at hfits
  exact absurd hfits (by decide)

/-- **L2 stays empty** while a program fits. -/
theorem FitsL1.l2Cache_eq (h : FitsL1 ops) (memSpace : Mem) :
    (runCommands (flushed memSpace) ops).l2Cache = cacheFlush .l2Cache := by
  induction ops using List.reverseRecOn with
  | nil => rfl
  | append_singleton ops op ih =>
    rw [runCommands_concat]
    by_cases ha : op.Aligned
    · rw [stepCommand_l2Cache _ ha, ih h.left, access]
      cases hl1 : lookup ((runCommands (flushed memSpace) ops).l1 op.access)
          (phyToInt op.target) with
      | some w => rfl
      | none =>
        obtain ⟨w, hw⟩ := Option.ne_none_iff_exists'.mp (emptyWay_ne_none h ha hl1)
        have hl2 : lookup (cacheFlush .l2Cache) (phyToInt op.target) = none :=
          lookup_eq_none_iff.mpr fun u hu => absurd hu.1 Bool.false_ne_true
        simp only [hl2]
        exact spill_of_free hw
    · rw [stepCommand, executeCommand_unaligned ha]
      exact ih h.left

/-- What the caches hold has been accessed. -/
private theorem mem_of_holds (memSpace : Mem) (access : MemAccess) {n : ℕ}
    {w : Fin Geometry.l1Icache.ways}
    (h : Holds ((runCommands (flushed memSpace) ops).l1 access) n i w) :
    ∃ op ∈ ops, op.Aligned ∧ op.access = access ∧ op.line = n := by
  obtain ⟨-, r, hr⟩ := l1Ordered_runCommands memSpace ops access i
  have hmem : n ∈ recent 4 (lineHistory access i ops) := by
    rw [← hr.lines_eq, ← h.2]
    exact List.mem_map_of_mem ((hr.mem w).mpr h.1)
  exact (mem_lineHistory_iff.mp (mem_recency.mp (List.mem_of_mem_take hmem))).1

/-- Every write of a program that fits finds the only copy of its line. -/
private theorem writesSoleCopy_of_fits (hfits : FitsL1 (ops ++ [op]))
    (hapart : FetchesApart (ops ++ [op])) :
    (runCommands (flushed memSpace) ops).WritesSoleCopy op := by
  by_cases hwrite : op.Aligned ∧ ¬ op.IsRead
  · obtain ⟨ha, hw⟩ := hwrite
    refine .inr ⟨fun w hheld => ?_, fun u hu => ?_⟩
    · obtain ⟨op', hop', ha', haccess, hline⟩ :=
        mem_of_holds memSpace .instruction hheld
      exact hapart op (by simp) ha hw op' (List.mem_append_left _ hop') ha' haccess hline
    · rw [hfits.left.l2Cache_eq] at hu
      exact absurd hu.1 Bool.false_ne_true
  · refine .inl fun x hx => ?_
    have hnil : op.writes = [] := by
      cases op with
      | read access paddr => rfl
      | readByte access paddr => rfl
      | write paddr word => exact if_neg fun ha => hwrite ⟨ha, id⟩
      | writeByte paddr byte => exact absurd ⟨wordAligned_aligned paddr, id⟩ hwrite
    rw [hnil] at hx
    cases hx

private theorem stepsMeet_of_fits (memSpace : Mem) (hfits : FitsL1 ops)
    (hapart : FetchesApart ops) :
    StepsMeet stepCommand CacheState.WritesSoleCopy (flushed memSpace) ops := by
  induction ops using List.reverseRecOn with
  | nil => trivial
  | append_singleton ops op ih =>
    exact stepsMeet_concat.mpr ⟨ih hfits.left hapart.left, writesSoleCopy_of_fits hfits hapart⟩

/-- The lookup hits the lines accessed before, as long as the program fits. -/
private theorem lookup_isSome_iff (h : FitsL1 ops) :
    (lookup ((runCommands (flushed memSpace) ops).l1 op.access) (phyToInt op.target)).isSome ↔
      ∃ op' ∈ ops, op'.Aligned ∧ op'.access = op.access ∧ op'.line = op.line := by
  obtain ⟨hpacked, r, hr⟩ := l1Ordered_runCommands memSpace ops op.access
    (extractLineIndex .l1Icache (phyToInt op.target))
  have hhit := cacheHit_isSome_iff hpacked hr
  have hindex : lineOf (phyToInt op.target) % Geometry.l1Icache.lines =
      (extractLineIndex .l1Icache (phyToInt op.target)).val := rfl
  rw [h.recent_eq, mem_recency, mem_lineHistory_iff, and_iff_left hindex] at hhit
  refine Iff.trans ?_ hhit
  cases hlookup : lookup ((runCommands (flushed memSpace) ops).l1 op.access)
      (phyToInt op.target) with
  | some w => rw [cacheHit_eq_some hlookup]; rfl
  | none => rw [cacheHit_eq_none hlookup]; exact Iff.rfl

/-- **Programs that fit in L1.** If no set of an L1 cache sees more than four lines and no line is
both fetched and written, L2 stays empty, memory is the flat memory, and each operation gets the
reply of a flat memory, hitting in its L1 cache unless it is the first to access its line there. -/
theorem fits_in_l1 (memSpace : Mem) (ops : List CacheOp) (hfits : FitsL1 ops)
    (hapart : FetchesApart ops) :
    (runCommands (flushed memSpace) ops).l2Cache = cacheFlush .l2Cache ∧
      memBytes (runCommands (flushed memSpace) ops).memSpace = flatMemory memSpace ops ∧
      ∀ before op after, ops = before ++ op :: after →
        (executeCommand (runCommands (flushed memSpace) before) op).2 =
            op.answer (flatMemory memSpace before) ∧
          ((lookup ((runCommands (flushed memSpace) before).l1 op.access)
              (phyToInt op.target)).isSome ↔
            ∃ op' ∈ before, op'.Aligned ∧ op'.access = op.access ∧ op'.line = op.line) := by
  refine ⟨hfits.l2Cache_eq memSpace,
    (runCommands_flat (stepsMeet_of_fits memSpace hfits hapart)).2, ?_⟩
  rintro before op after rfl
  obtain ⟨hfaithful, hmem⟩ :=
    runCommands_flat (stepsMeet_of_fits memSpace hfits.left hapart.left)
  refine ⟨?_, lookup_isSome_iff hfits.left⟩
  rw [executeCommand_reply hfaithful, hmem]

/-- A line is fetched, and four others of its set are written and read back. -/
theorem fits_in_l1_five :
    (executeCommand (runCommands (flushed fun _ => 0)
      [.read .instruction ⟨0, 0⟩, .write ⟨1, 0⟩ 5, .writeByte ⟨2, 0⟩ 6, .write ⟨3, 4⟩ 7])
        (.read .data ⟨1, 0⟩)).2 = ⟨.errNone, some 5, none⟩ := by
  have hfits : FitsL1 [.read .instruction ⟨0, 0⟩, .write ⟨1, 0⟩ 5, .writeByte ⟨2, 0⟩ 6,
      .write ⟨3, 4⟩ 7, .read .data ⟨1, 0⟩] := by
    intro access
    cases access <;> decide +kernel
  have hrun := (fits_in_l1 (fun _ => 0) _ hfits (by unfold FetchesApart; decide +kernel)).2.2
    [.read .instruction ⟨0, 0⟩, .write ⟨1, 0⟩ 5, .writeByte ⟨2, 0⟩ 6, .write ⟨3, 4⟩ 7] _ [] rfl
  exact hrun.1.trans (by decide +kernel)

end MemoryHierarchy
