import MemoryHierarchy.Cache.L1
import Mathlib.Data.Fintype.Fin

/-!
# Each L1 cache is a 4-way LRU cache

The run of the two L1 caches, each against its own history. A byte write makes two accesses to
one line, which is one use of it.
-/

namespace MemoryHierarchy

open Lib Function

/-! ### One command -/

/-- The history after one more operation, if it goes through this L1 cache. -/
theorem lineHistory_concat_self (ops : List CacheOp) {op : CacheOp} (h : op.Aligned) :
    (fun i => lineHistory op.access i (ops ++ [op])) =
      update (fun i => lineHistory op.access i ops)
        (extractLineIndex .l1Icache (phyToInt op.target))
        (lineHistory op.access (extractLineIndex .l1Icache (phyToInt op.target)) ops ++
          [lineOf (phyToInt op.target)]) := by
  funext i
  have hline : op.line % Geometry.l1Icache.lines = i ↔
      i = extractLineIndex .l1Icache (phyToInt op.target) :=
    ⟨fun heq => Fin.ext heq.symm, fun heq => heq ▸ rfl⟩
  simp only [lineHistory, List.filter_append, List.map_append]
  rcases eq_or_ne i (extractLineIndex .l1Icache (phyToInt op.target)) with rfl | hi
  · rw [update_self]
    simp [h, hline.mpr rfl]
    rfl
  · rw [update_of_ne hi]
    simp [h, hline, hi]

/-- An operation that does not go through this L1 cache is not in its history. -/
theorem lineHistory_concat_of_not {access : MemAccess} (ops : List CacheOp) {op : CacheOp}
    (h : ¬ (op.Aligned ∧ op.access = access)) (i : Fin Geometry.l1Icache.lines) :
    lineHistory access i (ops ++ [op]) = lineHistory access i ops := by
  simp [lineHistory, List.filter_append, h]

/-- Only what is recent in a history matters. -/
theorem L1Ordered.congr {g : Geometry} {l1 : Cache g} {history history' : Fin g.lines → List ℕ}
    (h : L1Ordered l1 history) (heq : ∀ i, recency (history' i) = recency (history i)) :
    L1Ordered l1 history' := by
  intro i
  rw [recent, heq]
  exact h i

/-- **One command** adds at most its own line to the history of its L1 cache. -/
theorem l1Ordered_stepCommand {s : CacheState} {access : MemAccess} {ops : List CacheOp}
    (h : L1Ordered (s.l1 access) fun i => lineHistory access i ops) (op : CacheOp) :
    L1Ordered ((stepCommand s op).l1 access) fun i => lineHistory access i (ops ++ [op]) := by
  by_cases hop : op.Aligned ∧ op.access = access
  · obtain ⟨haligned, rfl⟩ := hop
    rw [lineHistory_concat_self ops haligned]
    cases op with
    | read access paddr =>
      rw [stepCommand, executeCommand_read haligned, readStep, CacheOp.access, setCaches_l1_self]
      exact h.access _ _ _
    | readByte access paddr =>
      rw [stepCommand, executeCommand_readByte, readStep, CacheOp.access, setCaches_l1_self]
      exact h.access _ _ _
    | write paddr word =>
      rw [stepCommand, executeCommand_write haligned]
      exact h.access _ _ _
    | writeByte paddr byte =>
      rw [stepCommand, executeCommand_writeByte]
      -- the read brings the line in, the write uses it again
      have htwice := (h.access s.l2Cache (phyToInt (wordAligned paddr))
        (s.served .data (phyToInt (wordAligned paddr)))).access
          (readStep s .data (phyToInt (wordAligned paddr))).l2Cache
          (phyToInt (wordAligned paddr))
          ((readStep s .data (phyToInt (wordAligned paddr))).written
            (phyToInt (wordAligned paddr)) (s.byteWritten paddr byte))
      refine htwice.congr fun i => ?_
      rcases eq_or_ne i (extractLineIndex .l1Icache (phyToInt (wordAligned paddr)))
        with rfl | hi
      · simp only [CacheOp.target, update_self]
        rw [recency_concat_concat]
      · simp only [CacheOp.target, update_of_ne hi]
  · simp only [lineHistory_concat_of_not ops hop]
    by_cases haligned : op.Aligned
    · rw [stepCommand_l1_of_ne s fun heq => hop ⟨haligned, heq.symm⟩]
      exact h
    · rw [stepCommand, executeCommand_unaligned haligned]
      exact h

/-- **Every run** keeps both L1 caches in the order of their histories. -/
theorem l1Ordered_runCommands (memSpace : Mem) (ops : List CacheOp) (access : MemAccess) :
    L1Ordered ((runCommands (flushed memSpace) ops).l1 access) fun i =>
      lineHistory access i ops := by
  refine run_invariant (C := fun _ _ => True)
    (I := fun ops (s : CacheState) => L1Ordered (s.l1 access) fun i => lineHistory access i ops) ?_
    (fun ops op s h _ => l1Ordered_stepCommand h op) (stepsMeet_of_forall (fun _ _ _ => trivial) _)
  cases access <;> exact l1Ordered_cacheFlush

/-- Both L1 caches are in the order of some history. -/
def CacheState.L1Sound (s : CacheState) : Prop :=
  ∀ access, ∃ history, L1Ordered (s.l1 access) history

theorem l1Sound_flushed (memSpace : Mem) : (flushed memSpace).L1Sound := fun access =>
  ⟨fun _ => [], by cases access <;> exact l1Ordered_cacheFlush⟩

protected theorem CacheState.L1Sound.readStep {s : CacheState} (h : s.L1Sound) (access : MemAccess)
    (phyAddr : BitVec 32) : (readStep s access phyAddr).L1Sound := by
  intro access'
  rcases eq_or_ne access' access with rfl | hne
  · obtain ⟨history, hhistory⟩ := h access'
    rw [readStep, setCaches_l1_self]
    exact ⟨_, hhistory.access _ _ _⟩
  · rw [readStep, setCaches_l1_of_ne _ _ _ hne]
    exact h access'

protected theorem CacheState.L1Sound.writeStep {s : CacheState} (h : s.L1Sound)
    (phyAddr : BitVec 32) (word : Word) : (writeStep s phyAddr word).L1Sound := by
  intro access
  cases access with
  | instruction => exact h .instruction
  | data =>
    obtain ⟨history, hhistory⟩ := h .data
    exact ⟨_, hhistory.access _ _ _⟩

theorem l1Sound_stepCommand {s : CacheState} (hs : s.L1Sound) (op : CacheOp) :
    (stepCommand s op).L1Sound :=
  stepCommand_invariant (fun _ access phyAddr h => h.readStep access phyAddr)
    (fun _ phyAddr word h => h.writeStep phyAddr word) hs op

/-- **Every command is one access to L2**: the second access of a byte write hits in L1. -/
theorem stepCommand_l2Cache (s : CacheState) {op : CacheOp} (h : op.Aligned) :
    (stepCommand s op).l2Cache =
      (access (s.l1 op.access) s.l2Cache (phyToInt op.target) (s.stored op)).2 := by
  cases op with
  | read access paddr => rw [stepCommand, executeCommand_read h]; exact setCaches_l2Cache _ _ _
  | readByte access paddr =>
    rw [stepCommand, executeCommand_readByte]
    exact setCaches_l2Cache _ _ _
  | write paddr word => rw [stepCommand, executeCommand_write h]; rfl
  | writeByte paddr byte =>
    rw [stepCommand, executeCommand_writeByte]
    obtain ⟨w, hw, -⟩ := lookup_access s.l1Dcache s.l2Cache (phyToInt (wordAligned paddr))
      (s.served .data (phyToInt (wordAligned paddr)))
    exact access_snd_of_hit _ hw _

/-! ### What the order says -/

section Ordered

variable {g : Geometry} {i : Fin g.lines} {cache : Cache g} {lines : List ℕ}
  {r : List (Fin g.ways)}

/-- The lookup hits exactly the lines of the set. -/
theorem cacheHit_isSome_iff {paddr : PhyAddr}
    (hpacked : Packed (cache (extractLineIndex g (phyToInt paddr))))
    (h : RecencyOrder (extractLineIndex g (phyToInt paddr))
      (cache (extractLineIndex g (phyToInt paddr))) lines r) :
    (cacheHit cache paddr).2.isSome = true ↔ lineOf (phyToInt paddr) ∈ lines := by
  rw [← h.lines_eq, List.mem_map]
  cases hlookup : lookup cache (phyToInt paddr) with
  | some w =>
    obtain ⟨hv, hline⟩ := (lookup_eq_some_iff.mp hlookup).1
    rw [cacheHit_eq_some hlookup]
    exact iff_of_true rfl ⟨w, (h.mem w).mpr hv, hline⟩
  | none =>
    rw [cacheHit_eq_none hlookup]
    refine iff_of_false (by simp) ?_
    rintro ⟨w, hw, hline⟩
    exact (lookup_eq_none_iff_of_packed hpacked).mp hlookup w ⟨(h.mem w).mp hw, hline⟩

/-- Packed ways are counted by the length of the order. -/
theorem RecencyOrder.valid_iff_lt (hpacked : Packed (cache i))
    (h : RecencyOrder i (cache i) lines r) (w : Fin g.ways) :
    (cache i w).v = true ↔ w.val < lines.length := by
  obtain ⟨k, hk, hfirst⟩ : ∃ k ≤ g.ways, ∀ w, (cache i w).v = true ↔ w.val < k := by
    cases hempty : emptyWay (cache i) with
    | some u =>
      obtain ⟨hu, hbefore⟩ := emptyWay_eq_some_iff.mp hempty
      refine ⟨u, u.isLt.le, fun w => ⟨fun hw => ?_, fun hlt => hbefore w hlt⟩⟩
      rcases lt_trichotomy w u with hlt | rfl | hgt
      · exact hlt
      · simp [hu] at hw
      · exact absurd (hpacked w u hgt hw) (by simp [hu])
    | none =>
      exact ⟨g.ways, le_rfl, fun w => iff_of_true (emptyWay_eq_none_iff.mp hempty w) w.isLt⟩
  have hset : r.toFinset = Finset.univ.filter fun w : Fin g.ways => w.val < k := by
    ext w
    simp [h.mem, hfirst]
  have hlen : r.length = k := by
    rw [← List.toFinset_card_of_nodup h.ordered.nodup, hset, Fin.card_filter_val_lt,
      Nat.min_eq_right hk]
  rw [hfirst, h.length_eq, hlen]

/-- `insert_level1` into a full set replaces the way that holds the last line, and no other. -/
theorem insertLevel1_replaces_last (h : RecencyOrder i (cache i) lines r)
    (hfull : ∀ w, (cache i w).v = true) :
    ∃ w, lines.getLast? = some (lineNumber i (cache i w).tag) ∧
      evict cache i = (clearValid cache i w, some w) ∧
      ∀ (l2 : Cache .l2Cache) (entry : CacheEntry g) (phyAddr : BitVec 32),
        extractLineIndex g phyAddr = i →
          ((insertLevel1 cache l2 entry phyAddr).2.1 i w).tag = entry.tag ∧
          ∀ u ≠ w, ((insertLevel1 cache l2 entry phyAddr).2.1 i u).tag = (cache i u).tag := by
  have hempty : emptyWay (cache i) = none := emptyWay_eq_none_iff.mpr hfull
  obtain ⟨w, hw⟩ := exists_victimWay_of_full hempty
  have hway : insertWay (cache i) = some w := insertWay_eq_some_iff.mpr (.inr ⟨hempty, hw⟩)
  refine ⟨w, ?_, evict_eq _ _ hw, fun l2 entry phyAddr hi => ?_⟩
  · rw [(h.victim hw).2, List.getLast?_concat]
  · subst hi
    simp only [insertLevel1_eq, insertAt, update_self]
    exact ⟨(insertSet_self hway entry).2.1, fun u hu => (insertSet_of_ne hway entry hu).2.1⟩

end Ordered

/-- **L1 replacement is LRU.** In every reachable state the valid ways of every set of either
L1 cache are a prefix with distinct tags; `r` lists them from the most to the least recently
used, with ages `0, 1, …` along it, and they hold the four most recently accessed lines of the
set. So a lookup hits exactly those lines, and an insertion into a full set replaces the least
recently accessed one. -/
theorem l1_lru (memSpace : Mem) (ops : List CacheOp) (access : MemAccess)
    (i : Fin Geometry.l1Icache.lines) :
    let l1 := (runCommands (flushed memSpace) ops).l1 access
    let lines := recent 4 (lineHistory access i ops)
    (∀ w, (l1 i w).v = true ↔ w.val < lines.length) ∧
    (∀ w u, (l1 i w).v = true → (l1 i u).v = true → (l1 i w).tag = (l1 i u).tag → w = u) ∧
    (∃ r : List (Fin 4), r.Nodup ∧ (∀ w, w ∈ r ↔ (l1 i w).v = true) ∧
      r.map (fun w => (l1 i w).age) = List.range r.length ∧
      r.map (fun w => lineNumber i (l1 i w).tag) = lines) ∧
    (∀ paddr, extractLineIndex .l1Icache (phyToInt paddr) = i →
      ((cacheHit l1 paddr).2.isSome = true ↔ lineOf (phyToInt paddr) ∈ lines)) ∧
    ((∀ w, (l1 i w).v = true) →
      ∃ w, lines.getLast? = some (lineNumber i (l1 i w).tag) ∧
        evict l1 i = (clearValid l1 i w, some w) ∧
        ∀ (l2 : Cache .l2Cache) (entry : CacheEntry .l1Icache) (phyAddr : BitVec 32),
          extractLineIndex .l1Icache phyAddr = i →
            ((insertLevel1 l1 l2 entry phyAddr).2.1 i w).tag = entry.tag ∧
            ∀ u ≠ w, ((insertLevel1 l1 l2 entry phyAddr).2.1 i u).tag = (l1 i u).tag) := by
  intro l1 lines
  obtain ⟨hpacked, r, hr⟩ := l1Ordered_runCommands memSpace ops access i
  refine ⟨hr.valid_iff_lt hpacked, fun w u hw hu htag => ?_,
    ⟨r, hr.ordered.nodup, hr.mem, hr.map_ages, hr.lines_eq⟩, ?_,
    insertLevel1_replaces_last hr⟩
  · exact hr.inj (nodup_recent _ _) ((hr.mem w).mpr hw) ((hr.mem u).mpr hu) (by rw [htag])
  · rintro paddr rfl
    exact cacheHit_isSome_iff hpacked hr

end MemoryHierarchy
