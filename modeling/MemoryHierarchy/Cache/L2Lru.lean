import MemoryHierarchy.Cache.L1Lru

/-!
# Replacement in L2

An L2 way is used when a line is found in it, which is then promoted and dropped, and when a
line pushed down from L1 is inserted in it. `l2Log` records these uses along a run, and
`L2Order` compares a set with the log: the ages of its valid ways increase from the most to the
least recently used one.

Promotions and insertions over a victim keep that order (`L2Order.drop`, `.insert_full`). An
insertion into a free way ages all other ways, up to `7`, which makes two ways equally old when
the set has valid ways of ages `6` and `7`; without such a pair it keeps the order
(`L2Order.insert_free`).
-/

namespace MemoryHierarchy

open Lib Function

variable {g : Geometry}

/-! ### One set -/

/-- Compared with the ways used so far: every valid way was used, and the ages increase along
the valid ways, from the most to the least recently used one. -/
structure L2Order (set : CacheSet g) (history : List (Fin g.ways)) : Prop where
  mem : ∀ w, (set w).v = true → w ∈ history
  ordered : Ordered (ages set) ((recency history).filter fun w => (set w).v)
  le : ∀ w, ages set w ≤ g.ways - 1

/-- Cold-start ageing would make two valid ways equally old. -/
def Saturates (set : CacheSet g) : Prop :=
  ∃ u u', (set u).v = true ∧ (set u').v = true ∧ (set u).age + 2 = g.ways ∧
    (set u').age + 1 = g.ways

instance (set : CacheSet g) : Decidable (Saturates set) := by
  unfold Saturates
  infer_instance

theorem l2Order_cacheFlush (i : Fin g.lines) : L2Order (cacheFlush g i) [] where
  mem _ h := absurd h Bool.false_ne_true
  ordered := List.Pairwise.nil
  le _ := Nat.zero_le _

section Steps

variable {set : CacheSet g} {history : List (Fin g.ways)} {w : Fin g.ways}

/-- The valid ways in order of use. -/
theorem L2Order.mem_filter (h : L2Order set history) (w : Fin g.ways) :
    w ∈ (recency history).filter (fun w => (set w).v) ↔ (set w).v = true := by
  rw [List.mem_filter, mem_recency]
  exact ⟨fun hw => hw.2, fun hw => ⟨h.mem w hw, hw⟩⟩

/-- Touching a valid way and dropping it. -/
theorem L2Order.drop (h : L2Order set history) (hw : (set w).v = true) (line : Line) :
    L2Order (dropSet set w line) (history ++ [w]) := by
  have hv : ∀ u, u ≠ w → (dropSet set w line u).v = (set u).v := fun u hu =>
    dropSet_v_of_ne set hu line
  have hvw : (dropSet set w line w).v = false := dropSet_self_v set w line
  refine ⟨fun u hu => ?_, ?_, fun u => ?_⟩
  · have hne : u ≠ w := by
      rintro rfl
      rw [hvw] at hu
      cases hu
    rw [hv u hne] at hu
    exact List.mem_append_left _ (h.mem u hu)
  · rw [filter_recency_concat (p := fun w => (set w).v) history hv, hvw, if_neg (by simp),
      ages_dropSet]
    exact h.ordered.touch_erase ((h.mem_filter w).mpr hw)
  · rw [ages_dropSet]
    exact touch_le h.le u

/-- Inserting into a free way, when no two valid ways end up equally old. -/
theorem L2Order.insert_free (h : L2Order set history) (hw : emptyWay set = some w)
    (hsat : ¬ Saturates set) {entry : CacheEntry g} (hentry : entry.v = true) :
    L2Order (insertSet set entry) (history ++ [w]) := by
  have hway : insertWay set = some w := insertWay_eq_some_iff.mpr (.inl hw)
  have hself := (insertSet_self hway entry).1.trans hentry
  have hother : ∀ u, u ≠ w → (insertSet set entry u).v = (set u).v := fun u hu =>
    (insertSet_of_ne hway entry hu).1
  have hnot : w ∉ (recency history).filter fun w => (set w).v := fun hmem => by
    have hv := (h.mem_filter w).mp hmem
    rw [(emptyWay_eq_some_iff.mp hw).1] at hv
    cases hv
  refine ⟨fun u hu => ?_, ?_, fun u => ?_⟩
  · rcases eq_or_ne u w with rfl | hne
    · simp
    · rw [hother u hne] at hu
      exact List.mem_append_left _ (h.mem u hu)
  · rw [filter_recency_concat (p := fun w => (set w).v) history hother, hself, if_pos rfl,
      List.erase_of_not_mem hnot, ages_insertSet_of_free hw]
    refine h.ordered.increase hnot (fun u hu u' hu' hlt hage => ?_) (fun u _ => h.le u)
      fun hr => ?_
    · have hv := (h.mem_filter u).mp hu
      have hv' := (h.mem_filter u').mp hu'
      have hpos := g.ways_pos
      have hne : ages set u + 2 ≠ g.ways := fun heq =>
        hsat ⟨u, u', hv, hv', heq, by change ages set u' + 1 = _; omega⟩
      omega
    · obtain ⟨u, hu⟩ := List.exists_mem_of_ne_nil _ hr
      have hne : u.val ≠ w.val := fun heq => hnot (Fin.ext heq ▸ hu)
      have := u.isLt
      have := w.isLt
      omega
  · rw [ages_insertSet_of_free hw]
    exact increase_le h.le u

/-- Inserting over the victim. -/
theorem L2Order.insert_full (h : L2Order set history) (hfull : emptyWay set = none)
    (hw : victimWay set = some w) {entry : CacheEntry g} (hentry : entry.v = true) :
    L2Order (insertSet set entry) (history ++ [w]) := by
  have hway : insertWay set = some w := insertWay_eq_some_iff.mpr (.inr ⟨hfull, hw⟩)
  have hself := (insertSet_self hway entry).1.trans hentry
  have hother : ∀ u, u ≠ w → (insertSet set entry u).v = (set u).v := fun u hu =>
    (insertSet_of_ne hway entry hu).1
  refine ⟨fun u hu => ?_, ?_, fun u => ?_⟩
  · rcases eq_or_ne u w with rfl | hne
    · simp
    · rw [hother u hne] at hu
      exact List.mem_append_left _ (h.mem u hu)
  · rw [filter_recency_concat (p := fun w => (set w).v) history hother, hself, if_pos rfl,
      ages_insertSet_of_full hfull hw]
    exact h.ordered.touch ((h.mem_filter w).mpr (victimWay_spec hw).1)
  · rw [ages_insertSet_of_full hfull hw]
    exact touch_le h.le u

/-- **A full set**: the ages are the ranks of the ways by recency of use, and the victim is the
way whose last use is the oldest. -/
theorem L2Order.full (h : L2Order set history) (hfull : ∀ w, (set w).v = true) :
    (recency history).map (ages set) = List.range g.ways ∧
      ∃ w, victimWay set = some w ∧ (recency history).getLast? = some w := by
  have hfilter : (recency history).filter (fun w => (set w).v) = recency history :=
    List.filter_eq_self.mpr fun w _ => hfull w
  have hord := h.ordered
  rw [hfilter] at hord
  have hmem : ∀ w, w ∈ recency history := fun w => mem_recency.mpr (h.mem w (hfull w))
  have hlen : (recency history).length = g.ways :=
    length_eq_of_forall_mem (nodup_recency history) hmem
  have hne : recency history ≠ [] := by
    intro hnil
    rw [hnil] at hlen
    exact g.ways_pos.ne hlen
  refine ⟨?_, (recency history).getLast hne, ?_, List.getLast?_eq_some_getLast hne⟩
  · have hmap := hord.map_eq_range fun u _ => by
      have hle := h.le u
      have hpos := g.ways_pos
      omega
    rwa [hlen] at hmap
  · exact victimWay_eq_getLast (fun w => iff_of_true (hmem w) (hfull w)) hord hne

end Steps

/-! ### The uses of L2 in one access -/

/-- The L2 way an access promotes. -/
def promotedWay (l1 : Cache g) (l2 : Cache .l2Cache) (phyAddr : BitVec 32) :
    Option (Fin Geometry.l2Cache.ways) :=
  match lookup l1 phyAddr with
  | some _ => none
  | none => lookup l2 phyAddr

/-- L2 after the promotion, as the insertion into L1 finds it. -/
def promotedL2 (l1 : Cache g) (l2 : Cache .l2Cache) (phyAddr : BitVec 32) (line : Line) :
    Cache .l2Cache :=
  match promotedWay l1 l2 phyAddr with
  | some u => setAt l2 phyAddr (dropSet (l2 (extractLineIndex .l2Cache phyAddr)) u line)
  | none => l2

/-- The L1 way whose entry an access pushes down. -/
def spilledWay (l1 : Cache g) (phyAddr : BitVec 32) : Option (Fin g.ways) :=
  match lookup l1 phyAddr with
  | some _ => none
  | none =>
    match emptyWay (l1 (extractLineIndex g phyAddr)) with
    | some _ => none
    | none => victimWay (l1 (extractLineIndex g phyAddr))

/-- The address `insert_level2` is called with, if it is. -/
def spillAddr (l1 : Cache g) (phyAddr : BitVec 32) : Option (BitVec 32) :=
  (spilledWay l1 phyAddr).map (oldPhyAddr l1 (extractLineIndex g phyAddr))

/-- **L2 after an access**: the promotion, then at most one call of `insert_level2`. -/
theorem access_snd (l1 : Cache g) (l2 : Cache .l2Cache) (phyAddr : BitVec 32) (line : Line) :
    (access l1 l2 phyAddr line).2 =
      match spilledWay l1 phyAddr with
      | some w =>
        (insertLevel2 (promotedL2 l1 l2 phyAddr line)
          (cacheInitEntryWithParam .l2Cache (oldPhyAddr l1 (extractLineIndex g phyAddr) w)
            (l1 (extractLineIndex g phyAddr) w).line)
          (oldPhyAddr l1 (extractLineIndex g phyAddr) w)).2
      | none => promotedL2 l1 l2 phyAddr line := by
  rw [access, spilledWay, promotedL2, promotedWay]
  cases lookup l1 phyAddr with
  | some w => rfl
  | none =>
    cases hempty : emptyWay (l1 (extractLineIndex g phyAddr)) with
    | some w =>
      simp only [spill_of_free hempty]
      cases lookup l2 phyAddr <;> rfl
    | none =>
      obtain ⟨w, hw⟩ := exists_victimWay_of_full hempty
      simp only [spill_of_full hempty hw, hw, insertLevel2_eq]
      cases lookup l2 phyAddr <;> rfl

/-- A use of L2: a set and a way. -/
abbrev L2Use := Fin Geometry.l2Cache.lines × Fin Geometry.l2Cache.ways

/-- The use an insertion of `insert_level2` makes. -/
def insertUse (l2 : Cache .l2Cache) (phyAddr : BitVec 32) : List L2Use :=
  ((insertWay (l2 (extractLineIndex .l2Cache phyAddr))).map
    (extractLineIndex .l2Cache phyAddr, ·)).toList

/-- The uses an access makes: of the way it promotes, then of the one it inserts into. -/
def l2Uses (l1 : Cache g) (l2 : Cache .l2Cache) (phyAddr : BitVec 32) (line : Line) :
    List L2Use :=
  ((promotedWay l1 l2 phyAddr).map (extractLineIndex .l2Cache phyAddr, ·)).toList ++
    match spillAddr l1 phyAddr with
    | some a => insertUse (promotedL2 l1 l2 phyAddr line) a
    | none => []

/-- The ways of one set in a log of uses. -/
def wayHistory (log : List L2Use) (j : Fin Geometry.l2Cache.lines) :
    List (Fin Geometry.l2Cache.ways) :=
  (log.filter (·.1 = j)).map (·.2)

/-- Every set is in the order of the log. -/
def L2Ordered (l2 : Cache .l2Cache) (log : List L2Use) : Prop :=
  ∀ j, L2Order (l2 j) (wayHistory log j)

/-- One more use of a set that leaves it in the order of its history. -/
private theorem l2Ordered_setAt {l2 : Cache .l2Cache} {log : List L2Use} (h : L2Ordered l2 log)
    {phyAddr : BitVec 32} {w : Fin Geometry.l2Cache.ways} {set : CacheSet .l2Cache}
    (hset : L2Order set (wayHistory log (extractLineIndex .l2Cache phyAddr) ++ [w])) :
    L2Ordered (setAt l2 phyAddr set) (log ++ [(extractLineIndex .l2Cache phyAddr, w)]) := by
  intro j
  rcases eq_or_ne j (extractLineIndex .l2Cache phyAddr) with rfl | hj
  · rw [setAt, update_self]
    simpa [wayHistory] using hset
  · rw [setAt, update_of_ne hj]
    simpa [wayHistory, hj.symm] using h j

/-- **A promotion** keeps L2 in the order of the log. -/
theorem L2Ordered.promotedL2 {l2 : Cache .l2Cache} {log : List L2Use} (h : L2Ordered l2 log)
    (l1 : Cache g) (phyAddr : BitVec 32) (line : Line) :
    L2Ordered (promotedL2 l1 l2 phyAddr line)
      (log ++ ((promotedWay l1 l2 phyAddr).map
        (extractLineIndex .l2Cache phyAddr, ·)).toList) := by
  rw [MemoryHierarchy.promotedL2]
  cases hway : promotedWay l1 l2 phyAddr with
  | none =>
    rw [Option.map_none, Option.toList_none, List.append_nil]
    exact h
  | some u =>
    have hlookup : lookup l2 phyAddr = some u := by
      rw [promotedWay] at hway
      cases h1 : lookup l1 phyAddr <;> simp_all
    exact l2Ordered_setAt h ((h _).drop (lookup_eq_some_iff.mp hlookup).1.1 line)

/-- **A call of `insert_level2`** keeps L2 in the order of the log, unless it ages two valid
ways to the same age. -/
theorem L2Ordered.insertLevel2 {l2 : Cache .l2Cache} {log : List L2Use} (h : L2Ordered l2 log)
    {phyAddr : BitVec 32}
    (hsat : (∃ w, (l2 (extractLineIndex .l2Cache phyAddr) w).v = false) →
      ¬ Saturates (l2 (extractLineIndex .l2Cache phyAddr)))
    {entry : CacheEntry .l2Cache} (hentry : entry.v = true) :
    L2Ordered (insertLevel2 l2 entry phyAddr).2 (log ++ insertUse l2 phyAddr) := by
  rw [insertLevel2_eq, insertUse, insertWay]
  cases hempty : emptyWay (l2 (extractLineIndex .l2Cache phyAddr)) with
  | some w =>
    have hfree := hsat ⟨w, (emptyWay_eq_some_iff.mp hempty).1⟩
    exact l2Ordered_setAt h ((h _).insert_free hempty hfree hentry)
  | none =>
    obtain ⟨w, hw⟩ := exists_victimWay_of_full hempty
    simp only [hw]
    exact l2Ordered_setAt h ((h _).insert_full hempty hw hentry)

/-! ### Runs -/

/-- The call of `insert_level2` that an operation makes, if it makes one: L2 as it finds it, and
the address. -/
def CacheState.insertLevel2Call (s : CacheState) (op : CacheOp) :
    Option (Cache .l2Cache × BitVec 32) :=
  if op.Aligned then
    (spillAddr (s.l1 op.access) (phyToInt op.target)).map
      (promotedL2 (s.l1 op.access) s.l2Cache (phyToInt op.target) (s.stored op), ·)
  else none

/-- The step condition: `insert_level2` does not age two valid ways to the same age. -/
def CacheState.AgesApart (s : CacheState) (op : CacheOp) : Prop :=
  ∀ call ∈ s.insertLevel2Call op,
    (∃ w, (call.1 (extractLineIndex .l2Cache call.2) w).v = false) →
      ¬ Saturates (call.1 (extractLineIndex .l2Cache call.2))

instance (s : CacheState) (op : CacheOp) : Decidable (s.AgesApart op) := by
  unfold CacheState.AgesApart
  infer_instance

/-- The uses of L2 an operation makes. -/
def CacheState.l2Uses (s : CacheState) (op : CacheOp) : List L2Use :=
  if op.Aligned then
    MemoryHierarchy.l2Uses (s.l1 op.access) s.l2Cache (phyToInt op.target) (s.stored op)
  else []

/-- The uses of L2 along a run, in order. -/
def l2Log (s : CacheState) : List CacheOp → List L2Use
  | [] => []
  | op :: ops => s.l2Uses op ++ l2Log (stepCommand s op) ops

theorem l2Log_concat (s : CacheState) (ops : List CacheOp) (op : CacheOp) :
    l2Log s (ops ++ [op]) = l2Log s ops ++ (runCommands s ops).l2Uses op := by
  induction ops generalizing s with
  | nil => exact List.append_nil _
  | cons op' ops ih =>
    rw [List.cons_append, l2Log, ih, l2Log, List.append_assoc]
    rfl

/-- **One command** that meets the condition keeps L2 in the order of the log. -/
theorem l2Ordered_stepCommand {s : CacheState} {log : List L2Use}
    (h : L2Ordered s.l2Cache log) {op : CacheOp} (hop : s.AgesApart op) :
    L2Ordered (stepCommand s op).l2Cache (log ++ s.l2Uses op) := by
  by_cases ha : op.Aligned
  · rw [stepCommand_l2Cache s ha, access_snd, CacheState.l2Uses, if_pos ha, l2Uses,
      ← List.append_assoc, spillAddr]
    have hpromoted := h.promotedL2 (s.l1 op.access) (phyToInt op.target) (s.stored op)
    cases hspill : spilledWay (s.l1 op.access) (phyToInt op.target) with
    | none =>
      rw [Option.map_none]
      simpa using hpromoted
    | some w =>
      have hcall : s.insertLevel2Call op = some
          (promotedL2 (s.l1 op.access) s.l2Cache (phyToInt op.target) (s.stored op),
            oldPhyAddr (s.l1 op.access) (extractLineIndex .l1Icache (phyToInt op.target)) w) := by
        rw [CacheState.insertLevel2Call, if_pos ha, spillAddr, hspill]
        rfl
      exact hpromoted.insertLevel2 (hop _ hcall) rfl
  · rw [stepCommand, executeCommand_unaligned ha, CacheState.l2Uses, if_neg ha,
      List.append_nil]
    exact h

/-- A set that is full when `insert_level2` is called was full before the promotion. -/
private theorem promotedL2_of_full {l1 : Cache g} {l2 : Cache .l2Cache} {phyAddr : BitVec 32}
    {line : Line} {j : Fin Geometry.l2Cache.lines}
    (h : ∀ w, (promotedL2 l1 l2 phyAddr line j w).v = true) :
    promotedL2 l1 l2 phyAddr line j = l2 j := by
  rw [promotedL2] at h ⊢
  cases hway : promotedWay l1 l2 phyAddr with
  | none => rfl
  | some u =>
    rw [hway] at h
    simp only [setAt] at h ⊢
    rcases eq_or_ne j (extractLineIndex .l2Cache phyAddr) with rfl | hj
    · -- the promoted way is free
      have hu := h u
      rw [update_self, dropSet_self_v] at hu
      cases hu
    · rw [update_of_ne hj]

/-- **L2 replacement is LRU** along every run in which `insert_level2` ages no two valid ways
to the same age. In a full set the ages are `0, …, 7` in the order of the last uses, and
`evict` takes the way whose last use is the oldest; so does the `evict` of every call of
`insert_level2` that finds no free way. -/
theorem l2_lru (memSpace : Mem) (ops : List CacheOp)
    (hapart : StepsMeet stepCommand CacheState.AgesApart (flushed memSpace) ops) :
    let s := runCommands (flushed memSpace) ops
    let used := fun j => recency (wayHistory (l2Log (flushed memSpace) ops) j)
    (∀ j, (∀ w, (s.l2Cache j w).v = true) →
      (used j).map (fun w => (s.l2Cache j w).age) = List.range 8 ∧
        ∃ w, (used j).getLast? = some w ∧
          evict s.l2Cache j = (clearValid s.l2Cache j w, some w)) ∧
    ∀ op l2 phyAddr, s.insertLevel2Call op = some (l2, phyAddr) →
      (∀ w, (l2 (extractLineIndex .l2Cache phyAddr) w).v = true) →
        ∃ w, (used (extractLineIndex .l2Cache phyAddr)).getLast? = some w ∧
          evict l2 (extractLineIndex .l2Cache phyAddr) =
            (clearValid l2 (extractLineIndex .l2Cache phyAddr) w, some w) := by
  intro s used
  have hrun := run_invariant (I := fun ops (s : CacheState) =>
      L2Ordered s.l2Cache (l2Log (flushed memSpace) ops) ∧ s = runCommands (flushed memSpace) ops)
    ⟨fun j => l2Order_cacheFlush j, rfl⟩ (fun ops op t ht hop => ?_) hapart
  · have hord : L2Ordered s.l2Cache (l2Log (flushed memSpace) ops) := hrun.1
    refine ⟨fun j hfull => ?_, fun op l2 phyAddr hcall hfull => ?_⟩
    · obtain ⟨hages, w, hw, hlast⟩ := (hord j).full hfull
      exact ⟨hages, w, hlast, evict_eq _ _ hw⟩
    · rw [CacheState.insertLevel2Call] at hcall
      split_ifs at hcall with ha
      obtain ⟨a, ha', heq⟩ := Option.map_eq_some_iff.mp hcall
      obtain ⟨rfl, rfl⟩ := Prod.mk.inj heq
      have hset := promotedL2_of_full hfull
      obtain ⟨-, w, hw, hlast⟩ := (hord _).full (hset ▸ hfull)
      exact ⟨w, hlast, evict_eq _ _ (by rw [hset]; exact hw)⟩
  · obtain ⟨hord, rfl⟩ := ht
    refine ⟨?_, (runCommands_concat _ _ _).symm⟩
    rw [l2Log_concat]
    exact l2Ordered_stepCommand hord hop

/-- Reads of the first words of pages `2`, `4`, …, all in one set of either level. -/
def sameSetRun (n : ℕ) : List CacheOp :=
  (List.range n).map fun k => .read .data ⟨BitVec.ofNat 20 (2 * (k + 1)), 0⟩

/-- Twelve lines fill the four ways of the L1 set and the eight of the L2 set. -/
theorem l2_lru_filled :
    (recency (wayHistory (l2Log (flushed fun _ => 0) (sameSetRun 12)) 0)).map
        (fun w => ((runCommands (flushed fun _ => 0) (sameSetRun 12)).l2Cache 0 w).age) =
      List.range 8 :=
  ((l2_lru (fun _ => 0) (sameSetRun 12) (by decide +kernel)).1 0 (by decide +kernel)).1

/-- One more read of the first line promotes it and refills its way by cold-start ageing: two
ways of the full set end up with age `7`. -/
theorem not_l2_lru :
    ¬ ∀ (memSpace : Mem) (ops : List CacheOp), (∀ op ∈ ops, op.Aligned) →
      let s := runCommands (flushed memSpace) ops
      let used := fun j => recency (wayHistory (l2Log (flushed memSpace) ops) j)
      ∀ j, (∀ w, (s.l2Cache j w).v = true) →
        (used j).map (fun w => (s.l2Cache j w).age) = List.range 8 ∧
          ∃ w, (used j).getLast? = some w ∧
            evict s.l2Cache j = (clearValid s.l2Cache j w, some w) := by
  intro h
  have hages := (h (fun _ => 0) (sameSetRun 12 ++ sameSetRun 1) (by decide) 0
    (by decide +kernel)).1
  exact absurd hages (by decide +kernel)

end MemoryHierarchy
