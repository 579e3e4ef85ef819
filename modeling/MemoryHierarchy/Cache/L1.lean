import MemoryHierarchy.Cache.SetOrder
import MemoryHierarchy.Cache.System
import Mathlib.Data.Fintype.Card

/-!
# The L1 caches keep the most recently used lines

An access changes its L1 cache in one set, and in a way that does not depend on L2
(`access_fst`): it touches the way found, or inserts. `RecencyOrder` relates a set to the lines
most recently accessed in it; each of the three things that can happen to a set keeps it, with
the accessed line moved to the front (`RecencyOrder.touch`, `.insert_free`, `.insert_full`).
Along a run the lines are those of the history (`l1Ordered_runCommands`).
-/

namespace MemoryHierarchy

open Lib Function

variable {g : Geometry}

/-! ### The recency order of a set -/

/-- The valid ways of set `i`, listed by `r` from the most to the least recently used, hold
`lines`; their ages are below their number and increase along `r`. -/
structure RecencyOrder (i : Fin g.lines) (set : CacheSet g) (lines : List ℕ)
    (r : List (Fin g.ways)) : Prop where
  mem : ∀ w, w ∈ r ↔ (set w).v = true
  ordered : Ordered (ages set) r
  lt : ∀ w ∈ r, ages set w < r.length
  lines_eq : r.map (fun w => lineNumber i (set w).tag) = lines

section RecencyOrder

variable {i : Fin g.lines} {set : CacheSet g} {lines : List ℕ} {r : List (Fin g.ways)}

theorem recencyOrder_cacheFlush (i : Fin g.lines) : RecencyOrder i (cacheFlush g i) [] [] where
  mem _ := by simp [cacheFlush]
  ordered := List.Pairwise.nil
  lt := by simp
  lines_eq := rfl

theorem RecencyOrder.length_eq (h : RecencyOrder i set lines r) : lines.length = r.length := by
  rw [← h.lines_eq, List.length_map]

/-- The ages are ranks. -/
theorem RecencyOrder.map_ages (h : RecencyOrder i set lines r) :
    r.map (ages set) = List.range r.length :=
  h.ordered.map_eq_range h.lt

/-- The ways hold different lines. -/
theorem RecencyOrder.inj (h : RecencyOrder i set lines r) (hnodup : lines.Nodup)
    {w u : Fin g.ways} (hw : w ∈ r) (hu : u ∈ r)
    (heq : lineNumber i (set w).tag = lineNumber i (set u).tag) : w = u := by
  rw [← h.lines_eq] at hnodup
  exact List.inj_on_of_nodup_map hnodup hw hu heq

/-- Erasing a way erases its line. -/
private theorem map_erase_lines (h : RecencyOrder i set lines r) (hnodup : lines.Nodup)
    {w : Fin g.ways} (hw : w ∈ r) :
    (r.erase w).map (fun w => lineNumber i (set w).tag) =
      lines.erase (lineNumber i (set w).tag) := by
  rw [h.ordered.nodup.erase_eq_filter, hnodup.erase_eq_filter, ← h.lines_eq, List.filter_map]
  refine congrArg (List.map _) (List.filter_congr fun u hu => ?_)
  rcases eq_or_ne u w with rfl | hne
  · simp
  · have hline : lineNumber i (set u).tag ≠ lineNumber i (set w).tag := fun heq =>
      hne (h.inj hnodup hu hw heq)
    rw [Function.comp_apply, bne_iff_ne.mpr hne, bne_iff_ne.mpr hline]

/-- Touching a way moves its line to the front. -/
theorem RecencyOrder.touch (h : RecencyOrder i set lines r) (hnodup : lines.Nodup)
    {w : Fin g.ways} (hw : w ∈ r) (line : Line) :
    RecencyOrder i (touchSet set w line)
      (lineNumber i (set w).tag :: lines.erase (lineNumber i (set w).tag))
      (w :: r.erase w) := by
  have hlen : (w :: r.erase w).length = r.length := by
    have := List.length_pos_of_mem hw
    rw [List.length_cons, List.length_erase_of_mem hw]
    omega
  have hsub : ∀ u ∈ w :: r.erase w, u ∈ r := fun u hu => by
    rcases List.mem_cons.mp hu with rfl | hu
    · exact hw
    · exact List.mem_of_mem_erase hu
  refine ⟨fun u => ?_, ?_, fun u hu => ?_, ?_⟩
  · rw [touchSet_v, ← h.mem]
    refine ⟨hsub u, fun hu => ?_⟩
    rcases eq_or_ne u w with rfl | hne
    · simp
    · exact List.mem_cons_of_mem _ ((List.mem_erase_of_ne hne).mpr hu)
  · rw [ages_touchSet]
    exact h.ordered.touch hw
  · rw [ages_touchSet, hlen]
    exact touch_lt h.lt hw u (hsub u hu)
  · simp only [touchSet_tag, List.map_cons, map_erase_lines h hnodup hw]

/-- A free way is not in the order, which is then shorter than the set. -/
private theorem RecencyOrder.length_lt (h : RecencyOrder i set lines r) {w : Fin g.ways}
    (hw : emptyWay set = some w) : w ∉ r ∧ r.length < g.ways := by
  have hnot : w ∉ r := fun hmem => by
    simpa [(emptyWay_eq_some_iff.mp hw).1] using (h.mem w).mp hmem
  have hle := List.Nodup.length_le_card (List.nodup_cons.mpr ⟨hnot, h.ordered.nodup⟩)
  rw [Fintype.card_fin] at hle
  exact ⟨hnot, hle⟩

/-- Inserting into a free way puts the line at the front. -/
theorem RecencyOrder.insert_free (h : RecencyOrder i set lines r) {w : Fin g.ways}
    (hw : emptyWay set = some w) {entry : CacheEntry g} (hentry : entry.v = true) :
    RecencyOrder i (insertSet set entry) (lineNumber i entry.tag :: lines) (w :: r) := by
  have hway : insertWay set = some w := insertWay_eq_some_iff.mpr (.inl hw)
  have hself := insertSet_self hway entry
  obtain ⟨hnot, hlen⟩ := h.length_lt hw
  have hne : ∀ u ∈ r, u ≠ w := fun u hu heq => hnot (heq ▸ hu)
  refine ⟨fun u => ?_, ?_, fun u hu => ?_, ?_⟩
  · rw [List.mem_cons]
    rcases eq_or_ne u w with rfl | hu
    · simp [hself.1, hentry]
    · rw [(insertSet_of_ne hway entry hu).1, ← h.mem]
      simp [hu]
  · rw [ages_insertSet_of_free hw]
    refine h.ordered.increase hnot (fun u hu u' hu' _ hage => ?_) (fun u hu => ?_) ?_
    · have := h.lt u' hu'
      omega
    · have := h.lt u hu
      omega
    · intro hr
      have := List.length_pos_of_ne_nil hr
      omega
  · rw [ages_insertSet_of_free hw, List.length_cons]
    rcases List.mem_cons.mp hu with rfl | hu
    · simp [increase]
    · have hage := h.lt u hu
      simp only [increase, if_neg (hne u hu)]
      split_ifs <;> omega
  · rw [List.map_cons, hself.2.1, ← h.lines_eq]
    refine congrArg _ (List.map_congr_left fun u hu => ?_)
    rw [(insertSet_of_ne hway entry (hne u hu)).2.1]

/-- A full set has every way in its order. -/
private theorem RecencyOrder.length_eq_ways (h : RecencyOrder i set lines r)
    (hfull : emptyWay set = none) : r.length = g.ways :=
  length_eq_of_forall_mem h.ordered.nodup fun w =>
    (h.mem w).mpr (emptyWay_eq_none_iff.mp hfull w)

/-- The victim holds the last of the lines. -/
theorem RecencyOrder.victim (h : RecencyOrder i set lines r) {w : Fin g.ways}
    (hw : victimWay set = some w) :
    r = r.dropLast ++ [w] ∧ lines = lines.dropLast ++ [lineNumber i (set w).tag] := by
  have hr : r ≠ [] := List.ne_nil_of_mem ((h.mem w).mpr (victimWay_spec hw).1)
  have hlast : r.getLast hr = w := by
    rw [victimWay_eq_getLast h.mem h.ordered hr] at hw
    exact Option.some_inj.mp hw
  have hsplit : r = r.dropLast ++ [w] := by
    rw [← hlast, List.dropLast_append_getLast hr]
  refine ⟨hsplit, ?_⟩
  rw [← h.lines_eq, ← List.map_dropLast]
  conv_lhs => rw [hsplit]
  rw [List.map_append, List.map_singleton]

/-- Inserting into a full set drives out the last line. -/
theorem RecencyOrder.insert_full (h : RecencyOrder i set lines r) {w : Fin g.ways}
    (hfull : emptyWay set = none) (hw : victimWay set = some w) {entry : CacheEntry g}
    (hentry : entry.v = true) :
    RecencyOrder i (insertSet set entry) (lineNumber i entry.tag :: lines.dropLast)
      (w :: r.dropLast) := by
  have hway : insertWay set = some w := insertWay_eq_some_iff.mpr (.inr ⟨hfull, hw⟩)
  have hself := insertSet_self hway entry
  obtain ⟨hsplit, -⟩ := h.victim hw
  have hwr : w ∈ r := (h.mem w).mpr (victimWay_spec hw).1
  have hnot : w ∉ r.dropLast := fun hmem => by
    have hnodup := h.ordered.nodup
    rw [hsplit] at hnodup
    exact (List.disjoint_of_nodup_append hnodup) hmem (by simp)
  have herase : r.erase w = r.dropLast := by
    conv_lhs => rw [hsplit]
    rw [List.erase_append_right _ hnot, List.erase_cons_head, List.append_nil]
  have hsub : ∀ u ∈ r.dropLast, u ≠ w ∧ u ∈ r := fun u hu =>
    ⟨fun heq => hnot (heq ▸ hu), List.mem_of_mem_dropLast hu⟩
  have hlen : (w :: r.dropLast).length = r.length := by
    have := List.length_pos_of_mem hwr
    rw [List.length_cons, List.length_dropLast]
    omega
  refine ⟨fun u => ?_, ?_, fun u hu => ?_, ?_⟩
  · rcases eq_or_ne u w with rfl | hu
    · simp [hself.1, hentry]
    · rw [(insertSet_of_ne hway entry hu).1, ← h.mem, List.mem_cons, or_iff_right hu, ← herase,
        List.mem_erase_of_ne hu]
  · rw [ages_insertSet_of_full hfull hw, ← herase]
    exact h.ordered.touch hwr
  · rw [ages_insertSet_of_full hfull hw, hlen]
    refine touch_lt h.lt hwr u ?_
    rcases List.mem_cons.mp hu with rfl | hu
    · exact hwr
    · exact (hsub u hu).2
  · rw [List.map_cons, hself.2.1, ← h.lines_eq, ← List.map_dropLast]
    refine congrArg _ (List.map_congr_left fun u hu => ?_)
    rw [(insertSet_of_ne hway entry (hsub u hu).1).2.1]

end RecencyOrder

/-! ### The L1 part of an access -/

protected theorem Packed.accessedSet {l1 : Cache g} {phyAddr : BitVec 32}
    (h : Packed (l1 (extractLineIndex g phyAddr))) (line : Line) :
    Packed (accessedSet l1 phyAddr line) := by
  rw [accessedSet]
  cases lookup l1 phyAddr with
  | some w => exact h.congr fun u => touchSet_v _ _ _ _
  | none => exact h.insertSet rfl

/-- **One access** moves its line to the front of its set. -/
protected theorem RecencyOrder.accessedSet {l1 : Cache g} {phyAddr : BitVec 32} {history : List ℕ}
    {r : List (Fin g.ways)} (hpacked : Packed (l1 (extractLineIndex g phyAddr)))
    (h : RecencyOrder (extractLineIndex g phyAddr) (l1 (extractLineIndex g phyAddr))
      (recent g.ways history) r) (line : Line) :
    ∃ r', RecencyOrder (extractLineIndex g phyAddr) (accessedSet l1 phyAddr line)
      (recent g.ways (history ++ [lineOf phyAddr])) r' := by
  rw [accessedSet]
  cases hlookup : lookup l1 phyAddr with
  | some w =>
    obtain ⟨hv, hline⟩ := (lookup_eq_some_iff.mp hlookup).1
    have hw : w ∈ r := (h.mem w).mpr hv
    have hmem : lineOf phyAddr ∈ recent g.ways history := by
      rw [← h.lines_eq, ← hline]
      exact List.mem_map_of_mem hw
    refine ⟨w :: r.erase w, ?_⟩
    rw [recent_concat_of_mem hmem, ← hline]
    exact h.touch (nodup_recent _ _) hw line
  | none =>
    -- the set is packed, so a line the lookup misses is not among the recent ones
    have hnot : lineOf phyAddr ∉ recent g.ways history := fun hmem => by
      rw [← h.lines_eq] at hmem
      obtain ⟨w, hw, hline⟩ := List.mem_map.mp hmem
      exact (lookup_eq_none_iff_of_packed hpacked).mp hlookup w ⟨(h.mem w).mp hw, hline⟩
    have htag : lineNumber (extractLineIndex g phyAddr)
        (cacheInitEntryWithParam g phyAddr line).tag = lineOf phyAddr := lineNumber_addrTag _
    cases hempty : emptyWay (l1 (extractLineIndex g phyAddr)) with
    | some w =>
      -- fewer lines than ways so far
      refine ⟨w :: r, ?_⟩
      have hlt : (recent g.ways history).length < g.ways :=
        h.length_eq ▸ (h.length_lt hempty).2
      rw [recent_concat_of_lt hnot hlt, ← htag]
      exact h.insert_free hempty rfl
    | none =>
      -- as many lines as ways: the last one is driven out
      obtain ⟨w, hw⟩ := exists_victimWay_of_full hempty
      refine ⟨w :: r.dropLast, ?_⟩
      have hlen : (recent g.ways history).length = g.ways := by
        rw [h.length_eq, h.length_eq_ways hempty]
      rw [recent_concat_of_full hnot hlen g.ways_pos, ← htag]
      exact h.insert_full hempty hw rfl

/-! ### Histories -/

/-- The line an operation accesses. -/
def CacheOp.line (op : CacheOp) : ℕ := lineOf (phyToInt op.target)

/-- The lines of set `i` accessed through one L1 cache, in order. A refused operation accesses
nothing. -/
def lineHistory (access : MemAccess) (i : Fin Geometry.l1Icache.lines) (ops : List CacheOp) :
    List ℕ :=
  ((ops.filter fun op => op.Aligned ∧ op.access = access).map CacheOp.line).filter
    (· % Geometry.l1Icache.lines = i)

/-- Every set of a cache is packed and holds the lines most recently accessed in it. -/
def L1Ordered (l1 : Cache g) (history : Fin g.lines → List ℕ) : Prop :=
  ∀ i, Packed (l1 i) ∧ ∃ r, RecencyOrder i (l1 i) (recent g.ways (history i)) r

theorem l1Ordered_cacheFlush : L1Ordered (cacheFlush g) fun _ => [] := fun i =>
  ⟨packed_cacheFlush i, [], by rw [recent_nil]; exact recencyOrder_cacheFlush i⟩

/-- An access adds its line to the history of its set. -/
protected theorem L1Ordered.access {l1 : Cache g} {history : Fin g.lines → List ℕ}
    (h : L1Ordered l1 history) (l2 : Cache .l2Cache) (phyAddr : BitVec 32) (line : Line) :
    L1Ordered (access l1 l2 phyAddr line).1
      (update history (extractLineIndex g phyAddr)
        (history (extractLineIndex g phyAddr) ++ [lineOf phyAddr])) := by
  intro i
  rw [access_fst, setAt]
  obtain ⟨hpacked, r, hr⟩ := h i
  rcases eq_or_ne i (extractLineIndex g phyAddr) with rfl | hi
  · rw [update_self, update_self]
    exact ⟨hpacked.accessedSet line, hr.accessedSet hpacked line⟩
  · rw [update_of_ne hi, update_of_ne hi]
    exact ⟨hpacked, r, hr⟩

/-! ### What the order gives the lookup -/

section Lookup

variable {l1 : Cache g} {history : Fin g.lines → List ℕ}

/-- A line is held at one place at most. -/
theorem L1Ordered.unique (h : L1Ordered l1 history) {n : ℕ} {i i' : Fin g.lines}
    {w w' : Fin g.ways} (hw : Holds l1 n i w) (hw' : Holds l1 n i' w') : i = i' ∧ w = w' := by
  obtain rfl := hw.index_eq hw'
  obtain ⟨-, r, hr⟩ := h i
  exact ⟨rfl, hr.inj (nodup_recent _ _) ((hr.mem w).mpr hw.1) ((hr.mem w').mpr hw'.1)
    (hw.2.trans hw'.2.symm)⟩

/-- The lookup misses exactly the lines held nowhere. -/
protected theorem L1Ordered.lookup_eq_none_iff (h : L1Ordered l1 history) {phyAddr : BitVec 32} :
    lookup l1 phyAddr = none ↔
      ∀ i w, ¬ Holds l1 (lineOf phyAddr) i w := by
  rw [lookup_eq_none_iff_of_packed (h _).1]
  refine ⟨fun hnot i w hw => ?_, fun hnot w => hnot _ w⟩
  obtain rfl := (holds_lineOf_iff.mp hw).1
  exact hnot w hw

/-- The lookup finds the one place that holds the line. -/
protected theorem L1Ordered.lookup_eq_some_iff (h : L1Ordered l1 history) {phyAddr : BitVec 32}
    {w : Fin g.ways} :
    lookup l1 phyAddr = some w ↔
      Holds l1 (lineOf phyAddr) (extractLineIndex g phyAddr) w := by
  refine ⟨fun hw => (lookup_eq_some_iff.mp hw).1, fun hw => ?_⟩
  cases hlookup : lookup l1 phyAddr with
  | some u =>
    rw [(h.unique (lookup_eq_some_iff.mp hlookup).1 hw).2]
  | none => exact absurd hw (h.lookup_eq_none_iff.mp hlookup _ w)

end Lookup

/-- An access that hits in L1 leaves L2 alone. -/
theorem access_snd_of_hit {l1 : Cache g} (l2 : Cache .l2Cache) {phyAddr : BitVec 32}
    {w : Fin g.ways} (h : lookup l1 phyAddr = some w) (line : Line) :
    (access l1 l2 phyAddr line).2 = l2 := by
  rw [access, h]

end MemoryHierarchy
