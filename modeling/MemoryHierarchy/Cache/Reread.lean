import MemoryHierarchy.Cache.ByteWrites
import MemoryHierarchy.Cache.Faithful
import MemoryHierarchy.Cache.L1Lru

/-!
# Reads that change nothing

A read of the line that was last accessed in its set, through the same L1 cache, finds the entry
at age 0 and leaves both caches as they are. No other read does: the line it reads becomes the last
one of its set, which the ages show (`read_unchanged_iff`).
-/

namespace MemoryHierarchy

open Lib Function

variable {g : Geometry}

/-- A set is in one order of use only. -/
theorem RecencyOrder.unique {i : Fin g.lines} {set : CacheSet g} {lines lines' : List ℕ}
    {r r' : List (Fin g.ways)} (h : RecencyOrder i set lines r)
    (h' : RecencyOrder i set lines' r') : lines = lines' := by
  obtain rfl : r = r' := h.ordered.unique h'.ordered fun w => (h.mem w).trans (h'.mem w).symm
  exact h.lines_eq.symm.trans h'.lines_eq

/-- The line last used is at age 0. -/
theorem RecencyOrder.exists_of_head {i : Fin g.lines} {set : CacheSet g} {lines : List ℕ}
    {r : List (Fin g.ways)} (h : RecencyOrder i set lines r) {n : ℕ} (hn : lines.head? = some n) :
    ∃ w, (set w).v = true ∧ lineNumber i (set w).tag = n ∧ (set w).age = 0 := by
  cases r with
  | nil =>
    rw [← h.lines_eq] at hn
    cases hn
  | cons w r =>
    have hages := h.map_ages
    rw [List.map_cons, List.length_cons, List.range_succ_eq_map, List.cons.injEq] at hages
    rw [← h.lines_eq, List.map_cons, List.head?_cons, Option.some_inj] at hn
    exact ⟨w, (h.mem w).mp List.mem_cons_self, hn, hages.1⟩

/-- The lines accessed in the set of an operation, through its L1 cache. -/
def CacheOp.history (op : CacheOp) (ops : List CacheOp) : List ℕ :=
  lineHistory op.access (extractLineIndex .l1Icache (phyToInt op.target)) ops

/-- **Rereading.** After any sequence of operations on flushed caches, a read leaves caches and
memory as they are if and only if the last line accessed in its set, through its L1 cache, is the
line that it reads. -/
theorem read_unchanged_iff (memSpace : Mem) (ops : List CacheOp) {op : CacheOp} (hread : op.IsRead)
    (ha : op.Aligned) :
    stepCommand (runCommands (flushed memSpace) ops) op = runCommands (flushed memSpace) ops ↔
      (op.history ops).getLast? = some op.line := by
  have hordered := l1Ordered_runCommands memSpace ops op.access
  obtain ⟨-, r, hr⟩ := hordered (extractLineIndex .l1Icache (phyToInt op.target))
  have hhead : (recent 4 (op.history ops)).head? = (op.history ops).getLast? :=
    head?_recent (by decide) _
  constructor
  · intro hsame
    -- the read is the last use in a set that has not changed
    have hafter := l1Ordered_runCommands memSpace (ops ++ [op]) op.access
    rw [runCommands_concat, hsame, lineHistory_concat_self ops ha] at hafter
    obtain ⟨-, r', hr'⟩ := hafter (extractLineIndex .l1Icache (phyToInt op.target))
    rw [update_self] at hr'
    have hlines := hr.unique hr'
    rw [← hhead]
    exact (congrArg List.head? hlines).trans
      ((head?_recent (by decide) _).trans List.getLast?_concat)
  · intro hlast
    obtain ⟨w, hv, hline, hage⟩ := hr.exists_of_head (hhead.trans hlast)
    rw [stepCommand_of_isRead hread, if_pos ha]
    exact readStep_of_youngest (hordered.lookup_eq_some_iff.mpr ⟨hv, hline⟩) hage

/-- Reading the line just written, after a fetch that it shares its set index with. -/
theorem read_unchanged_iff_written :
    stepCommand (runCommands (flushed fun _ => 1)
        [.write ⟨0, 4⟩ 5, .read .instruction ⟨1, 0⟩]) (.readByte .data ⟨0, 9⟩) =
      runCommands (flushed fun _ => 1) [.write ⟨0, 4⟩ 5, .read .instruction ⟨1, 0⟩] :=
  (read_unchanged_iff _ _ (show CacheOp.IsRead (.readByte .data ⟨0, 9⟩) from trivial)
    (by decide)).mpr (by decide)

end MemoryHierarchy
