import MemoryHierarchy.Cache.Locality

/-!
# Interleavings of operations

What an operation does stays within the part of the state that its L1 index selects, so over a whole
run each part only sees its own operations, in their order (`transcript_set`). How the operations on
different parts are interleaved cannot be told from the caches, from memory or from any reply
(`interleaved_commands`).
-/

namespace MemoryHierarchy

open Lib

/-- The L1 index of an operation. -/
def CacheOp.set (op : CacheOp) : Fin Geometry.l1Icache.lines := lineClass (op.addr / 16)

theorem CacheOp.set_eq (op : CacheOp) :
    op.set = extractLineIndex .l1Icache (phyToInt op.target) :=
  Fin.ext (extractLineIndex_target op).symm

theorem localTo_set (op : CacheOp) :
    LocalTo CacheState.part op.set fun s => executeCommand s op := by
  rw [op.set_eq]
  exact localTo_executeCommand op

/-- **Each set runs on its own**: its operations get the replies they get without the others. -/
theorem transcript_set (s : CacheState) (ops : List CacheOp) (i : Fin Geometry.l1Icache.lines) :
    (transcript executeCommand s ops).filter (fun x => x.1.set = i) =
      transcript executeCommand s (ops.filter fun op => op.set = i) :=
  transcript_filter localTo_set rfl ops

/-- **Interleavings agree.** From caches and a memory with any contents, two sequences that have the
same operations in each L1 set, in the same order, leave the same caches and the same memory, and
the operations of each set get the same replies. -/
theorem interleaved_commands (s : CacheState) {ops ops' : List CacheOp}
    (h : ∀ i, (ops.filter fun op => op.set = i) = ops'.filter fun op => op.set = i) :
    runCommands s ops = runCommands s ops' ∧
      ∀ i, (transcript executeCommand s ops).filter (fun x => x.1.set = i) =
        (transcript executeCommand s ops').filter fun x => x.1.set = i := by
  refine ⟨run_eq_of_filter_eq localTo_set (fun _ _ => CacheState.eq_of_parts) h s, fun i => ?_⟩
  rw [transcript_set, transcript_set, h]

/-- A fetch from the next line, before or after a write that is read back. -/
theorem interleaved_commands_fetch :
    runCommands (flushed fun _ => 7)
        [.write ⟨0, 4⟩ 5, .read .instruction ⟨0, 16⟩, .readByte .data ⟨0, 5⟩] =
      runCommands (flushed fun _ => 7)
        [.read .instruction ⟨0, 16⟩, .write ⟨0, 4⟩ 5, .readByte .data ⟨0, 5⟩] := by
  refine (interleaved_commands _ fun i => ?_).1
  have hwrite : (CacheOp.write ⟨0, 4⟩ 5).set = 0 := by decide
  have hfetch : (CacheOp.read .instruction ⟨0, 16⟩).set = 1 := by decide
  simp only [List.filter_cons, hwrite, hfetch]
  by_cases hi : 1 = i
  · subst hi
    rfl
  · simp [hi]

end MemoryHierarchy
