import MemoryHierarchy.Cache.WriteThrough

/-!
# Transparency

What the caches promise a program: reads see the latest write, and memory is kept up to date.
Both hold along every run whose writes find the only copy of their line, and fail along
`staleRun`, where they do not.

That run goes on from `holeRun`: `lineA 2` is in L2 behind a hole and can no longer be found, so
the write to it goes to a second copy, made from memory. The copy in L2 stays as it was, and is
found again once an `A` line fills the hole.
-/

namespace MemoryHierarchy

open Lib

/-! ### Reads on the data side -/

/-- The step condition on the data side, where the instruction cache stays empty. -/
def CacheState.WritesSoleDataCopy (s : CacheState) (op : CacheOp) : Prop :=
  s.WritesNothingNew op ∨ s.SoleDataCopy (phyToInt op.target)

instance (s : CacheState) (op : CacheOp) : Decidable (s.WritesSoleDataCopy op) :=
  inferInstanceAs (Decidable (_ ∨ _))

/-- Data operations leave the instruction cache empty, so the condition on the data side is
the whole condition. -/
private theorem stepsMeet_writesSoleCopy {s : CacheState} {ops : List CacheOp}
    (hdata : ∀ op ∈ ops, op.access = .data) (hempty : s.l1Icache = cacheFlush _)
    (h : StepsMeet stepCommand CacheState.WritesSoleDataCopy s ops) :
    StepsMeet stepCommand CacheState.WritesSoleCopy s ops := by
  induction ops generalizing s with
  | nil => trivial
  | cons op ops ih =>
    have hne : MemAccess.instruction ≠ op.access := by
      rw [hdata op (by simp)]
      decide
    refine ⟨h.1.imp_right fun hsole => ⟨fun w hw => ?_, hsole⟩,
      ih (fun op' hop' => hdata op' (List.mem_cons_of_mem op hop'))
        ((stepCommand_l1_of_ne s hne).trans hempty) h.2⟩
    rw [hempty] at hw
    exact Bool.false_ne_true hw.1

/-- **Data-side transparency.** Along every run of data operations whose writes find the only
copy of their line, each operation gets the reply of a flat memory: a read the value of the
latest write to each of its bytes, or what memory held at first. -/
theorem data_reads_latest_write (memSpace : Mem) (ops : List CacheOp)
    (hdata : ∀ op ∈ ops, op.access = .data)
    (hsole : StepsMeet stepCommand CacheState.WritesSoleDataCopy (flushed memSpace) ops)
    (op : CacheOp) :
    (executeCommand (runCommands (flushed memSpace) ops) op).2 =
      op.answer fun a =>
        (latestWrite (ops.flatMap CacheOp.writes) a).getD (memBytes memSpace a) := by
  obtain ⟨hfaithful, hmem⟩ := runCommands_flat (stepsMeet_writesSoleCopy hdata rfl hsole)
  rw [executeCommand_reply hfaithful, hmem]
  exact congrArg op.answer (funext (flatMemory_apply memSpace ops))

/-- A write is read back, through a copy made by the read before it. -/
theorem data_reads_latest_write_readBack :
    (executeCommand
        (runCommands (flushed fun i => BitVec.ofNat 32 i)
          [.read .data ⟨1, 4⟩, .write ⟨1, 0⟩ 7, .writeByte ⟨1, 2⟩ 1])
        (.read .data ⟨1, 0⟩)).2 = ⟨.errNone, some 0x10007, none⟩ :=
  (data_reads_latest_write _ _ (by decide) (by decide +kernel) _).trans (by decide +kernel)

/-- A run that leaves a stale copy of `lineA 2` where the next lookup finds it. -/
def staleRun : List CacheOp :=
  holeRun ++ [.write (lineA 2) 7, .read .data (lineB 5), .read .data (lineB 6),
    .read .data (lineB 7), .read .data (lineB 8)]

/-- On the data side a read need not see the latest write. -/
theorem not_data_reads_latest_write :
    ¬ ∀ (memSpace : Mem) (ops : List CacheOp),
      (∀ op ∈ ops, op.access = .data ∧ op.Aligned) →
      ∀ op : CacheOp, op.access = .data → op.Aligned → op.IsRead →
        (executeCommand (runCommands (flushed memSpace) ops) op).2 =
          op.answer fun a =>
            (latestWrite (ops.flatMap CacheOp.writes) a).getD (memBytes memSpace a) := by
  intro h
  have hread := h (fun _ => 0) staleRun (by decide) (.read .data (lineA 2)) rfl rfl trivial
  exact absurd hread (by decide +kernel)

/-! ### Memory -/

instance (s : CacheState) (op : CacheOp) : Decidable (s.WritesSoleCopy op) :=
  inferInstanceAs (Decidable (_ ∨ _))

/-- **Write-through.** Along every run whose writes find the only copy of their line, memory
is the initial memory with all the writes applied in order, and one more write changes no word
but its own. -/
theorem memory_is_flat (memSpace : Mem) (ops : List CacheOp)
    (hsole : StepsMeet stepCommand CacheState.WritesSoleCopy (flushed memSpace) ops) :
    memBytes (runCommands (flushed memSpace) ops).memSpace = flatMemory memSpace ops ∧
      ∀ (paddr : PhyAddr) (word : Word) (i : ℕ), i ≠ (phyToInt paddr).toNat / 4 →
        (stepCommand (runCommands (flushed memSpace) ops) (.write paddr word)).memSpace i =
          (runCommands (flushed memSpace) ops).memSpace i := by
  obtain ⟨hfaithful, hmem⟩ := runCommands_flat hsole
  refine ⟨hmem, fun paddr word i hi => ?_⟩
  by_cases ha : (CacheOp.write paddr word).Aligned
  · rw [stepCommand, executeCommand_write ha, hfaithful.memSpace_writeStep]
    exact Function.update_of_ne hi _ _
  · rw [stepCommand, executeCommand_unaligned ha]

/-- Instruction and data reads around a write that finds the only copy. -/
theorem memory_is_flat_interleaved :
    memBytes (runCommands (flushed fun _ => 0)
        [.read .instruction ⟨1, 0⟩, .write ⟨2, 0⟩ 7, .readByte .data ⟨2, 1⟩,
          .writeByte ⟨2, 5⟩ 3]).memSpace =
      flatMemory (fun _ => 0)
        [.read .instruction ⟨1, 0⟩, .write ⟨2, 0⟩ 7, .readByte .data ⟨2, 1⟩,
          .writeByte ⟨2, 5⟩ 3] :=
  (memory_is_flat _ _ (by decide +kernel)).1

/-- Memory need not be the flat memory: after `staleRun` a write to the second word of
`lineA 2` puts the first one back to what it was before. -/
theorem not_memory_is_flat :
    ¬ ∀ (memSpace : Mem) (ops : List CacheOp), (∀ op ∈ ops, op.Aligned) →
      memBytes (runCommands (flushed memSpace) ops).memSpace = flatMemory memSpace ops := by
  intro h
  have hbyte := congrFun (h (fun _ => 0) (staleRun ++ [.write ⟨4, 4⟩ 5]) (by decide)) 16384
  exact absurd hbyte (by decide +kernel)

end MemoryHierarchy
