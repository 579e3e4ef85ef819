import MemoryHierarchy.Cache.Memory

/-!
# Faithful states

A state is faithful when every cached copy, in whichever cache, agrees with memory. From a
faithful state every reply is the one memory itself would give (`executeCommand_reply`), and
reads keep the state faithful whatever they evict and promote (`Faithful.readStep`): a line is
only ever copied, under the number it already had.
-/

namespace MemoryHierarchy

open Lib Function

variable {g : Geometry}

/-- Every valid entry holds the memory words of the line address rebuilt from its set index and
its tag. -/
def FaithfulTo (mem : Mem) (cache : Cache g) : Prop :=
  ∀ i w, (cache i w).v = true →
    (cache i w).line = readMemory mem (recomputeOldPhyAddr (cache i w).tag i)

theorem faithfulTo_iff {mem : Mem} {cache : Cache g} :
    FaithfulTo mem cache ↔ AllHeld (fun n line => line = memLine mem n) cache := by
  constructor
  · rintro h ⟨i, w⟩ n line hheld
    obtain ⟨⟨hv, rfl⟩, rfl⟩ := held_eq_some_iff.mp hheld
    rw [h i w hv, readMemory_eq, lineOf_recomputeOldPhyAddr]
  · intro h i w hv
    rw [readMemory_eq, lineOf_recomputeOldPhyAddr]
    exact h (i, w) _ _ (held_eq_some_iff.mpr ⟨⟨hv, rfl⟩, rfl⟩)

/-- Every cached copy agrees with memory. -/
structure CacheState.Faithful (s : CacheState) : Prop where
  l1 : ∀ access, FaithfulTo s.memSpace (s.l1 access)
  l2 : FaithfulTo s.memSpace s.l2Cache

theorem faithful_flushed (memSpace : Mem) : (flushed memSpace).Faithful where
  l1 access := by
    rw [faithfulTo_iff]
    cases access <;> exact allHeld_cacheFlush _
  l2 := faithfulTo_iff.mpr (allHeld_cacheFlush _)

/-- The copy an operation works on is the line of memory. -/
protected theorem CacheState.Faithful.served {s : CacheState} (h : s.Faithful) (access : MemAccess)
    (phyAddr : BitVec 32) : s.served access phyAddr = memLine s.memSpace (lineOf phyAddr) := by
  rw [CacheState.served, servedLine]
  cases h1 : lookup (s.l1 access) phyAddr with
  | some w =>
    have hheld := (lookup_eq_some_iff.mp h1).1.held
    exact faithfulTo_iff.mp (h.l1 access) _ _ _ hheld
  | none =>
    cases h2 : lookup s.l2Cache phyAddr with
    | some u =>
      have hheld := (lookup_eq_some_iff.mp h2).1.held
      exact faithfulTo_iff.mp h.l2 _ _ _ hheld
    | none => exact readMemory_eq _ _

/-- **Reads keep a state faithful.** -/
protected theorem CacheState.Faithful.readStep {s : CacheState} (h : s.Faithful)
    (access : MemAccess) (phyAddr : BitVec 32) : (readStep s access phyAddr).Faithful := by
  obtain ⟨h1, h2⟩ := (faithfulTo_iff.mp (h.l1 access)).access (faithfulTo_iff.mp h.l2)
    (h.served access phyAddr)
  refine ⟨fun access' => ?_, ?_⟩
  · rw [readStep, setCaches_memSpace]
    rcases eq_or_ne access' access with rfl | hne
    · rw [setCaches_l1_self, faithfulTo_iff]
      exact h1
    · rw [setCaches_l1_of_ne _ _ _ hne]
      exact h.l1 access'
  · rw [readStep, setCaches_memSpace, setCaches_l2Cache, faithfulTo_iff]
    exact h2

theorem memSpace_readStep (s : CacheState) (access : MemAccess) (phyAddr : BitVec 32) :
    (readStep s access phyAddr).memSpace = s.memSpace :=
  setCaches_memSpace s access _

/-- **From a faithful state a command replies what memory holds.** -/
theorem executeCommand_reply {s : CacheState} (h : s.Faithful) (op : CacheOp) :
    (executeCommand s op).2 = op.answer (memBytes s.memSpace) := by
  by_cases ha : op.Aligned
  · cases op with
    | read access paddr =>
      have haddr : (phyToInt paddr).toNat % 4 = 0 := (pageOffset_mod_four paddr).symm.trans ha
      rw [executeCommand_read ha, h.served, memLine_lineOf, CacheOp.answer, if_pos ha,
        CacheOp.addr, ofBytes_memBytes _ haddr, wordOf]
    | readByte access paddr =>
      rw [executeCommand_readByte, h.served, memLine_lineOf, CacheOp.answer, CacheOp.addr,
        memBytes, wordOf_wordAligned, pageOffset_mod_four]
    | write paddr word => rw [executeCommand_write ha, CacheOp.answer, if_pos ha]
    | writeByte paddr byte => rw [executeCommand_writeByte, CacheOp.answer]
  · rw [executeCommand_unaligned ha]
    cases op with
    | read access paddr => rw [CacheOp.answer, if_neg ha]
    | readByte access paddr => exact absurd (wordAligned_aligned paddr) ha
    | write paddr word => rw [CacheOp.answer, if_neg ha]
    | writeByte paddr byte => exact absurd (wordAligned_aligned paddr) ha

/-! ### Runs of reads -/

/-- The operation is a read. -/
def CacheOp.IsRead : CacheOp → Prop
  | .read _ _ => True
  | .readByte _ _ => True
  | .write _ _ => False
  | .writeByte _ _ => False

instance : DecidablePred CacheOp.IsRead := fun op => by
  cases op <;> simp only [CacheOp.IsRead] <;> infer_instance

theorem stepCommand_of_isRead {s : CacheState} {op : CacheOp} (h : op.IsRead) :
    stepCommand s op =
      if op.Aligned then readStep s op.access (phyToInt op.target) else s := by
  split_ifs with ha
  · cases op with
    | read access paddr => rw [stepCommand, executeCommand_read ha]; rfl
    | readByte access paddr => rw [stepCommand, executeCommand_readByte]; rfl
    | write paddr word => exact h.elim
    | writeByte paddr byte => exact h.elim
  · rw [stepCommand, executeCommand_unaligned ha]

/-- **Caches never show through reads.** After any sequence of reads through either L1 cache
the state is faithful and memory unchanged, and the next read gets what memory holds: an
aligned one succeeds with the word or byte at its address, an unaligned one is refused. -/
theorem reads_faithful (memSpace : Mem) (ops : List CacheOp) (h : ∀ op ∈ ops, op.IsRead) :
    (runCommands (flushed memSpace) ops).Faithful ∧
      (runCommands (flushed memSpace) ops).memSpace = memSpace ∧
      ∀ op : CacheOp, op.IsRead →
        (executeCommand (runCommands (flushed memSpace) ops) op).2 =
          op.answer (memBytes memSpace) := by
  have hrun : (runCommands (flushed memSpace) ops).Faithful ∧
      (runCommands (flushed memSpace) ops).memSpace = memSpace := by
    refine run_invariant (C := fun _ op => CacheOp.IsRead op)
      (I := fun _ (s : CacheState) => s.Faithful ∧ s.memSpace = memSpace)
      ⟨faithful_flushed memSpace, rfl⟩ (fun _ op s hs hop => ?_)
      (stepsMeet_of_forall (fun _ => h) _)
    rw [stepCommand_of_isRead hop]
    split_ifs
    · exact ⟨hs.1.readStep _ _, (memSpace_readStep _ _ _).trans hs.2⟩
    · exact hs
  refine ⟨hrun.1, hrun.2, fun op _ => ?_⟩
  rw [executeCommand_reply hrun.1, hrun.2]

/-- Two lines of one set read through different caches. -/
theorem reads_faithful_mixed :
    (executeCommand
        (runCommands (flushed fun i => BitVec.ofNat 32 i)
          [.read .instruction ⟨1, 0⟩, .readByte .data ⟨2, 3⟩])
        (.read .data ⟨1, 4⟩)).2 = ⟨.errNone, some 1025, none⟩ :=
  ((reads_faithful _ _ (by decide)).2.2 (.read .data ⟨1, 4⟩) trivial).trans (by decide +kernel)

end MemoryHierarchy
