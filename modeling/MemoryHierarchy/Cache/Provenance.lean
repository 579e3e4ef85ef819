import MemoryHierarchy.Cache.Faithful

/-!
# Where values come from

Copies may go stale, and a write through a stale copy puts old words back into memory. But nothing
is made up: every copy in a cache is a line of memory as it was at some point of the run
(`Recalls`), so that every read gets its word or byte from the memory of one such point, and every
byte of memory is an initial one or was written there (`no_thin_air`).
-/

namespace MemoryHierarchy

open Lib Function

/-! ### Copies of earlier memories -/

/-- Every copy in a cache is a line of one of the memories `past`, one of which is the present. -/
structure CacheState.Recalls (past : Set Mem) (s : CacheState) : Prop where
  present : s.memSpace ∈ past
  l1 : ∀ access, AllHeld (fun n line => ∃ mem ∈ past, line = memLine mem n) (s.l1 access)
  l2 : AllHeld (fun n line => ∃ mem ∈ past, line = memLine mem n) s.l2Cache

variable {past past' : Set Mem} {s : CacheState}

theorem recalls_flushed (memSpace : Mem) : (flushed memSpace).Recalls {memSpace} where
  present := Set.mem_singleton memSpace
  l1 access := by cases access <;> exact allHeld_cacheFlush _
  l2 := allHeld_cacheFlush _

theorem CacheState.Recalls.mono (h : s.Recalls past) (hpast : past ⊆ past') : s.Recalls past' where
  present := hpast h.present
  l1 access loc n line hheld := (h.l1 access loc n line hheld).imp fun _ hmem =>
    ⟨hpast hmem.1, hmem.2⟩
  l2 loc n line hheld := (h.l2 loc n line hheld).imp fun _ hmem => ⟨hpast hmem.1, hmem.2⟩

/-- The copy an operation works on. -/
protected theorem CacheState.Recalls.served (h : s.Recalls past) (access : MemAccess)
    (phyAddr : BitVec 32) :
    ∃ mem ∈ past, s.served access phyAddr = memLine mem (lineOf phyAddr) := by
  rw [CacheState.served, servedLine]
  cases h1 : lookup (s.l1 access) phyAddr with
  | some w => exact h.l1 access _ _ _ (lookup_eq_some_iff.mp h1).1.held
  | none =>
    cases h2 : lookup s.l2Cache phyAddr with
    | some u => exact h.l2 _ _ _ (lookup_eq_some_iff.mp h2).1.held
    | none => exact ⟨s.memSpace, h.present, readMemory_eq _ _⟩

protected theorem CacheState.Recalls.readStep (h : s.Recalls past) (access : MemAccess)
    (phyAddr : BitVec 32) : (readStep s access phyAddr).Recalls past := by
  obtain ⟨h1, h2⟩ := (h.l1 access).access h.l2 (h.served access phyAddr)
  refine ⟨(memSpace_readStep s access phyAddr).symm ▸ h.present, fun access' => ?_, ?_⟩
  · rw [readStep]
    rcases eq_or_ne access' access with rfl | hne
    · rw [setCaches_l1_self]
      exact h1
    · rw [setCaches_l1_of_ne _ _ _ hne]
      exact h.l1 access'
  · rw [readStep, setCaches_l2Cache]
    exact h2

/-- A write stores the line that it writes back, which is a line of the memory it leaves. -/
protected theorem CacheState.Recalls.writeStep (h : s.Recalls past) (phyAddr : BitVec 32)
    (word : Word) :
    (writeStep s phyAddr word).Recalls (insert (writeStep s phyAddr word).memSpace past) := by
  have hpast := h.mono (Set.subset_insert (writeStep s phyAddr word).memSpace past)
  have hwritten : ∃ mem ∈ insert (writeStep s phyAddr word).memSpace past,
      s.written phyAddr word = memLine mem (lineOf phyAddr) :=
    ⟨_, Set.mem_insert _ _, by rw [writeStep, memLine_writeMemory, if_pos rfl]⟩
  obtain ⟨h1, h2⟩ := (hpast.l1 .data).access hpast.l2 hwritten
  refine ⟨Set.mem_insert _ _, fun access => ?_, h2⟩
  cases access with
  | instruction => exact hpast.l1 .instruction
  | data => exact h1

/-- **One command** adds its memory to those that copies are from. -/
protected theorem CacheState.Recalls.stepCommand (h : s.Recalls past) (op : CacheOp) :
    (stepCommand s op).Recalls (insert (stepCommand s op).memSpace past) := by
  by_cases ha : op.Aligned
  · cases op with
    | read access paddr =>
      rw [stepCommand, executeCommand_read ha]
      exact (h.readStep _ _).mono (Set.subset_insert _ _)
    | readByte access paddr =>
      rw [stepCommand, executeCommand_readByte]
      exact (h.readStep _ _).mono (Set.subset_insert _ _)
    | write paddr word =>
      rw [stepCommand, executeCommand_write ha]
      exact h.writeStep _ _
    | writeByte paddr byte =>
      rw [stepCommand, executeCommand_writeByte]
      exact (h.readStep _ _).writeStep _ _
  · rw [stepCommand, executeCommand_unaligned ha]
    exact h.mono (Set.subset_insert _ _)

/-- A reply is the one that some earlier memory gives. -/
theorem CacheState.Recalls.reply (h : s.Recalls past) (op : CacheOp) :
    ∃ mem ∈ past, (executeCommand s op).2 = op.answer (memBytes mem) := by
  by_cases ha : op.Aligned
  · cases op with
    | read access paddr =>
      obtain ⟨mem, hmem, hline⟩ := h.served access (phyToInt paddr)
      have haddr : (phyToInt paddr).toNat % 4 = 0 := (pageOffset_mod_four paddr).symm.trans ha
      refine ⟨mem, hmem, ?_⟩
      rw [executeCommand_read ha, hline, memLine_lineOf, CacheOp.answer, if_pos ha, CacheOp.addr,
        ofBytes_memBytes _ haddr, wordOf]
    | readByte access paddr =>
      obtain ⟨mem, hmem, hline⟩ := h.served access (phyToInt (wordAligned paddr))
      refine ⟨mem, hmem, ?_⟩
      rw [executeCommand_readByte, hline, memLine_lineOf, CacheOp.answer, CacheOp.addr, memBytes,
        wordOf_wordAligned, pageOffset_mod_four]
    | write paddr word =>
      exact ⟨s.memSpace, h.present, by rw [executeCommand_write ha, CacheOp.answer, if_pos ha]⟩
    | writeByte paddr byte =>
      exact ⟨s.memSpace, h.present, by rw [executeCommand_writeByte, CacheOp.answer]⟩
  · refine ⟨s.memSpace, h.present, ?_⟩
    rw [executeCommand_unaligned ha]
    cases op with
    | read access paddr => rw [CacheOp.answer, if_neg ha]
    | readByte access paddr => exact absurd (wordAligned_aligned paddr) ha
    | write paddr word => rw [CacheOp.answer, if_neg ha]
    | writeByte paddr byte => exact absurd (wordAligned_aligned paddr) ha

/-! ### Bytes of memory -/

/-- A byte after a write step: of the word written, of the memory the line is a copy from, or as
before. -/
private theorem memBytes_writeStep (h : s.Recalls past) (phyAddr : BitVec 32) (word : Word)
    (a : ℕ) :
    (a / 4 = wordOf phyAddr ∧
        memBytes (writeStep s phyAddr word).memSpace a = byteAt word (a % 4)) ∨
      a / 4 ≠ wordOf phyAddr ∧
        ∃ mem ∈ past, memBytes (writeStep s phyAddr word).memSpace a = memBytes mem a := by
  obtain ⟨mem, hmem, hserved⟩ := h.served .data phyAddr
  have hline := memLine_writeMemory s.memSpace phyAddr (s.written phyAddr word) (a / 16)
  have hindex : a / 4 % 4 < 4 := Nat.mod_lt _ (by decide)
  have hword : ∀ m : Mem,
      memBytes m a = byteAt (memLine m (a / 16) ⟨a / 4 % 4, hindex⟩) (a % 4) := by
    intro m
    rw [memBytes, memLine]
    congr 2
    change a / 4 = 4 * (a / 16) + a / 4 % 4
    omega
  have haddr := wordOf_eq phyAddr
  rw [hword, writeStep, hline]
  by_cases ha : a / 16 = lineOf phyAddr
  · rw [if_pos ha, CacheState.written]
    by_cases hw : (⟨a / 4 % 4, hindex⟩ : Fin wordsPerLine) = extractWordIndex phyAddr
    · left
      rw [hw, update_self]
      have hval := congrArg Fin.val hw
      simp only at hval
      exact ⟨by omega, rfl⟩
    · right
      refine ⟨fun heq => hw (Fin.ext ?_), mem, hmem, ?_⟩
      · simp only
        omega
      · rw [update_of_ne hw, hserved, hword, ha]
  · right
    have hlt : (extractWordIndex phyAddr).val < 4 := (extractWordIndex phyAddr).isLt
    exact ⟨by omega, s.memSpace, h.present, by rw [if_neg ha, ← hword]⟩

/-- **A byte of memory after a command** is one the command writes, or one of an earlier memory. -/
private theorem memBytes_stepCommand (h : s.Recalls past) (op : CacheOp) (a : ℕ) :
    (a, memBytes (stepCommand s op).memSpace a) ∈ op.writes ∨
      ∃ mem ∈ past, memBytes (stepCommand s op).memSpace a = memBytes mem a := by
  by_cases ha : op.Aligned
  · cases op with
    | read access paddr =>
      rw [stepCommand, executeCommand_read ha, memSpace_readStep]
      exact .inr ⟨s.memSpace, h.present, rfl⟩
    | readByte access paddr =>
      rw [stepCommand, executeCommand_readByte, memSpace_readStep]
      exact .inr ⟨s.memSpace, h.present, rfl⟩
    | write paddr word =>
      rw [stepCommand, executeCommand_write ha]
      rcases memBytes_writeStep h (phyToInt paddr) word a with ⟨hword, hbyte⟩ | ⟨-, hold⟩
      · left
        have haddr : (phyToInt paddr).toNat % 4 = 0 := (pageOffset_mod_four paddr).symm.trans ha
        rw [wordOf] at hword
        rw [hbyte, CacheOp.writes, if_pos ha, wordWrites, List.mem_map]
        refine ⟨a % 4, List.mem_range.mpr (Nat.mod_lt _ (by decide)), Prod.ext ?_ rfl⟩
        rw [CacheOp.addr]
        omega
      · exact .inr hold
    | writeByte paddr byte =>
      rw [stepCommand, executeCommand_writeByte]
      have hread := h.readStep .data (phyToInt (wordAligned paddr))
      rcases memBytes_writeStep hread (phyToInt (wordAligned paddr)) (s.byteWritten paddr byte) a
        with ⟨hword, hbyte⟩ | ⟨-, hold⟩
      · rw [wordOf_wordAligned] at hword
        by_cases hindex : paddr.pageOffset.toNat % 4 = a % 4
        · left
          rw [hbyte, CacheState.byteWritten, hindex,
            byteAt_withByte_self _ _ (by omega), CacheOp.writes, CacheOp.addr,
            List.mem_singleton]
          rw [pageOffset_mod_four] at hindex
          exact Prod.ext (by simp only; omega) rfl
        · right
          obtain ⟨mem, hmem, hserved⟩ := h.served .data (phyToInt (wordAligned paddr))
          refine ⟨mem, hmem, ?_⟩
          rw [hbyte, CacheState.byteWritten, byteAt_withByte_of_ne _ _ hindex, hserved,
            memLine_lineOf, wordOf_wordAligned, memBytes, hword]
      · exact .inr hold
  · rw [stepCommand, executeCommand_unaligned ha]
    exact .inr ⟨s.memSpace, h.present, rfl⟩

/-! ### Runs -/

/-- The memories a run goes through. -/
def memories (memSpace : Mem) (ops : List CacheOp) : Set Mem :=
  {mem | ∃ before, before <+: ops ∧ (runCommands (flushed memSpace) before).memSpace = mem}

theorem memories_concat (memSpace : Mem) (ops : List CacheOp) (op : CacheOp) :
    memories memSpace (ops ++ [op]) =
      insert (runCommands (flushed memSpace) (ops ++ [op])).memSpace (memories memSpace ops) := by
  ext mem
  simp only [memories, Set.mem_insert_iff, Set.mem_ofPred_eq, List.prefix_concat_iff]
  constructor
  · rintro ⟨before, rfl | hbefore, rfl⟩
    · exact .inl rfl
    · exact .inr ⟨before, hbefore, rfl⟩
  · rintro (rfl | ⟨before, hbefore, rfl⟩)
    · exact ⟨_, .inl rfl, rfl⟩
    · exact ⟨before, .inr hbefore, rfl⟩

/-- **Every run** only ever holds copies of the memories it went through. -/
theorem recalls_runCommands (memSpace : Mem) (ops : List CacheOp) :
    (runCommands (flushed memSpace) ops).Recalls (memories memSpace ops) := by
  induction ops using List.reverseRecOn with
  | nil =>
    refine (recalls_flushed memSpace).mono (Set.singleton_subset_iff.mpr ?_)
    exact ⟨[], List.prefix_rfl, rfl⟩
  | append_singleton ops op ih =>
    rw [memories_concat, runCommands_concat]
    exact ih.stepCommand op

/-- **No value out of thin air.** After any run from flushed caches every byte of memory is the
initial one or was written to its address, and the next operation gets the reply that the memory of
one point of the run gives, whatever copies have gone stale. -/
theorem no_thin_air (memSpace : Mem) (ops : List CacheOp) :
    (∀ a, memBytes (runCommands (flushed memSpace) ops).memSpace a = memBytes memSpace a ∨
      ∃ op ∈ ops, (a, memBytes (runCommands (flushed memSpace) ops).memSpace a) ∈ op.writes) ∧
    ∀ op, ∃ before, before <+: ops ∧
      (executeCommand (runCommands (flushed memSpace) ops) op).2 =
        op.answer (memBytes (runCommands (flushed memSpace) before).memSpace) := by
  constructor
  · have hall : ∀ mem ∈ memories memSpace ops, ∀ a, memBytes mem a = memBytes memSpace a ∨
        ∃ op ∈ ops, (a, memBytes mem a) ∈ op.writes := by
      induction ops using List.reverseRecOn with
      | nil =>
        rintro mem ⟨before, hbefore, rfl⟩ a
        rw [List.prefix_nil.mp hbefore]
        exact .inl rfl
      | append_singleton ops op ih =>
        have hold : ∀ mem ∈ memories memSpace ops, ∀ a, memBytes mem a = memBytes memSpace a ∨
            ∃ op' ∈ ops ++ [op], (a, memBytes mem a) ∈ op'.writes := fun mem hmem a =>
          (ih mem hmem a).imp_right fun ⟨op', hop', hwrite⟩ =>
            ⟨op', List.mem_append_left _ hop', hwrite⟩
        intro mem hmem a
        rw [memories_concat, Set.mem_insert_iff, runCommands_concat] at hmem
        rcases hmem with rfl | hmem
        · rcases memBytes_stepCommand (recalls_runCommands memSpace ops) op a with
            hwrite | ⟨mem, hmem, hbyte⟩
          · exact .inr ⟨op, by simp, hwrite⟩
          · rw [hbyte]
            exact hold mem hmem a
        · exact hold mem hmem a
    exact hall _ ⟨ops, List.prefix_rfl, rfl⟩
  · intro op
    obtain ⟨mem, ⟨before, hbefore, rfl⟩, hreply⟩ := (recalls_runCommands memSpace ops).reply op
    exact ⟨before, hbefore, hreply⟩

end MemoryHierarchy
