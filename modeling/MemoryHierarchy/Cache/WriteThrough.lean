import MemoryHierarchy.Cache.Faithful
import MemoryHierarchy.Cache.Exclusive

/-!
# Writing through

A write updates the one copy its lookup finds, and memory. It keeps the state faithful when
there is no other copy to go stale (`CacheState.SoleCopy`), and then changes memory in the
addressed word only (`Faithful.writeStep`), so that along runs of such writes the caches cannot
be told apart from a flat memory.

Other copies do arise. A promotion from L2 can leave a hole in the middle of its set, and the
lookup never sees past a hole; and a line fetched through the instruction cache stays there
while the data cache writes it. The two runs below end in such a state.
-/

namespace MemoryHierarchy

open Lib Function

/-! ### The copies a write does not see -/

/-- Every L2 way that holds the line is the one the operation finds: none while L1 holds it. -/
def CacheState.SoleDataCopy (s : CacheState) (phyAddr : BitVec 32) : Prop :=
  ∀ u, Holds s.l2Cache (lineOf phyAddr) (extractLineIndex .l2Cache phyAddr) u →
    lookup s.l1Dcache phyAddr = none ∧ lookup s.l2Cache phyAddr = some u

/-- The instruction cache does not hold the line either. -/
def CacheState.SoleCopy (s : CacheState) (phyAddr : BitVec 32) : Prop :=
  (∀ w, ¬ Holds s.l1Icache (lineOf phyAddr) (extractLineIndex .l1Icache phyAddr) w) ∧
    s.SoleDataCopy phyAddr

/-- The operation writes only what memory already holds. -/
def CacheState.WritesNothingNew (s : CacheState) (op : CacheOp) : Prop :=
  ∀ w ∈ op.writes, memBytes s.memSpace w.1 = w.2

instance (s : CacheState) (phyAddr : BitVec 32) : Decidable (s.SoleDataCopy phyAddr) := by
  unfold CacheState.SoleDataCopy
  infer_instance

instance (s : CacheState) (phyAddr : BitVec 32) : Decidable (s.SoleCopy phyAddr) :=
  inferInstanceAs (Decidable (_ ∧ _))

instance (s : CacheState) (op : CacheOp) : Decidable (s.WritesNothingNew op) := by
  unfold CacheState.WritesNothingNew
  infer_instance

theorem CacheState.SoleDataCopy.found {s : CacheState} {phyAddr : BitVec 32}
    (h : s.SoleDataCopy phyAddr) {j : Fin Geometry.l2Cache.lines} {u : Fin Geometry.l2Cache.ways}
    (hu : Holds s.l2Cache (lineOf phyAddr) j u) :
    j = extractLineIndex .l2Cache phyAddr ∧ lookup s.l1Dcache phyAddr = none ∧
      lookup s.l2Cache phyAddr = some u := by
  obtain rfl := (holds_lineOf_iff.mp hu).1
  exact ⟨rfl, h u hu⟩

/-- After an access at a sole copy L2 does not hold the line. -/
theorem l2_access_of_soleDataCopy {s : CacheState} (hs : s.L1Sound) {phyAddr : BitVec 32}
    (h : s.SoleDataCopy phyAddr) (line : Line) :
    AllHeld (fun n _ => n ≠ lineOf phyAddr) (access s.l1Dcache s.l2Cache phyAddr line).2 := by
  obtain ⟨history, hl1⟩ := hs .data
  change L1Ordered s.l1Dcache history at hl1
  rw [access]
  cases h1 : lookup s.l1Dcache phyAddr with
  | some w =>
    rintro ⟨j, u⟩ n line' hheld rfl
    obtain ⟨-, hmiss, -⟩ := h.found (held_eq_some_iff.mp hheld).1
    rw [h1] at hmiss
    cases hmiss
  | none =>
    -- the victim is another line, since L1 does not hold this one
    have hall1 : AllHeld (fun n _ => n ≠ lineOf phyAddr) s.l1Dcache := by
      rintro ⟨i, w⟩ n line' hheld rfl
      exact hl1.lookup_eq_none_iff.mp h1 i w (held_eq_some_iff.mp hheld).1
    cases h2 : lookup s.l2Cache phyAddr with
    | some u =>
      refine hall1.spill ?_ _
      rintro ⟨j, u'⟩ n line' hheld rfl
      rw [held_drop, update_apply] at hheld
      split_ifs at hheld with hloc
      obtain ⟨hj, -, hu'⟩ := h.found (held_eq_some_iff.mp hheld).1
      rw [h2] at hu'
      exact hloc (by rw [hj, Option.some_inj.mp hu'])
    | none =>
      refine hall1.spill ?_ _
      rintro ⟨j, u⟩ n line' hheld rfl
      obtain ⟨-, -, hu⟩ := h.found (held_eq_some_iff.mp hheld).1
      rw [h2] at hu
      cases hu

/-! ### One write -/

/-- The line a write stores, from a faithful state, is the line of the memory it leaves. -/
protected theorem CacheState.Faithful.written {s : CacheState} (h : s.Faithful)
    (phyAddr : BitVec 32) (word : Word) :
    s.written phyAddr word =
      memLine (update s.memSpace (wordOf phyAddr) word) (lineOf phyAddr) := by
  rw [CacheState.written, h.served, memLine_update, if_pos rfl]

/-- **A write changes the addressed word of memory only.** -/
theorem CacheState.Faithful.memSpace_writeStep {s : CacheState} (h : s.Faithful)
    (phyAddr : BitVec 32) (word : Word) :
    (writeStep s phyAddr word).memSpace = update s.memSpace (wordOf phyAddr) word := by
  rw [writeStep, CacheState.written, h.served, writeMemory_update]

/-- A faithful copy agrees with the memory a write leaves, unless it is a copy of the written
line and the write changes it. -/
private theorem mirrors_update {g : Geometry} {mem : Mem} {cache : Cache g}
    (h : FaithfulTo mem cache) {phyAddr : BitVec 32} {word : Word}
    {loc : Fin g.lines × Fin g.ways} {n : ℕ} {line : Line} (hheld : held cache loc = some (n, line))
    (hn : mem (wordOf phyAddr) = word ∨ n ≠ lineOf phyAddr) :
    line = memLine (update mem (wordOf phyAddr) word) n := by
  rw [faithfulTo_iff.mp h loc n line hheld]
  rcases hn with hsame | hne
  · rw [← hsame, update_eq_self]
  · rw [memLine_update, if_neg hne]

/-- **A write to a sole copy keeps the state faithful**, and so does one that changes nothing. -/
protected theorem CacheState.Faithful.writeStep {s : CacheState} (h : s.Faithful) (hs : s.L1Sound)
    {phyAddr : BitVec 32} {word : Word}
    (hw : s.memSpace (wordOf phyAddr) = word ∨ s.SoleCopy phyAddr) :
    (writeStep s phyAddr word).Faithful := by
  obtain ⟨history, hl1⟩ := hs .data
  change L1Ordered s.l1Dcache history at hl1
  have haccess : AllHeld (fun n line => line = memLine (update s.memSpace (wordOf phyAddr) word) n)
        (access s.l1Dcache s.l2Cache phyAddr (s.written phyAddr word)).1 ∧
      AllHeld (fun n line => line = memLine (update s.memSpace (wordOf phyAddr) word) n)
        (access s.l1Dcache s.l2Cache phyAddr (s.written phyAddr word)).2 := by
    refine access_allHeld (fun i w n line' hnot hheld => ?_) (fun j u n line' hnot hheld => ?_)
      (h.written phyAddr word)
    · refine mirrors_update (h.l1 .data) hheld (hw.imp_right fun _ => ?_)
      rintro rfl
      have hw := (held_eq_some_iff.mp hheld).1
      obtain rfl := (holds_lineOf_iff.mp hw).1
      exact hnot (hl1.lookup_eq_some_iff.mpr hw) rfl
    · refine mirrors_update h.l2 hheld (hw.imp_right fun hsole => ?_)
      rintro rfl
      obtain ⟨hj, hmiss, hu⟩ := hsole.2.found (held_eq_some_iff.mp hheld).1
      exact hnot hmiss hu hj
  have hmem := h.memSpace_writeStep phyAddr word
  refine ⟨fun access => ?_, ?_⟩
  · rw [hmem, faithfulTo_iff]
    cases access with
    | instruction =>
      rintro ⟨i, w⟩ n line' hheld
      refine mirrors_update (h.l1 .instruction) hheld (hw.imp_right fun hsole => ?_)
      rintro rfl
      have hw := (held_eq_some_iff.mp hheld).1
      obtain rfl := (holds_lineOf_iff.mp hw).1
      exact hsole.1 w hw
    | data => exact haccess.1
  · rw [hmem, faithfulTo_iff]
    exact haccess.2

/-! ### One command -/

/-- The step condition: the operation writes nothing new, or its line has no copy besides the
one it finds. -/
def CacheState.WritesSoleCopy (s : CacheState) (op : CacheOp) : Prop :=
  s.WritesNothingNew op ∨ s.SoleCopy (phyToInt op.target)

/-- Reading the line first leaves it in the data cache alone. -/
protected theorem CacheState.SoleCopy.readStep {s : CacheState} (hs : s.L1Sound)
    {phyAddr : BitVec 32} (h : s.SoleCopy phyAddr) :
    (readStep s .data phyAddr).SoleCopy phyAddr := by
  refine ⟨h.1, fun u hu => ?_⟩
  exact absurd rfl (l2_access_of_soleDataCopy hs h.2 (s.served .data phyAddr) _ _ _ hu.held)

/-- A write step that changes the bytes of memory as the operation says. -/
private theorem writeStep_bytes {s : CacheState} (h : s.Faithful) (hs : s.L1Sound)
    {phyAddr : BitVec 32} {word : Word} {op : CacheOp}
    (hbytes : memBytes (update s.memSpace (wordOf phyAddr) word) =
      applyWrites (memBytes s.memSpace) op.writes)
    (hop : s.WritesNothingNew op ∨ s.SoleCopy phyAddr) :
    (writeStep s phyAddr word).Faithful ∧
      memBytes (writeStep s phyAddr word).memSpace =
        applyWrites (memBytes s.memSpace) op.writes := by
  refine ⟨h.writeStep hs (hop.imp_left fun hsame => ?_), ?_⟩
  · rw [applyWrites_eq_self hsame, memBytes_inj] at hbytes
    rw [← hbytes, update_self]
  · rw [h.memSpace_writeStep, hbytes]

/-- **One command** meeting the condition acts on memory as on a flat memory. -/
protected theorem CacheState.Faithful.stepCommand {s : CacheState} (h : s.Faithful) (hs : s.L1Sound)
    {op : CacheOp} (hop : s.WritesSoleCopy op) :
    (stepCommand s op).Faithful ∧
      memBytes (stepCommand s op).memSpace = applyWrites (memBytes s.memSpace) op.writes := by
  by_cases ha : op.Aligned
  · cases op with
    | read access paddr =>
      rw [stepCommand, executeCommand_read ha]
      exact ⟨h.readStep _ _, congrArg memBytes (memSpace_readStep _ _ _)⟩
    | readByte access paddr =>
      rw [stepCommand, executeCommand_readByte]
      exact ⟨h.readStep _ _, congrArg memBytes (memSpace_readStep _ _ _)⟩
    | write paddr word =>
      have haddr : (phyToInt paddr).toNat % 4 = 0 := (pageOffset_mod_four paddr).symm.trans ha
      rw [stepCommand, executeCommand_write ha]
      refine writeStep_bytes h hs ?_ hop
      rw [CacheOp.writes, if_pos ha, wordOf, memBytes_update_word _ haddr, CacheOp.addr]
    | writeByte paddr byte =>
      rw [stepCommand, executeCommand_writeByte]
      have hmem := memSpace_readStep s .data (phyToInt (wordAligned paddr))
      have hnew : (readStep s .data (phyToInt (wordAligned paddr))).WritesNothingNew
          (.writeByte paddr byte) ∨
            (readStep s .data (phyToInt (wordAligned paddr))).SoleCopy
              (phyToInt (wordAligned paddr)) := by
        refine hop.imp (fun hsame => ?_) fun hsole => hsole.readStep hs
        simpa only [CacheState.WritesNothingNew, hmem] using hsame
      have hbytes : memBytes (update (readStep s .data (phyToInt (wordAligned paddr))).memSpace
            (wordOf (phyToInt (wordAligned paddr))) (s.byteWritten paddr byte)) =
          applyWrites (memBytes (readStep s .data (phyToInt (wordAligned paddr))).memSpace)
            (CacheOp.writeByte paddr byte).writes := by
        rw [hmem, CacheState.byteWritten, h.served, memLine_lineOf, wordOf_wordAligned,
          pageOffset_mod_four, memBytes_update_byte]
        rfl
      have hstep := writeStep_bytes (h.readStep .data (phyToInt (wordAligned paddr)))
        (hs.readStep .data (phyToInt (wordAligned paddr))) hbytes hnew
      rwa [hmem] at hstep
  · rw [stepCommand, executeCommand_unaligned ha]
    refine ⟨h, ?_⟩
    cases op with
    | read access paddr => rfl
    | readByte access paddr => rfl
    | write paddr word => rw [CacheOp.writes, if_neg ha, applyWrites_nil]
    | writeByte paddr byte => exact absurd (wordAligned_aligned paddr) ha

/-! ### Runs -/

/-- **Runs whose writes find the only copy** leave the memory a flat memory would have, and
every cached copy in agreement with it. -/
theorem runCommands_flat {memSpace : Mem} {ops : List CacheOp}
    (h : StepsMeet stepCommand CacheState.WritesSoleCopy (flushed memSpace) ops) :
    (runCommands (flushed memSpace) ops).Faithful ∧
      memBytes (runCommands (flushed memSpace) ops).memSpace = flatMemory memSpace ops := by
  have hrun := run_invariant (I := fun ops (s : CacheState) =>
      s.L1Sound ∧ s.Faithful ∧ memBytes s.memSpace = flatMemory memSpace ops)
    ⟨l1Sound_flushed memSpace, faithful_flushed memSpace, rfl⟩ (fun ops op s hs hop => ?_) h
  · exact hrun.2
  · obtain ⟨hsound, hfaithful, hmem⟩ := hs
    obtain ⟨hfaithful', hmem'⟩ := hfaithful.stepCommand hsound hop
    refine ⟨l1Sound_stepCommand hsound op, hfaithful', ?_⟩
    rw [hmem', hmem, flatMemory_concat]

end MemoryHierarchy
