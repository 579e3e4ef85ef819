import MemoryHierarchy.Cache.Contents
import MemoryHierarchy.Lib.Run

/-!
# The cache system, step by step

A command is at most two *accesses*: a read step stores the served line back, a write step
stores the served line with one word replaced and writes it through to memory; a byte write is
a read step followed by a write step at the same word. `executeCommand_*` reduce the commands
to these two steps, whatever the state, so an invariant need only be checked on them
(`stepCommand_invariant`).
-/

namespace MemoryHierarchy

open Lib Function

/-- The L1 cache an access goes through. -/
def CacheState.l1 (s : CacheState) : MemAccess → Cache .l1Icache
  | .instruction => s.l1Icache
  | .data => s.l1Dcache

/-- The state with the L1 cache of an access, and L2, replaced. -/
def CacheState.setCaches (s : CacheState) (access : MemAccess)
    (caches : Cache .l1Icache × Cache .l2Cache) : CacheState :=
  match access with
  | .instruction => { s with l1Icache := caches.1, l2Cache := caches.2 }
  | .data => { s with l1Dcache := caches.1, l2Cache := caches.2 }

section SetCaches

variable (s : CacheState) (access : MemAccess) (caches : Cache .l1Icache × Cache .l2Cache)

@[simp]
theorem setCaches_memSpace : (s.setCaches access caches).memSpace = s.memSpace := by
  cases access <;> rfl

@[simp]
theorem setCaches_l2Cache : (s.setCaches access caches).l2Cache = caches.2 := by
  cases access <;> rfl

@[simp]
theorem setCaches_l1_self : (s.setCaches access caches).l1 access = caches.1 := by
  cases access <;> rfl

/-- The other L1 cache is left alone. -/
theorem setCaches_l1_of_ne {access' : MemAccess} (h : access' ≠ access) :
    (s.setCaches access caches).l1 access' = s.l1 access' := by
  cases access <;> cases access' <;> first | rfl | exact absurd rfl h

end SetCaches

/-- The copy an operation works on. -/
def CacheState.served (s : CacheState) (access : MemAccess) (phyAddr : BitVec 32) : Line :=
  servedLine s.memSpace (s.l1 access) s.l2Cache phyAddr

/-- The line a write of `word` stores. -/
def CacheState.written (s : CacheState) (phyAddr : BitVec 32) (word : Word) : Line :=
  update (s.served .data phyAddr) (extractWordIndex phyAddr) word

/-- A read access: the served line goes where an access puts it. -/
def readStep (s : CacheState) (access : MemAccess) (phyAddr : BitVec 32) : CacheState :=
  s.setCaches access
    (MemoryHierarchy.access (s.l1 access) s.l2Cache phyAddr (s.served access phyAddr))

/-- A write access: the updated line goes there, and to memory. -/
def writeStep (s : CacheState) (phyAddr : BitVec 32) (word : Word) : CacheState :=
  { s.setCaches .data (access s.l1Dcache s.l2Cache phyAddr (s.written phyAddr word)) with
    memSpace := writeMemory s.memSpace phyAddr (s.written phyAddr word) }

/-! ### Commands -/

/-- The word-aligned address a command accesses. -/
def CacheOp.target : CacheOp → PhyAddr
  | .read _ paddr => paddr
  | .readByte _ paddr => wordAligned paddr
  | .write paddr _ => paddr
  | .writeByte paddr _ => wordAligned paddr

/-- The L1 cache a command goes through. -/
def CacheOp.access : CacheOp → MemAccess
  | .read access _ => access
  | .readByte access _ => access
  | .write _ _ => .data
  | .writeByte _ _ => .data

/-- The alignment the word operations require; byte operations align by themselves. -/
def CacheOp.Aligned (op : CacheOp) : Prop := op.target.pageOffset.toNat % 4 = 0

instance (op : CacheOp) : Decidable op.Aligned := inferInstanceAs (Decidable (_ = 0))

theorem executeCommand_read {s : CacheState} {access : MemAccess} {paddr : PhyAddr}
    (h : (CacheOp.read access paddr).Aligned) :
    executeCommand s (.read access paddr) =
      (readStep s access (phyToInt paddr),
        ⟨.errNone, some (s.served access (phyToInt paddr) (extractWordIndex (phyToInt paddr))),
          none⟩) := by
  change paddr.pageOffset.toNat % 4 = 0 at h
  cases access <;> simp only [executeCommand, cacheRead_eq h] <;> rfl

theorem executeCommand_readByte (s : CacheState) (access : MemAccess) (paddr : PhyAddr) :
    executeCommand s (.readByte access paddr) =
      (readStep s access (phyToInt (wordAligned paddr)),
        ⟨.errNone, none,
          some (byteAt (s.served access (phyToInt (wordAligned paddr))
            (extractWordIndex (phyToInt (wordAligned paddr))))
              (paddr.pageOffset.toNat % 4))⟩) := by
  cases access <;> simp only [executeCommand, cacheReadByte_eq] <;> rfl

theorem executeCommand_write {s : CacheState} {paddr : PhyAddr} {word : Word}
    (h : (CacheOp.write paddr word).Aligned) :
    executeCommand s (.write paddr word) =
      (writeStep s (phyToInt paddr) word, ⟨.errNone, none, none⟩) := by
  change paddr.pageOffset.toNat % 4 = 0 at h
  simp only [executeCommand, cacheWrite_eq h]
  rfl

/-- The word a byte write stores: the one read, with the byte set. -/
def CacheState.byteWritten (s : CacheState) (paddr : PhyAddr) (byte : Byte) : Word :=
  withByte (s.served .data (phyToInt (wordAligned paddr))
    (extractWordIndex (phyToInt (wordAligned paddr)))) (paddr.pageOffset.toNat % 4) byte

theorem executeCommand_writeByte (s : CacheState) (paddr : PhyAddr) (byte : Byte) :
    executeCommand s (.writeByte paddr byte) =
      (writeStep (readStep s .data (phyToInt (wordAligned paddr)))
          (phyToInt (wordAligned paddr)) (s.byteWritten paddr byte),
        ⟨.errNone, none, none⟩) := by
  have haligned := wordAligned_aligned paddr
  simp only [executeCommand, cacheWriteByte, cacheRead_eq haligned, cacheWrite_eq haligned, ne_eq,
    not_true_eq_false, if_false, Option.getD_some]
  rfl

/-- The line the first access of a command stores. -/
def CacheState.stored (s : CacheState) : CacheOp → Line
  | .read access paddr => s.served access (phyToInt paddr)
  | .readByte access paddr => s.served access (phyToInt (wordAligned paddr))
  | .write paddr word => s.written (phyToInt paddr) word
  | .writeByte paddr _ => s.served .data (phyToInt (wordAligned paddr))

/-- An unaligned command is refused and changes nothing. -/
theorem executeCommand_unaligned {s : CacheState} {op : CacheOp} (h : ¬ op.Aligned) :
    executeCommand s op = (s, ⟨.errBadParameter, none, none⟩) := by
  cases op with
  | read access paddr =>
    change ¬ paddr.pageOffset.toNat % 4 = 0 at h
    cases access <;> simp only [executeCommand, cacheRead_unaligned h]
  | readByte access paddr => exact absurd (wordAligned_aligned paddr) h
  | write paddr word =>
    change ¬ paddr.pageOffset.toNat % 4 = 0 at h
    simp only [executeCommand, cacheWrite_unaligned h]
  | writeByte paddr byte => exact absurd (wordAligned_aligned paddr) h

/-- Every aligned command succeeds, from any state. -/
theorem executeCommand_err {s : CacheState} {op : CacheOp} (h : op.Aligned) :
    (executeCommand s op).2.err = .errNone := by
  cases op with
  | read access paddr => rw [executeCommand_read h]
  | readByte access paddr => rw [executeCommand_readByte]
  | write paddr word => rw [executeCommand_write h]
  | writeByte paddr byte => rw [executeCommand_writeByte]

/-- A command leaves the other L1 cache alone. -/
theorem stepCommand_l1_of_ne (s : CacheState) {op : CacheOp} {access : MemAccess}
    (h : access ≠ op.access) : (stepCommand s op).l1 access = s.l1 access := by
  by_cases ha : op.Aligned
  · cases op with
    | read access' paddr =>
      rw [stepCommand, executeCommand_read ha]
      exact setCaches_l1_of_ne _ _ _ h
    | readByte access' paddr =>
      rw [stepCommand, executeCommand_readByte]
      exact setCaches_l1_of_ne _ _ _ h
    | write paddr word =>
      cases access with
      | instruction => rw [stepCommand, executeCommand_write ha]; rfl
      | data => exact absurd rfl h
    | writeByte paddr byte =>
      cases access with
      | instruction => rw [stepCommand, executeCommand_writeByte]; rfl
      | data => exact absurd rfl h
  · rw [stepCommand, executeCommand_unaligned ha]

/-- A property of states kept by every access is kept by every command. -/
theorem stepCommand_invariant {I : CacheState → Prop}
    (hread : ∀ s access phyAddr, I s → I (readStep s access phyAddr))
    (hwrite : ∀ s phyAddr word, I s → I (writeStep s phyAddr word)) {s : CacheState}
    (h : I s) (op : CacheOp) : I (stepCommand s op) := by
  by_cases ha : op.Aligned
  · cases op with
    | read access paddr => rw [stepCommand, executeCommand_read ha]; exact hread _ _ _ h
    | readByte access paddr => rw [stepCommand, executeCommand_readByte]; exact hread _ _ _ h
    | write paddr word => rw [stepCommand, executeCommand_write ha]; exact hwrite _ _ _ h
    | writeByte paddr byte =>
      rw [stepCommand, executeCommand_writeByte]
      exact hwrite _ _ _ (hread _ _ _ h)
  · rw [stepCommand, executeCommand_unaligned ha]
    exact h

theorem runCommands_concat (s : CacheState) (ops : List CacheOp) (op : CacheOp) :
    runCommands s (ops ++ [op]) = stepCommand (runCommands s ops) op := by
  rw [runCommands, List.foldl_append]
  rfl

end MemoryHierarchy
