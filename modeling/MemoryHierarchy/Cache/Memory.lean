import MemoryHierarchy.Cache.System
import MemoryHierarchy.Lib.FlatMemory

/-!
# The memory the operations are about

What a program sees without caches: a flat memory of bytes, four to a word in little-endian
order. `CacheOp.writes` is the log one operation adds and `CacheOp.answer` the reply it gets
from a flat memory; the caches are correct when they cannot be told apart from it.

The address arithmetic is here too: a line of memory is four words, and writing back a line
that differs from memory in one word changes that word only (`writeMemory_update`).
-/

namespace MemoryHierarchy

open Lib Function

/-! ### Words and lines -/

/-- The `n`-th line of memory. -/
def memLine (mem : Mem) (n : ℕ) : Line := fun k => mem (4 * n + k)

/-- The index of the word an address lies in. -/
def wordOf (phyAddr : BitVec 32) : ℕ := phyAddr.toNat / 4

theorem computeAddrLineAligned_eq (phyAddr : BitVec 32) :
    computeAddrLineAligned phyAddr = 4 * lineOf phyAddr := by
  simp only [computeAddrLineAligned, lineOf, wordsPerLine]
  omega

theorem wordOf_eq (phyAddr : BitVec 32) :
    wordOf phyAddr = 4 * lineOf phyAddr + extractWordIndex phyAddr := by
  simp only [wordOf, lineOf, extractWordIndex, wordsPerLine]
  omega

theorem readMemory_eq (mem : Mem) (phyAddr : BitVec 32) :
    readMemory mem phyAddr = memLine mem (lineOf phyAddr) := by
  funext k
  rw [readMemory, computeAddrLineAligned_eq, memLine]

/-- The word of the line at an address is the word of memory. -/
theorem memLine_lineOf (mem : Mem) (phyAddr : BitVec 32) :
    memLine mem (lineOf phyAddr) (extractWordIndex phyAddr) = mem (wordOf phyAddr) := by
  rw [memLine, wordOf_eq]

/-- Writing back a line of memory with one word replaced replaces that word. -/
theorem writeMemory_update (mem : Mem) (phyAddr : BitVec 32) (word : Word) :
    writeMemory mem phyAddr
        (update (memLine mem (lineOf phyAddr)) (extractWordIndex phyAddr) word) =
      update mem (wordOf phyAddr) word := by
  have hword := wordOf_eq phyAddr
  have hindex : (extractWordIndex phyAddr).val < 4 := (extractWordIndex phyAddr).isLt
  funext i
  simp only [writeMemory, computeAddrLineAligned_eq]
  by_cases hi : 4 * lineOf phyAddr ≤ i ∧ i < 4 * lineOf phyAddr + wordsPerLine
  · rw [dif_pos hi]
    obtain ⟨k, rfl⟩ := Nat.exists_eq_add_of_le hi.1
    have hk : k < 4 := Nat.lt_of_add_lt_add_left hi.2
    have hfin : (⟨4 * lineOf phyAddr + k - 4 * lineOf phyAddr, by omega⟩ : Fin wordsPerLine) =
        ⟨k, hk⟩ := Fin.ext (Nat.add_sub_cancel_left _ _)
    rw [hfin, update_apply, update_apply]
    by_cases hki : (⟨k, hk⟩ : Fin wordsPerLine) = extractWordIndex phyAddr
    · rw [if_pos hki, if_pos (by rw [hword, ← hki])]
    · rw [if_neg hki, if_neg, memLine]
      exact fun h => hki (Fin.ext (Nat.add_left_cancel (h.trans hword)))
  · rw [dif_neg hi, update_of_ne]
    change ¬ (_ ≤ i ∧ i < 4 * lineOf phyAddr + 4) at hi
    omega

/-- Writing back a line changes that line of memory only. -/
theorem memLine_writeMemory (mem : Mem) (phyAddr : BitVec 32) (line : Line) (n : ℕ) :
    memLine (writeMemory mem phyAddr line) n =
      if n = lineOf phyAddr then line else memLine mem n := by
  funext k
  have hk : k.val < 4 := k.isLt
  simp only [memLine, writeMemory, computeAddrLineAligned_eq]
  by_cases hn : n = lineOf phyAddr
  · subst hn
    rw [if_pos rfl, dif_pos ⟨by omega, by change _ < _ + 4; omega⟩]
    congr 1
    exact Fin.ext (Nat.add_sub_cancel_left _ _)
  · have hout : ¬ (4 * lineOf phyAddr ≤ 4 * n + k.val ∧
        4 * n + k.val < 4 * lineOf phyAddr + wordsPerLine) := by
      change ¬ (_ ∧ _ < _ + 4)
      omega
    rw [if_neg hn, dif_neg hout, memLine]

/-- A line is changed by a write to one of its words, and is else unchanged. -/
theorem memLine_update (mem : Mem) (phyAddr : BitVec 32) (word : Word) (n : ℕ) :
    memLine (update mem (wordOf phyAddr) word) n =
      if n = lineOf phyAddr then update (memLine mem n) (extractWordIndex phyAddr) word
      else memLine mem n := by
  rw [← writeMemory_update, memLine_writeMemory]
  by_cases hn : n = lineOf phyAddr
  · rw [if_pos hn, if_pos hn, hn]
  · rw [if_neg hn, if_neg hn]

/-! ### Bytes -/

/-- The bytes of a memory. -/
def memBytes (mem : Mem) : ℕ → Byte := fun a => byteAt (mem (a / 4)) (a % 4)

/-- A memory is determined by its bytes. -/
theorem memBytes_inj {mem mem' : Mem} : memBytes mem = memBytes mem' ↔ mem = mem' := by
  refine ⟨fun h => funext fun i => eq_of_byteAt_eq (k := 4) rfl fun j hj => ?_,
    fun h => by rw [h]⟩
  have hb := congrFun h (4 * i + j)
  simp only [memBytes] at hb
  rwa [show (4 * i + j) / 4 = i by omega, show (4 * i + j) % 4 = j by omega] at hb

/-- The four bytes of an aligned word. -/
theorem ofBytes_memBytes (mem : Mem) {a : ℕ} (ha : a % 4 = 0) :
    (ofBytes fun i => memBytes mem (a + i)) = mem (a / 4) := by
  rw [← ofBytes_byteAt (mem (a / 4))]
  simp only [ofBytes, memBytes, show (a + 3) / 4 = a / 4 by omega,
    show (a + 2) / 4 = a / 4 by omega, show (a + 1) / 4 = a / 4 by omega,
    show (a + 3) % 4 = 3 by omega, show (a + 2) % 4 = 2 by omega, show (a + 1) % 4 = 1 by omega,
    Nat.add_zero, ha]

/-- The four byte writes a word write stands for. -/
def wordWrites (a : ℕ) (word : Word) : List (ℕ × Byte) :=
  (List.range 4).map fun i => (a + i, byteAt word i)

theorem memBytes_update_word (mem : Mem) {a : ℕ} (ha : a % 4 = 0) (word : Word) :
    memBytes (update mem (a / 4) word) = applyWrites (memBytes mem) (wordWrites a word) := by
  funext b
  simp only [wordWrites, List.range_succ, List.range_zero, List.nil_append,
    List.map_cons, List.map_nil, List.cons_append, applyWrites_cons, applyWrites_nil]
  by_cases hb : b / 4 = a / 4
  · have hmem : memBytes (update mem (a / 4) word) b = byteAt word (b % 4) := by
      rw [memBytes, hb, update_self]
    -- inside the word, the last of the four writes that hits is the only one
    have hcases : b = a ∨ b = a + 1 ∨ b = a + 2 ∨ b = a + 3 := by omega
    rw [hmem]
    rcases hcases with rfl | rfl | rfl | rfl
    · rw [update_of_ne (by omega), update_of_ne (by omega), update_of_ne (by omega),
        Nat.add_zero, update_self, ha]
    · rw [update_of_ne (by omega), update_of_ne (by omega), update_self,
        show (a + 1) % 4 = 1 by omega]
    · rw [update_of_ne (by omega), update_self, show (a + 2) % 4 = 2 by omega]
    · rw [update_self, show (a + 3) % 4 = 3 by omega]
  · rw [update_of_ne (by omega), update_of_ne (by omega), update_of_ne (by omega),
      update_of_ne (by omega), memBytes, memBytes, update_of_ne hb]

theorem memBytes_update_byte (mem : Mem) (a : ℕ) (byte : Byte) :
    memBytes (update mem (a / 4) (withByte (mem (a / 4)) (a % 4) byte)) =
      update (memBytes mem) a byte := by
  funext b
  by_cases hb : b = a
  · subst hb
    rw [update_self, memBytes, update_self, byteAt_withByte_self _ _ (by omega)]
  · rw [update_of_ne hb, memBytes, memBytes]
    by_cases hword : b / 4 = a / 4
    · rw [hword, update_self, byteAt_withByte_of_ne _ _ (by omega)]
    · rw [update_of_ne hword]

/-! ### Addresses of operations -/

theorem toNat_phyToInt (paddr : PhyAddr) :
    (phyToInt paddr).toNat = paddr.phyPageNum.toNat * 4096 + paddr.pageOffset.toNat :=
  toNat_frame_or_offset paddr

/-- The byte address of an operation. -/
def CacheOp.addr : CacheOp → ℕ
  | .read _ paddr => (phyToInt paddr).toNat
  | .readByte _ paddr => (phyToInt paddr).toNat
  | .write paddr _ => (phyToInt paddr).toNat
  | .writeByte paddr _ => (phyToInt paddr).toNat

theorem toNat_wordAligned (paddr : PhyAddr) :
    (phyToInt (wordAligned paddr)).toNat =
      (phyToInt paddr).toNat - (phyToInt paddr).toNat % 4 := by
  have hoff := paddr.pageOffset.isLt
  have hsub : (wordAligned paddr).pageOffset.toNat =
      paddr.pageOffset.toNat - paddr.pageOffset.toNat % 4 := by
    simp only [wordAligned, BitVec.toNat_sub, BitVec.toNat_ofNat]
    omega
  rw [toNat_phyToInt, toNat_phyToInt, hsub]
  simp only [wordAligned]
  omega

/-- The word a byte operation goes through is the one its byte lies in. -/
theorem wordOf_wordAligned (paddr : PhyAddr) :
    wordOf (phyToInt (wordAligned paddr)) = (phyToInt paddr).toNat / 4 := by
  rw [wordOf, toNat_wordAligned]
  omega

theorem pageOffset_mod_four (paddr : PhyAddr) :
    paddr.pageOffset.toNat % 4 = (phyToInt paddr).toNat % 4 := by
  rw [toNat_phyToInt]
  omega

/-! ### The flat memory behind the operations -/

/-- The bytes an operation writes; a refused operation writes none. -/
def CacheOp.writes (op : CacheOp) : List (ℕ × Byte) :=
  match op with
  | .read _ _ => []
  | .readByte _ _ => []
  | .write _ word => if op.Aligned then wordWrites op.addr word else []
  | .writeByte _ byte => [(op.addr, byte)]

/-- The reply bytes give by themselves: an aligned word, a byte, or just success. -/
def CacheOp.answer (op : CacheOp) (bytes : ℕ → Byte) : Reply :=
  match op with
  | .read _ _ =>
    if op.Aligned then ⟨.errNone, some (ofBytes fun i => bytes (op.addr + i)), none⟩
    else ⟨.errBadParameter, none, none⟩
  | .readByte _ _ => ⟨.errNone, none, some (bytes op.addr)⟩
  | .write _ _ =>
    if op.Aligned then ⟨.errNone, none, none⟩ else ⟨.errBadParameter, none, none⟩
  | .writeByte _ _ => ⟨.errNone, none, none⟩

/-- The bytes of a flat memory after a sequence of operations. -/
def flatMemory (memSpace : Mem) (ops : List CacheOp) : ℕ → Byte :=
  applyWrites (memBytes memSpace) (ops.flatMap CacheOp.writes)

theorem flatMemory_concat (memSpace : Mem) (ops : List CacheOp) (op : CacheOp) :
    flatMemory memSpace (ops ++ [op]) = applyWrites (flatMemory memSpace ops) op.writes := by
  rw [flatMemory, List.flatMap_append, applyWrites_append, List.flatMap_singleton]
  rfl

/-- A flat memory holds the latest write to each byte, or what was there at first. -/
theorem flatMemory_apply (memSpace : Mem) (ops : List CacheOp) (a : ℕ) :
    flatMemory memSpace ops a =
      (latestWrite (ops.flatMap CacheOp.writes) a).getD (memBytes memSpace a) :=
  applyWrites_apply _ _ _

end MemoryHierarchy
