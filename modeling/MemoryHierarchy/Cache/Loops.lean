import MemoryHierarchy.Cache.CacheMng
import Mathlib.Tactic.Ring
import Mathlib.Tactic.Tauto

/-!
# What the loops over the ways compute

One specification for each `foreach_way` loop, read off once so that nothing later unfolds a
loop: the lookup finds the first match not hidden behind an invalid way, the search for a free
way finds the first invalid one, and eviction picks, among the valid ways of greatest age, the
last. Then the address arithmetic: a set index and a tag name exactly one line, and the address
rebuilt for an evicted entry lies in that line.
-/

namespace MemoryHierarchy

open Lib

variable {g : Geometry}

/-! ### Lookup -/

section Loops

variable {set : CacheSet g} {ways : List (Fin g.ways)} {way : Fin g.ways}

/-- The lookup loop stops at a way exactly when it is a valid match and every way before it is
valid and no match. -/
theorem cacheHitLoop_eq_some_iff {tag : BitVec 32} (hl : ways.Pairwise (· < ·)) :
    cacheHitLoop set tag ways = some way ↔
      way ∈ ways ∧ (set way).v = true ∧ (set way).tag.setWidth 32 = tag ∧
        ∀ w ∈ ways, w < way → (set w).v = true ∧ (set w).tag.setWidth 32 ≠ tag := by
  induction ways with
  | nil => simp [cacheHitLoop]
  | cons a ways ih =>
    obtain ⟨ha, hl⟩ := List.pairwise_cons.mp hl
    rw [cacheHitLoop]
    by_cases hv : (set a).v = true
    · by_cases ht : (set a).tag.setWidth 32 = tag
      · -- the loop returns `a`, the smallest of the ways
        rw [if_neg (by simp [hv]), if_pos ht]
        constructor
        · rintro ⟨⟩
          refine ⟨by simp, hv, ht, fun w hw hlt => ?_⟩
          rcases List.mem_cons.mp hw with rfl | hw
          · exact absurd hlt (lt_irrefl _)
          · exact absurd hlt (not_lt_of_gt (ha w hw))
        · rintro ⟨hw, -, -, hbefore⟩
          rcases List.mem_cons.mp hw with rfl | hw
          · rfl
          · exact absurd ht (hbefore a (by simp) (ha way hw)).2
      · rw [if_neg (by simp [hv]), if_neg ht, ih hl]
        constructor
        · rintro ⟨hw, h1, h2, hbefore⟩
          refine ⟨List.mem_cons_of_mem a hw, h1, h2, fun w hw' hlt => ?_⟩
          rcases List.mem_cons.mp hw' with rfl | hw'
          · exact ⟨hv, ht⟩
          · exact hbefore w hw' hlt
        · rintro ⟨hw, h1, h2, hbefore⟩
          rcases List.mem_cons.mp hw with rfl | hw
          · exact absurd h2 ht
          · exact ⟨hw, h1, h2, fun w hw' => hbefore w (List.mem_cons_of_mem a hw')⟩
    · -- the loop gives up at an invalid way
      rw [if_pos (by simp [hv])]
      constructor
      · rintro ⟨⟩
      · rintro ⟨hw, h1, -, hbefore⟩
        rcases List.mem_cons.mp hw with rfl | hw
        · exact absurd h1 hv
        · exact absurd (hbefore a (by simp) (ha way hw)).1 hv

/-- The lookup loop misses exactly when every valid match lies behind an invalid way. -/
theorem cacheHitLoop_eq_none_iff {tag : BitVec 32} (hl : ways.Pairwise (· < ·)) :
    cacheHitLoop set tag ways = none ↔
      ∀ w ∈ ways, (set w).v = true → (set w).tag.setWidth 32 = tag →
        ∃ u ∈ ways, u < w ∧ (set u).v = false := by
  induction ways with
  | nil => simp [cacheHitLoop]
  | cons a ways ih =>
    obtain ⟨ha, hl⟩ := List.pairwise_cons.mp hl
    rw [cacheHitLoop]
    by_cases hv : (set a).v = true
    · by_cases ht : (set a).tag.setWidth 32 = tag
      · rw [if_neg (by simp [hv]), if_pos ht]
        simp only [reduceCtorEq, false_iff, not_forall]
        refine ⟨a, by simp, hv, ht, ?_⟩
        rintro ⟨u, hu, hlt, -⟩
        rcases List.mem_cons.mp hu with rfl | hu
        · exact lt_irrefl _ hlt
        · exact not_lt_of_gt (ha u hu) hlt
      · rw [if_neg (by simp [hv]), if_neg ht, ih hl]
        constructor
        · intro h w hw hwv hwt
          rcases List.mem_cons.mp hw with rfl | hw
          · exact absurd hwt ht
          · obtain ⟨u, hu, h'⟩ := h w hw hwv hwt
            exact ⟨u, List.mem_cons_of_mem a hu, h'⟩
        · intro h w hw hwv hwt
          obtain ⟨u, hu, hlt, huv⟩ := h w (List.mem_cons_of_mem a hw) hwv hwt
          rcases List.mem_cons.mp hu with rfl | hu
          · simp [hv] at huv
          · exact ⟨u, hu, hlt, huv⟩
    · rw [if_pos (by simp [hv])]
      refine ⟨fun _ w hw hwv _ => ?_, fun _ => rfl⟩
      rcases List.mem_cons.mp hw with rfl | hw
      · exact absurd hwv hv
      · exact ⟨a, by simp, ha w hw, by simpa using hv⟩

/-! ### Free ways -/

theorem findEmptySlotLoop_eq_some_iff (hl : ways.Pairwise (· < ·)) :
    findEmptySlotLoop set ways = some way ↔
      way ∈ ways ∧ (set way).v = false ∧ ∀ w ∈ ways, w < way → (set w).v = true := by
  induction ways with
  | nil => simp [findEmptySlotLoop]
  | cons a ways ih =>
    obtain ⟨ha, hl⟩ := List.pairwise_cons.mp hl
    rw [findEmptySlotLoop]
    by_cases hv : (set a).v = true
    · rw [if_neg (by simp [hv]), ih hl]
      constructor
      · rintro ⟨hw, h1, hbefore⟩
        refine ⟨List.mem_cons_of_mem a hw, h1, fun w hw' hlt => ?_⟩
        rcases List.mem_cons.mp hw' with rfl | hw'
        · exact hv
        · exact hbefore w hw' hlt
      · rintro ⟨hw, h1, hbefore⟩
        rcases List.mem_cons.mp hw with rfl | hw
        · simp [hv] at h1
        · exact ⟨hw, h1, fun w hw' => hbefore w (List.mem_cons_of_mem a hw')⟩
    · rw [if_pos (by simp [hv])]
      constructor
      · rintro ⟨⟩
        refine ⟨by simp, by simpa using hv, fun w hw hlt => ?_⟩
        rcases List.mem_cons.mp hw with rfl | hw
        · exact absurd hlt (lt_irrefl _)
        · exact absurd hlt (not_lt_of_gt (ha w hw))
      · rintro ⟨hw, -, hbefore⟩
        rcases List.mem_cons.mp hw with rfl | hw
        · rfl
        · exact absurd (hbefore a (by simp) (ha way hw)) hv

theorem findEmptySlotLoop_eq_none_iff :
    findEmptySlotLoop set ways = none ↔ ∀ w ∈ ways, (set w).v = true := by
  induction ways with
  | nil => simp [findEmptySlotLoop]
  | cons a ways ih =>
    rw [findEmptySlotLoop]
    by_cases hv : (set a).v = true <;> simp [hv, ih]

/-! ### Eviction -/

variable (set) in
/-- The eviction loop, from any accumulator: either no way it visits reaches `maxAge` and the
accumulator is returned, or it returns the last way of greatest age. -/
private theorem evictLoop_cases (hl : ways.Pairwise (· < ·)) (maxAge : ℕ)
    (entryToEvict : Option (Fin g.ways)) :
    (evictLoop set ways maxAge entryToEvict = entryToEvict ∧
        ∀ w ∈ ways, (set w).v = true → (set w).age < maxAge) ∨
      ∃ w ∈ ways, evictLoop set ways maxAge entryToEvict = some w ∧ (set w).v = true ∧
        maxAge ≤ (set w).age ∧ (∀ u ∈ ways, (set u).v = true → (set u).age ≤ (set w).age) ∧
        ∀ u ∈ ways, (set u).v = true → w < u → (set u).age < (set w).age := by
  induction ways generalizing maxAge entryToEvict with
  | nil => exact .inl ⟨rfl, by simp⟩
  | cons a ways ih =>
    obtain ⟨ha, hl⟩ := List.pairwise_cons.mp hl
    rw [evictLoop]
    by_cases hc : (set a).v = true ∧ maxAge ≤ (set a).age
    · -- `a` becomes the candidate; an older one may follow
      rw [if_pos hc]
      rcases ih hl (set a).age (some a) with ⟨heq, hlt⟩ | ⟨w, hw, heq, hv, hge, hmax, hlast⟩
      · refine .inr ⟨a, by simp, heq, hc.1, hc.2, fun u hu huv => ?_, fun u hu huv hau => ?_⟩
        · rcases List.mem_cons.mp hu with rfl | hu
          · exact le_rfl
          · exact (hlt u hu huv).le
        · rcases List.mem_cons.mp hu with rfl | hu
          · exact absurd hau (lt_irrefl _)
          · exact hlt u hu huv
      · refine .inr ⟨w, List.mem_cons_of_mem a hw, heq, hv, hc.2.trans hge, fun u hu huv => ?_,
          fun u hu huv hwu => ?_⟩
        · rcases List.mem_cons.mp hu with rfl | hu
          · exact hge
          · exact hmax u hu huv
        · rcases List.mem_cons.mp hu with rfl | hu
          · exact absurd hwu (not_lt_of_gt (ha w hw))
          · exact hlast u hu huv hwu
    · -- `a` is passed over: it is invalid or younger than the candidate
      rw [if_neg hc]
      have hacc : (set a).v = true → (set a).age < maxAge := fun hv =>
        not_le.mp fun hle => hc ⟨hv, hle⟩
      rcases ih hl maxAge entryToEvict with ⟨heq, hlt⟩ | ⟨w, hw, heq, hv, hge, hmax, hlast⟩
      · refine .inl ⟨heq, fun u hu huv => ?_⟩
        rcases List.mem_cons.mp hu with rfl | hu
        · exact hacc huv
        · exact hlt u hu huv
      · refine .inr ⟨w, List.mem_cons_of_mem a hw, heq, hv, hge, fun u hu huv => ?_,
          fun u hu huv hwu => ?_⟩
        · rcases List.mem_cons.mp hu with rfl | hu
          · exact (hacc huv).le.trans hge
          · exact hmax u hu huv
        · rcases List.mem_cons.mp hu with rfl | hu
          · exact absurd hwu (not_lt_of_gt (ha w hw))
          · exact hlast u hu huv hwu

end Loops

/-! ### Lines and addresses -/

theorem lineNumber_inj {i i' : Fin g.lines} {t t' : BitVec g.tagBits} :
    lineNumber i t = lineNumber i' t' ↔ i = i' ∧ t = t' := by
  refine ⟨fun h => ?_, fun ⟨hi, ht⟩ => by rw [hi, ht]⟩
  have hmod := congrArg (· % g.lines) h
  have hdiv := congrArg (· / g.lines) h
  simp only [lineNumber, Nat.mul_add_mod_self_right, Nat.mod_eq_of_lt i.isLt,
    Nat.mod_eq_of_lt i'.isLt] at hmod
  simp only [lineNumber, Nat.add_comm _ i.val, Nat.add_comm _ i'.val,
    Nat.add_mul_div_right _ _ g.lines_pos, Nat.div_eq_of_lt i.isLt, Nat.div_eq_of_lt i'.isLt,
    Nat.zero_add] at hdiv
  exact ⟨Fin.ext hmod, BitVec.eq_of_toNat_eq hdiv⟩

theorem toNat_addrTag (phyAddr : BitVec 32) :
    (addrTag g phyAddr).toNat = phyAddr.toNat / 16 / g.lines := by
  have hlt : phyAddr.toNat / 2 ^ g.tagRemainingBits < 2 ^ g.tagBits := by
    rw [Nat.div_lt_iff_lt_mul (Nat.two_pow_pos _), ← Nat.pow_add, g.tagBits_add]
    exact phyAddr.isLt
  rw [addrTag, BitVec.toNat_setWidth, BitVec.toNat_ushiftRight, Nat.shiftRight_eq_div_pow,
    Nat.mod_eq_of_lt hlt, g.two_pow_tagRemainingBits, Nat.div_div_eq_div_mul]

/-- The entry an address is looked up as names the line of the address. -/
theorem lineNumber_addrTag (phyAddr : BitVec 32) :
    lineNumber (extractLineIndex g phyAddr) (addrTag g phyAddr) = lineOf phyAddr := by
  rw [lineNumber, toNat_addrTag]
  change phyAddr.toNat / 16 / g.lines * g.lines + phyAddr.toNat / 16 % g.lines = _
  rw [Nat.mul_comm, Nat.div_add_mod]
  rfl

theorem lineNumber_eq_lineOf_iff {i : Fin g.lines} {t : BitVec g.tagBits}
    {phyAddr : BitVec 32} :
    lineNumber i t = lineOf phyAddr ↔ i = extractLineIndex g phyAddr ∧ t = addrTag g phyAddr := by
  rw [← lineNumber_addrTag (g := g), lineNumber_inj]

/-- The address recomputed for an entry lies in the entry's line. -/
theorem lineOf_recomputeOldPhyAddr (tag : BitVec g.tagBits) (index : Fin g.lines) :
    lineOf (recomputeOldPhyAddr tag index) = lineNumber index tag := by
  have hpow := g.two_pow_tagRemainingBits
  have hindex : index.val * 2 ^ 4 < 2 ^ g.tagRemainingBits := by
    rw [hpow]
    have := index.isLt
    omega
  have htrb : 2 ^ g.tagRemainingBits ≤ 2 ^ 32 :=
    Nat.pow_le_pow_right (by decide) (by have := g.tagBits_add; omega)
  have hshift : (BitVec.ofNat 32 index.val <<< 4).toNat = index.val * 2 ^ 4 := by
    rw [BitVec.toNat_shiftLeft, BitVec.toNat_ofNat, Nat.shiftLeft_eq,
      Nat.mod_eq_of_lt (a := index.val) (by omega), Nat.mod_eq_of_lt (by omega)]
  rw [lineOf, recomputeOldPhyAddr, BitVec.toNat_or,
    toNat_setWidth_shiftLeft _ (by have := g.tagBits_add; omega), hshift,
    mul_two_pow_or_eq_add hindex, hpow, lineNumber]
  calc (tag.toNat * (16 * g.lines) + index.val * 2 ^ 4) / 16
      = (16 * (tag.toNat * g.lines + index.val)) / 16 := by ring_nf
    _ = tag.toNat * g.lines + index.val := Nat.mul_div_cancel_left _ (by decide)

/-- The tag comparison of the lookup loop, on the bit-field. -/
theorem setWidth_tag_eq_iff {t : BitVec g.tagBits} {phyAddr : BitVec 32} :
    t.setWidth 32 = phyAddr >>> g.tagRemainingBits ↔ t = addrTag g phyAddr := by
  have hadd := g.tagBits_add
  have ht : t.toNat < 2 ^ 32 :=
    lt_of_lt_of_le t.isLt (Nat.pow_le_pow_right (by decide) (by omega))
  have haddr : (addrTag g phyAddr).toNat = (phyAddr >>> g.tagRemainingBits).toNat := by
    rw [toNat_addrTag, BitVec.toNat_ushiftRight, Nat.shiftRight_eq_div_pow,
      g.two_pow_tagRemainingBits, Nat.div_div_eq_div_mul]
  constructor
  · intro h
    refine BitVec.eq_of_toNat_eq ?_
    rw [haddr, ← h, BitVec.toNat_setWidth, Nat.mod_eq_of_lt ht]
  · rintro rfl
    refine BitVec.eq_of_toNat_eq ?_
    rw [BitVec.toNat_setWidth, Nat.mod_eq_of_lt ht, haddr]

/-! ### The loops on a whole set -/

/-- The way `cache_hit` finds. -/
def lookup (cache : Cache g) (phyAddr : BitVec 32) : Option (Fin g.ways) :=
  cacheHitLoop (cache (extractLineIndex g phyAddr)) (phyAddr >>> g.tagRemainingBits)
    (List.finRange g.ways)

/-- The way `find_empty_slot` finds. -/
def emptyWay (set : CacheSet g) : Option (Fin g.ways) :=
  findEmptySlotLoop set (List.finRange g.ways)

/-- The way `evict` finds. -/
def victimWay (set : CacheSet g) : Option (Fin g.ways) :=
  evictLoop set (List.finRange g.ways) 0 none

/-- A way holds a line when it is valid and its tag, with the index of its set, rebuilds the
line's number. -/
def Holds (cache : Cache g) (n : ℕ) (i : Fin g.lines) (w : Fin g.ways) : Prop :=
  (cache i w).v = true ∧ lineNumber i (cache i w).tag = n

theorem holds_lineOf_iff {cache : Cache g} {phyAddr : BitVec 32} {i : Fin g.lines}
    {w : Fin g.ways} :
    Holds cache (lineOf phyAddr) i w ↔
      i = extractLineIndex g phyAddr ∧ (cache i w).v = true ∧
        (cache i w).tag = addrTag g phyAddr := by
  rw [Holds, lineNumber_eq_lineOf_iff]
  tauto

/-- A way holds one line only. -/
theorem Holds.unique {cache : Cache g} {n n' : ℕ} {i : Fin g.lines} {w : Fin g.ways}
    (h : Holds cache n i w) (h' : Holds cache n' i w) : n = n' :=
  h.2.symm.trans h'.2

/-- Two ways that hold the same line are in the same set. -/
theorem Holds.index_eq {cache : Cache g} {n : ℕ} {i i' : Fin g.lines} {w w' : Fin g.ways}
    (h : Holds cache n i w) (h' : Holds cache n i' w') : i = i' :=
  (lineNumber_inj.mp (h.2.trans h'.2.symm)).1

/-- **Specification of the lookup.** It finds the first way holding the line, provided every
way before it is valid. -/
theorem lookup_eq_some_iff {cache : Cache g} {phyAddr : BitVec 32} {w : Fin g.ways} :
    lookup cache phyAddr = some w ↔
      Holds cache (lineOf phyAddr) (extractLineIndex g phyAddr) w ∧
        ∀ u < w, (cache (extractLineIndex g phyAddr) u).v = true ∧
          ¬ Holds cache (lineOf phyAddr) (extractLineIndex g phyAddr) u := by
  rw [lookup, cacheHitLoop_eq_some_iff (List.pairwise_lt_finRange _)]
  simp only [List.mem_finRange, true_and, forall_const, setWidth_tag_eq_iff, holds_lineOf_iff,
    ne_eq, and_assoc]
  refine and_congr_right fun _ => and_congr_right fun _ => forall_congr' fun u =>
    imp_congr_right fun _ => ?_
  tauto

/-- The lookup misses exactly when every way holding the line lies behind an invalid way. -/
theorem lookup_eq_none_iff {cache : Cache g} {phyAddr : BitVec 32} :
    lookup cache phyAddr = none ↔
      ∀ w, Holds cache (lineOf phyAddr) (extractLineIndex g phyAddr) w →
        ∃ u < w, (cache (extractLineIndex g phyAddr) u).v = false := by
  rw [lookup, cacheHitLoop_eq_none_iff (List.pairwise_lt_finRange _)]
  simp only [List.mem_finRange, true_and, forall_const, setWidth_tag_eq_iff, holds_lineOf_iff,
    and_imp]

theorem emptyWay_eq_some_iff {set : CacheSet g} {w : Fin g.ways} :
    emptyWay set = some w ↔ (set w).v = false ∧ ∀ u < w, (set u).v = true := by
  rw [emptyWay, findEmptySlotLoop_eq_some_iff (List.pairwise_lt_finRange _)]
  simp

theorem emptyWay_eq_none_iff {set : CacheSet g} :
    emptyWay set = none ↔ ∀ w, (set w).v = true := by
  rw [emptyWay, findEmptySlotLoop_eq_none_iff]
  simp

/-- The victim is valid, no valid way is older, and none after it is as old. -/
theorem victimWay_spec {set : CacheSet g} {w : Fin g.ways} (h : victimWay set = some w) :
    (set w).v = true ∧ (∀ u, (set u).v = true → (set u).age ≤ (set w).age) ∧
      ∀ u, (set u).v = true → w < u → (set u).age < (set w).age := by
  rcases evictLoop_cases set (List.pairwise_lt_finRange _) 0 none with
    ⟨heq, -⟩ | ⟨w', -, heq, hv, -, hmax, hlast⟩
  · simp [victimWay, heq] at h
  · obtain rfl : w' = w := by simpa [victimWay, heq] using h
    exact ⟨hv, fun u => hmax u (List.mem_finRange u), fun u => hlast u (List.mem_finRange u)⟩

/-- A set with a valid way has a victim. -/
theorem exists_victimWay {set : CacheSet g} {u : Fin g.ways} (hu : (set u).v = true) :
    ∃ w, victimWay set = some w := by
  rcases evictLoop_cases set (List.pairwise_lt_finRange _) 0 none with
    ⟨-, hlt⟩ | ⟨w, -, heq, -⟩
  · exact absurd (hlt u (List.mem_finRange u) hu) (Nat.not_lt_zero _)
  · exact ⟨w, heq⟩

end MemoryHierarchy
