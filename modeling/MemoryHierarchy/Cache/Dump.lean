import MemoryHierarchy.Cache.Visible
import MemoryHierarchy.Lib.Legible

/-!
# Dumping a cache

`cache_dump` of `cache_mng.c`, as the text it writes: a line for every way of every set, with
everything about an entry that is valid and nothing but its valid bit about one that is not. The
text is legible: two dumps of caches of one type are the same exactly when the caches are alike
(`cacheDump_eq_iff`). So the dumps and memory decide how the program goes on, and every later
dump (`dumps_decide_run`).
-/

namespace MemoryHierarchy

open Lib Function

variable {g : Geometry}

/-- `PRINT_CACHE_LINE`. The conversions for 8 and 16 bits are those of `unsigned int`, so that no
digit of a tag is lost. -/
def printCacheLine (e : CacheEntry g) : List Byte :=
  chars "V: " ++ printHexLower 1 e.v.toNat ++ chars ", AGE: " ++ printHexLower 1 e.age ++
    chars ", TAG: 0x" ++ printHexLower 3 e.tag.toNat ++ chars ", values: ( " ++
    ((List.finRange wordsPerLine).flatMap fun i =>
      chars "0x" ++ printHexLower 8 (e.line i).toNat ++ chars " ") ++
    chars ")\n"

/-- `PRINT_INVALID_CACHE_LINE`. -/
def printInvalidCacheLine (e : CacheEntry g) : List Byte :=
  chars "V: " ++ printHexLower 1 e.v.toNat ++
    chars ", AGE: -, TAG: -----, values: ( ---------- ---------- ---------- ---------- )\n"

/-- The line of one way of one set. -/
def dumpEntry (index : Fin g.lines) (way : Fin g.ways) (e : CacheEntry g) : List Byte :=
  printHexLower 2 way ++ chars "/" ++ printHexLower 4 index ++ chars ": " ++
    if e.v then printCacheLine e else printInvalidCacheLine e

/-- `DUMP_CACHE_TYPE`. -/
def dumpCacheType (cache : Cache g) : List Byte :=
  (List.finRange g.lines).flatMap fun index =>
    (List.finRange g.ways).flatMap fun way => dumpEntry index way (cache index way)

/-- `cache_dump`. -/
def cacheDump (cache : Cache g) : List Byte :=
  chars "WAY/LINE: V: AGE: TAG: WORDS\n" ++ dumpCacheType cache ++ chars "\n"

/-! ### Reading a dump -/

/-- A field of an entry, with the literal behind it. -/
private theorem legible_field {φ : CacheEntry g → ℕ} (width : ℕ) {c : Byte} {t : List Byte}
    (hc : ¬ IsHex c) :
    Legible (fun e e' => φ e = φ e') fun e => printHexLower width (φ e) ++ c :: t :=
  (legible_printHexLower width hc).comp φ

/-- The line of a valid entry shows all of it. -/
private theorem legible_printCacheLine :
    Legible (fun e e' : CacheEntry g => e = e') printCacheLine := by
  have hv : Legible _ fun e : CacheEntry g => printHexLower 1 e.v.toNat ++ chars ", AGE: " :=
    legible_field 1 (by decide)
  have hage : Legible _ fun e : CacheEntry g => printHexLower 1 e.age ++ chars ", TAG: 0x" :=
    legible_field 1 (by decide)
  have htag : Legible _ fun e : CacheEntry g =>
      printHexLower 3 e.tag.toNat ++ chars ", values: ( " := legible_field 3 (by decide)
  have hword : ∀ i : Fin wordsPerLine, Legible _ fun e : CacheEntry g =>
      printHexLower 8 (e.line i).toNat ++ chars " " := fun i => legible_field 8 (by decide)
  have hline := legible_flatMap (List.finRange wordsPerLine) fun i _ =>
    (legible_const (chars "0x")).append (hword i)
  have hall := (legible_const (chars "V: ")).append
    (hv.append (hage.append (htag.append (hline.append (legible_const (chars ")\n"))))))
  refine (hall.congr fun e => ?_).mono ?_
  · simp only [printCacheLine, List.append_assoc]
  · rintro ⟨v, age, tag, line⟩ ⟨v', age', tag', line'⟩ ⟨-, hv, hage, htag, hline, -⟩
    obtain rfl : v = v' := by
      revert hv
      cases v <;> cases v' <;> simp
    obtain rfl : age = age' := hage
    obtain rfl : tag = tag' := BitVec.eq_of_toNat_eq htag
    obtain rfl : line = line' :=
      funext fun i => BitVec.eq_of_toNat_eq (hline i (List.mem_finRange i)).2
    rfl

/-- The line of an entry shows what is valid. -/
private theorem legible_dumpEntry (index : Fin g.lines) (way : Fin g.ways) :
    Legible CacheEntry.Alike (dumpEntry index way) := by
  intro e e' r s heq
  simp only [dumpEntry, List.append_assoc] at heq
  have hrest := List.append_cancel_left (List.append_cancel_left
    (List.append_cancel_left (List.append_cancel_left heq)))
  have hdigit : ∀ b : Bool, printHexLower 1 b.toNat = [if b then ch '1' else ch '0'] := by decide
  cases hv : e.v <;> cases hv' : e'.v
  · rw [hv, hv'] at hrest
    simp only [printInvalidCacheLine, hv, hv', Bool.false_eq_true, if_false] at hrest
    exact ⟨CacheEntry.alike_of_invalid hv hv', List.append_cancel_left hrest⟩
  · -- the valid bits are printed at the same place
    rw [hv, hv'] at hrest
    simp only [printInvalidCacheLine, printCacheLine, hv, hv', hdigit, List.append_assoc,
      Bool.false_eq_true, if_false, if_true] at hrest
    have hdiffer := List.cons.inj (List.append_cancel_left hrest)
    exact absurd hdiffer.1 (by decide)
  · rw [hv, hv'] at hrest
    simp only [printInvalidCacheLine, printCacheLine, hv, hv', hdigit, List.append_assoc,
      Bool.false_eq_true, if_false, if_true] at hrest
    have hdiffer := List.cons.inj (List.append_cancel_left hrest)
    exact absurd hdiffer.1 (by decide)
  · rw [hv, hv'] at hrest
    obtain ⟨rfl, hrs⟩ := legible_printCacheLine hrest
    exact ⟨.refl e, hrs⟩

/-- Entries that are alike have the same line. -/
private theorem dumpEntry_congr (index : Fin g.lines) (way : Fin g.ways) {e e' : CacheEntry g}
    (h : e.Alike e') : dumpEntry index way e' = dumpEntry index way e := by
  cases hv : e.v with
  | true => rw [h.valid hv]
  | false => simp only [dumpEntry, printInvalidCacheLine, h.v, hv, Bool.false_eq_true, if_false]

private theorem legible_dumpCacheType : Legible Cache.Alike (dumpCacheType (g := g)) := by
  refine (legible_flatMap (List.finRange g.lines) fun index _ =>
    legible_flatMap (List.finRange g.ways) fun way _ =>
      (legible_dumpEntry index way).comp fun cache : Cache g => cache index way).mono ?_
  exact fun cache cache' h index way =>
    h index (List.mem_finRange index) way (List.mem_finRange way)

theorem legible_cacheDump : Legible Cache.Alike (cacheDump (g := g)) :=
  (((legible_const _).append legible_dumpCacheType).append (legible_const _)).mono
    fun _ _ h => h.1.2

/-- Caches that are alike have the same dump. -/
theorem Cache.Alike.cacheDump_eq {cache cache' : Cache g} (h : Cache.Alike cache cache') :
    cacheDump cache' = cacheDump cache := by
  simp only [cacheDump, dumpCacheType, dumpEntry_congr _ _ (h _ _)]

/-- **A dump shows exactly what is valid**: which ways are, and their ages, tags and data. -/
theorem cacheDump_eq_iff (cache cache' : Cache g) :
    cacheDump cache = cacheDump cache' ↔
      ∀ i w, (cache' i w).v = (cache i w).v ∧
        ((cache i w).v = true → cache' i w = cache i w) := by
  have halike : Cache.Alike cache cache' ↔
      ∀ i w, (cache' i w).v = (cache i w).v ∧
        ((cache i w).v = true → cache' i w = cache i w) :=
    ⟨fun h i w => ⟨(h i w).v, (h i w).valid⟩, fun h i w => ⟨(h i w).1, (h i w).2⟩⟩
  rw [← halike]
  exact ⟨fun h => legible_cacheDump.related h, fun h => h.cacheDump_eq.symm⟩

/-! ### Dumps and runs -/

/-- What can be seen of a state: memory, and the dumps of the three caches. -/
def CacheState.SameDumps (s s' : CacheState) : Prop :=
  s'.memSpace = s.memSpace ∧ (∀ access, cacheDump (s'.l1 access) = cacheDump (s.l1 access)) ∧
    cacheDump s'.l2Cache = cacheDump s.l2Cache

theorem CacheState.sameDumps_iff {s s' : CacheState} : s.SameDumps s' ↔ s.Alike s' := by
  constructor
  · rintro ⟨hmem, hl1, hl2⟩
    exact ⟨hmem, fun access => legible_cacheDump.related (hl1 access).symm,
      legible_cacheDump.related hl2.symm⟩
  · intro h
    exact ⟨h.memSpace, fun access => (h.l1 access).cacheDump_eq, h.l2.cacheDump_eq⟩

/-- **Memory and the dumps decide the run.** Two states that look the same, whatever their invalid
entries hold, look the same after any sequence of operations, and every operation then gets the
same reply from both. -/
theorem dumps_decide_run (s s' : CacheState) (h : s.SameDumps s') (ops : List CacheOp) :
    (runCommands s ops).SameDumps (runCommands s' ops) ∧
      ∀ op, (executeCommand (runCommands s' ops) op).2 =
        (executeCommand (runCommands s ops) op).2 := by
  have hrun := (CacheState.sameDumps_iff.mp h).runCommands ops
  exact ⟨CacheState.sameDumps_iff.mpr hrun, fun op => (hrun.executeCommand op).2⟩

/-- What invalid entries hold does not show. -/
theorem dumps_decide_run_cleared :
    (executeCommand (runCommands
        { flushed (fun _ => 0) with
          l2Cache := fun _ _ => { v := false, age := 3, tag := 5, line := fun _ => 7 } }
        [.read .data ⟨0, 4⟩]) (.read .data ⟨0, 8⟩)).2 =
      (executeCommand (runCommands (flushed fun _ => 0) [.read .data ⟨0, 4⟩])
        (.read .data ⟨0, 8⟩)).2 := by
  refine (dumps_decide_run (flushed fun _ => 0) _ ?_ [.read .data ⟨0, 4⟩]).2 (.read .data ⟨0, 8⟩)
  refine CacheState.sameDumps_iff.mpr ⟨rfl, fun access => ?_, fun i w => ?_⟩
  · cases access <;> exact .refl _
  · exact CacheEntry.alike_of_invalid rfl rfl

end MemoryHierarchy
