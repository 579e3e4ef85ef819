import MemoryHierarchy.Memory.Accepted

/-!
# Loading inside the block

Neither `page_walk` nor `page_file_read` keeps to the block that `calloc` returned: the entries of a
translation page may point outside of it, and the last frame lies before it. Reading or writing
there is undefined. `memInitFromDescriptionInside` is the loader with these accesses left without a
result; it succeeds exactly if the text says something whose pages lie in the block, have a file,
and are reached by walks inside the block (`loads_iff`).
-/

namespace MemoryHierarchy

open Lib

/-! ### The loader that keeps to the block -/

/-- A pass over the data page that comes next keeps to the block: the walk of its address, and the
bytes its file is stored at. Translation pages have addresses of 32 bits, for which the check of
`page_file_read` is enough. -/
def LoadState.Inside (env : LoadEnv) (s : LoadState) : Prop :=
  match s.memory, scanData s.f with
  | some bytes, .page p _ =>
    WalkInside (wordsOf bytes) s.memCapacityInBytes.toNat (virtAddr64 p.1) ∧
      ∀ a ∈ (pageFileRead env.files (some bytes) s.memCapacityInBytes (dataAddress bytes p.1)
        p.2).written, a < s.memCapacityInBytes
  | _, _ => True

instance (env : LoadEnv) (s : LoadState) : Decidable (s.Inside env) := by
  unfold LoadState.Inside
  split
  · exact inferInstanceAs (Decidable (_ ∧ _))
  · exact isTrue trivial

/-- The loop over the data pages, as long as it keeps to the block. -/
def dataLoopInside (env : LoadEnv) (s : LoadState) : Option LoadResult :=
  loop (guarded (LoadState.Inside env) (dataPass env)) (fun s => s.f.left)
    (fun _ _ h => dataPass_left (guarded_again_iff.mp h).2) s

/-- `mem_init_from_description`, as long as it keeps to the block. -/
def memInitFromDescriptionInside (env : LoadEnv) (file : Option File) (memory : Option ByteMem)
    (memCapacityInBytes : BitVec 64) : Option LoadResult :=
  match readHeader env file memory memCapacityInBytes with
  | .error r => some r
  | .ok (s, nbTables) =>
    match tablesLoop env nbTables (s, 0) with
    | .error r => some r
    | .ok s => dataLoopInside env s

/-- A page that can be read and lies in the block. -/
def Fitting (files : Path → Option (List Byte)) (size : BitVec 64) (p : BitVec 64 × Path) : Prop :=
  p.1.toNat + pageSize ≤ size.toNat ∧
    ∃ content, files p.2 = some content ∧ pageSize ≤ content.length

/-- The walks of the data pages keep to the block, each in the memory that the pages before it
leave. -/
def WalksInside (files : Path → Option (List Byte)) (size : BitVec 64) :
    ByteMem → List (BitVec 64 × Path) → Prop
  | _, [] => True
  | memory, (virtaddr, path) :: data =>
    WalkInside (wordsOf memory) size.toNat (virtAddr64 virtaddr) ∧
      WalksInside files size (storePage files memory (dataAddress memory virtaddr, path)) data

/-- All walks of a list of pages keep to the block, where `base` is there before. -/
def PageList.WalksInside (l : PageList) (files : Path → Option (List Byte)) (size : BitVec 64)
    (base : ByteMem) : Prop :=
  MemoryHierarchy.WalksInside files size (l.translation.foldl (storePage files) base) l.data

variable {env : LoadEnv} {s t : LoadState} {bytes bytes' : ByteMem} {size : BitVec 64}
  {p : BitVec 64 × Path} {data : List (BitVec 64 × Path)} {file : Option File}
  {memory : Option ByteMem} {memCapacityInBytes : BitVec 64}

/-! ### Pages in the block -/

theorem Fitting.readable (h : Fitting env.files size p) : Readable env.files size p := by
  have hsize := size.isLt
  refine ⟨check_iff.mpr ?_, h.2⟩
  have hfits := h.1
  rw [pageSize] at hfits
  omega

/-- A page that can be read is stored in the block exactly if it lies there. -/
theorem fitting_iff (bytes : ByteMem) (hp : Readable env.files size p) :
    Fitting env.files size p ↔
      ∀ a ∈ (pageFileRead env.files (some bytes) size p.1 p.2).written, a < size := by
  obtain ⟨hcheck, content, hfile, hlength⟩ := hp
  have hpass := check_iff.mp hcheck
  have haddr := p.1.isLt
  have hsize := size.isLt
  simp only [mem_written_iff hfile hlength hcheck]
  constructor
  · rintro h _ ⟨i, hi, rfl⟩
    have hfits := h.1
    rw [BitVec.lt_def, toNat_written]
    omega
  · intro h
    refine ⟨?_, content, hfile, hlength⟩
    by_contra hout
    rw [pageSize] at hout
    -- the check overflows, and the last byte below the end of the address space is stored
    have hlast := h _ ⟨2 ^ 64 - 1 - p.1.toNat, by simp only [pageSize]; omega, rfl⟩
    rw [BitVec.lt_def, toNat_written] at hlast
    omega

/-- The address of a translation page has 32 bits. -/
theorem fitting_of_readable (hp : Readable env.files size p) (hlow : p.1.toNat < 2 ^ 32) :
    Fitting env.files size p := by
  have hpass := check_iff.mp hp.1
  refine ⟨?_, hp.2⟩
  rw [pageSize]
  omega

theorem PageList.low_of_mem_translation {l : PageList} (hp : p ∈ l.translation) :
    p.1.toNat < 2 ^ 32 := by
  rcases List.mem_cons.mp hp with rfl | hp
  · exact Nat.two_pow_pos 32
  · obtain ⟨t, -, rfl⟩ := List.mem_map.mp hp
    rw [tableAt, BitVec.toNat_setWidth]
    exact (Nat.mod_le _ _).trans_lt t.1.isLt

/-! ### The loop -/

/-- **The states of a loop that succeeds** keep to the block exactly if the walks and the pages
do. -/
theorem forall_inside_iff (hs : s.memory = some bytes) (hlines : DataLines s.f data)
    (hreadable : ∀ p ∈ placed env.files bytes data, Readable env.files s.memCapacityInBytes p) :
    (∀ t, Reaches (dataPass env) s t → t.Inside env) ↔
      WalksInside env.files s.memCapacityInBytes bytes data ∧
        ∀ p ∈ placed env.files bytes data, Fitting env.files s.memCapacityInBytes p := by
  obtain ⟨f, memory, size⟩ := s
  obtain rfl : memory = some bytes := hs
  simp only at hlines hreadable ⊢
  induction hlines generalizing bytes with
  | @done f hscan =>
    have hpass := dataPass_eq_scanData env (s := ⟨f, some bytes, size⟩) rfl
    simp only [hscan] at hpass
    obtain ⟨g, hpass⟩ := hpass
    rw [forall_reaches_leave hpass]
    refine iff_of_true ?_ ⟨trivial, List.forall_mem_nil _⟩
    simp only [LoadState.Inside, hscan]
  | @page f g p data hscan _ ih =>
    obtain ⟨hp, hdata⟩ := List.forall_mem_cons.mp hreadable
    have hpass := dataPass_eq_scanData env (s := ⟨f, some bytes, size⟩) rfl
    simp only [hscan, (readPage_ok_iff (s := ⟨f, some bytes, size⟩) rfl).mpr ⟨hp, rfl⟩] at hpass
    have hinside : (⟨f, some bytes, size⟩ : LoadState).Inside env ↔
        WalkInside (wordsOf bytes) size.toNat (virtAddr64 p.1) ∧
          Fitting env.files size (dataAddress bytes p.1, p.2) := by
      rw [fitting_iff bytes hp]
      simp only [LoadState.Inside, hscan]
    rw [forall_reaches_again hpass, hinside, ih hdata, placed, List.forall_mem_cons, WalksInside]
    exact and_and_and_comm

/-! ### The whole loader -/

/-- **The loader that keeps to the block** has the result of the loader, if all states of the loop
over the data pages keep to it. -/
theorem memInitFromDescriptionInside_eq_some_iff {result : LoadResult} :
    memInitFromDescriptionInside env file memory memCapacityInBytes = some result ↔
      memInitFromDescription env file memory memCapacityInBytes = result ∧
        ∀ s nbTables t, readHeader env file memory memCapacityInBytes = .ok (s, nbTables) →
          tablesLoop env nbTables (s, 0) = .ok t →
          ∀ u, Reaches (dataPass env) t u → u.Inside env := by
  rw [memInitFromDescriptionInside, memInitFromDescription]
  rcases readHeader env file memory memCapacityInBytes with r | ⟨s, nbTables⟩
  · refine Option.some_inj.trans (and_iff_left ?_).symm
    rintro _ _ _ ⟨⟩
  · dsimp only
    rcases htables : tablesLoop env nbTables (s, 0) with r | t
    · refine Option.some_inj.trans (and_iff_left ?_).symm
      rintro _ _ t ⟨⟩ ht
      cases htables.symm.trans ht
    · refine loop_guarded_eq_some_iff.trans (and_congr_right fun _ => ⟨?_, fun h => ?_⟩)
      · rintro h _ _ u ⟨⟩ hu
        cases htables.symm.trans hu
        exact h
      · exact h s nbTables t rfl htables

/-- The states of the loop over the data pages, for a text whose pages can be read, keep to the
block exactly if the walks and the pages do. -/
theorem forall_reached_inside_iff {f : File} {around : ByteMem} {l : PageList}
    (hcalloc : env.calloc = some around) (hl : Describes env.stack f size l)
    (hreadable : ∀ p ∈ l.pages env.files (zeroed around size), Readable env.files size p) :
    (∀ s nbTables t, readHeader env (some f) memory memCapacityInBytes = .ok (s, nbTables) →
        tablesLoop env nbTables (s, 0) = .ok t →
        ∀ u, Reaches (dataPass env) t u → u.Inside env) ↔
      l.WalksInside env.files size (zeroed around size) ∧
        ∀ p ∈ l.pages env.files (zeroed around size), Fitting env.files size p := by
  obtain ⟨htranslation, hdata⟩ := List.forall_mem_append.mp hreadable
  obtain ⟨s, t, hheader, htables, hmemory, rfl, hlines⟩ :=
    exists_before_data memory memCapacityInBytes hcalloc hl htranslation
  have hfitting : ∀ p ∈ l.translation, Fitting env.files t.memCapacityInBytes p := fun p hp =>
    fitting_of_readable (htranslation p hp) (PageList.low_of_mem_translation hp)
  rw [PageList.pages, List.forall_mem_append, and_iff_right hfitting, PageList.WalksInside,
    ← forall_inside_iff hmemory hlines hdata]
  refine ⟨fun h => h s _ t hheader htables, ?_⟩
  rintro h s' _ t' hheader' htables'
  cases hheader.symm.trans hheader'
  cases htables.symm.trans htables'
  exact h

/-- A text that says something is loaded inside the block exactly if its pages lie there and have
a file, and its walks keep to the block. -/
theorem loadedInside_iff {f : File} {around : ByteMem} {l : PageList}
    (hcalloc : env.calloc = some around) (hl : Describes env.stack f size l) :
    memInitFromDescriptionInside env (some f) memory memCapacityInBytes =
        some { err := .errNone, memory := some bytes, memCapacityInBytes := size } ↔
      (∀ p ∈ l.pages env.files (zeroed around size), Fitting env.files size p) ∧
        l.WalksInside env.files size (zeroed around size) ∧
        bytes = l.image env.files (zeroed around size) := by
  rw [memInitFromDescriptionInside_eq_some_iff]
  constructor
  · rintro ⟨hload, hinside⟩
    obtain ⟨_, _, l', ⟨⟩, hcalloc', hl', hreadable, rfl⟩ := describes_of_loaded hload
    cases hcalloc.symm.trans hcalloc'
    obtain ⟨-, rfl⟩ := hl.unique hl'
    obtain ⟨hwalks, hpages⟩ := (forall_reached_inside_iff hcalloc hl hreadable).mp hinside
    exact ⟨hpages, hwalks, rfl⟩
  · rintro ⟨hpages, hwalks, rfl⟩
    have hreadable : ∀ p ∈ l.pages env.files (zeroed around size), Readable env.files size p :=
      fun p hp => (hpages p hp).readable
    exact ⟨loaded_of_describes hcalloc hl hreadable,
      (forall_reached_inside_iff hcalloc hl hreadable).mpr ⟨hwalks, hpages⟩⟩

/-- **Accepted descriptions.** A file is loaded without an error and without leaving the block
exactly if it can be opened, its text says something, the memory can be allocated, all pages lie in
it and have a file, and the walks of the data pages keep to it. What is loaded is what the text
means. -/
theorem loads_iff (env : LoadEnv) (file : Option File) (memory : Option ByteMem)
    (memCapacityInBytes size : BitVec 64) (bytes : ByteMem) :
    memInitFromDescriptionInside env file memory memCapacityInBytes =
        some { err := .errNone, memory := some bytes, memCapacityInBytes := size } ↔
      ∃ f around l, file = some f ∧ env.calloc = some around ∧ Describes env.stack f size l ∧
        (∀ p ∈ l.pages env.files (zeroed around size), Fitting env.files size p) ∧
        l.WalksInside env.files size (zeroed around size) ∧
        bytes = l.image env.files (zeroed around size) := by
  constructor
  · intro h
    obtain ⟨f, around, l, rfl, hcalloc, hl, -, -⟩ :=
      describes_of_loaded (memInitFromDescriptionInside_eq_some_iff.mp h).1
    exact ⟨f, around, l, rfl, hcalloc, hl, (loadedInside_iff hcalloc hl).mp h⟩
  · rintro ⟨f, around, l, rfl, hcalloc, hl, h⟩
    exact (loadedInside_iff hcalloc hl).mpr h

end MemoryHierarchy
