import MemoryHierarchy.Lib.FlatMemory
import MemoryHierarchy.Memory.Loader

/-!
# Descriptions of a memory

The format that `memory.h` documents for the file `mem_init_from_description` reads, and what such
a file describes: pages with the addresses they belong at. A translation page belongs at its
location, a data page where the walk of its virtual address ends. The walk is one through the
translation pages alone (`Description.tables`), and any memory that holds them gives the same
(`placeOf_eq`).
-/

namespace MemoryHierarchy

open Lib

/-! ### The format -/

/-- A line for a translation page: the numeral of its location, and a path. -/
structure TablePage where
  numeral : List Byte
  location : BitVec 32
  path : Path

/-- A line for a data page: the numeral of its virtual address, and a path. -/
structure DataPage where
  numeral : List Byte
  virtaddr : BitVec 64
  path : Path

/-- A description: the numeral of the capacity, the path of the page directory, the numeral of the
number of translation pages, these, and the data pages. The last line may lack its newline. -/
structure Description where
  capacityNumeral : List Byte
  capacity : ℕ
  pgdLocation : Path
  nbTables : List Byte
  tablePages : List TablePage
  dataPages : List DataPage
  lastNewline : Bool

def TablePage.line (t : TablePage) : List Byte := t.numeral ++ ch ' ' :: t.path

def DataPage.line (p : DataPage) : List Byte := p.numeral ++ ch ' ' :: p.path

/-- The lines of a description. -/
def Description.lines (d : Description) : List (List Byte) :=
  d.capacityNumeral :: d.pgdLocation :: d.nbTables ::
    (d.tablePages.map TablePage.line ++ d.dataPages.map DataPage.line)

/-- The text of a description. -/
def Description.text (d : Description) : List Byte :=
  [ch '\n'].intercalate d.lines ++ if d.lastNewline then [ch '\n'] else []

/-- A path that `fgets` and `strtok` read. -/
def IsLinePath (path : Path) : Prop :=
  path ≠ [] ∧ (∀ c ∈ path, c ≠ ch '\n' ∧ c ≠ 0) ∧ path.length + 2 ≤ maxFileSize

/-- A path that `readUntilNextSpace` reads. -/
def IsTokenPath (path : Path) : Prop :=
  path ≠ [] ∧ (∀ c ∈ path, ¬ IsSpace c ∧ c ≠ 0) ∧ path.length < Loader.maxSizeBuffer

/-- The numerals are numerals of the numbers they stand for, and everything fits in the buffers. -/
structure Description.WellFormed (d : Description) : Prop where
  capacity : IsDecNumeral d.capacityNumeral d.capacity
  capacity_le : d.capacity ≤ 2 ^ 31
  pgdLocation : IsLinePath d.pgdLocation
  nbTables : IsDecNumeral d.nbTables d.tablePages.length
  tablePages_ne_nil : d.tablePages ≠ []
  tablePages : ∀ t ∈ d.tablePages, IsHexNumeral t.numeral t.location.toNat ∧ IsLinePath t.path
  dataPages : ∀ p ∈ d.dataPages, IsHexNumeral p.numeral p.virtaddr.toNat ∧
    p.numeral.length ≤ Loader.maxSizeBuffer ∧ IsTokenPath p.path

/-! ### What is described -/

/-- The first page of a file. -/
def pageIn (files : Path → Option (List Byte)) (path : Path) : List Byte :=
  ((files path).getD []).take pageSize

/-- The bytes of a file, at their addresses. -/
def blockAt (files : Path → Option (List Byte)) (p : ℕ × Path) : BitVec 64 → Option Byte := fun i =>
  (pageIn files p.2)[(i - BitVec.ofNat 64 p.1).toNat]?

/-- A translation page, with its address. -/
def TablePage.page (t : TablePage) : ℕ × Path := (t.location.toNat, t.path)

/-- The translation pages, with their addresses. -/
def Description.translation (d : Description) : List (ℕ × Path) :=
  (0, d.pgdLocation) :: d.tablePages.map TablePage.page

/-- A memory that holds the translation pages and nothing else. -/
def Description.tables (d : Description) (files : Path → Option (List Byte)) : ByteMem :=
  (d.translation.map (blockAt files)).foldl overlay fun _ => 0

/-- The address a virtual address is translated to. -/
def placeOf (memory : ByteMem) (virtaddr : BitVec 64) : ℕ :=
  match pageWalk (wordsOf memory) (virtAddr64 virtaddr) with
  | .error _ => 0
  | .ok phy => phy.phyPageNum.toNat * 4096 + phy.pageOffset.toNat

/-- A data page, with the address it is translated to. -/
def DataPage.page (memory : ByteMem) (p : DataPage) : ℕ × Path :=
  (placeOf memory p.virtaddr, p.path)

/-- All pages, with their addresses, where the data pages are translated in the given memory. -/
def Description.pages (d : Description) (memory : ByteMem) : List (ℕ × Path) :=
  d.translation ++ d.dataPages.map (DataPage.page memory)

/-- What is described can be loaded: the files have a page, the pages lie inside the memory and
share no byte, and the walks of the data pages read nothing but translation pages. -/
structure Description.Fits (d : Description) (files : Path → Option (List Byte)) : Prop where
  full : ∀ p ∈ d.pages (d.tables files), ∃ content, files p.2 = some content ∧
    pageSize ≤ content.length
  inside : ∀ p ∈ d.pages (d.tables files), p.1 + pageSize ≤ d.capacity
  apart : (d.pages (d.tables files)).Pairwise fun p q =>
    p.1 + pageSize ≤ q.1 ∨ q.1 + pageSize ≤ p.1
  walks : ∀ p ∈ d.dataPages,
    ∀ i ∈ walkIndices (wordsOf (d.tables files)) (virtAddr64 p.virtaddr),
      ∃ q ∈ d.translation, q.1 ≤ 4 * i ∧ 4 * i + 4 ≤ q.1 + pageSize

/-- The memory holds the first page of a file. -/
def HoldsPage (files : Path → Option (List Byte)) (memory : ByteMem) (p : ℕ × Path) : Prop :=
  ∃ content, files p.2 = some content ∧
    ∀ k < pageSize, content[k]? = some (memory (BitVec.ofNat 64 (p.1 + k)))

/-! ### Pages as blocks -/

section Block

variable {files : Path → Option (List Byte)} {p q : ℕ × Path} {content : List Byte}

theorem length_pageIn_le (files : Path → Option (List Byte)) (path : Path) :
    (pageIn files path).length ≤ pageSize :=
  List.length_take_le _ _

/-- Where a byte stands in a page. -/
theorem toNat_sub_ofNat {a : ℕ} {i : BitVec 64} (ha : a + pageSize ≤ 2 ^ 64) :
    (i - BitVec.ofNat 64 a).toNat =
      if a ≤ i.toNat then i.toNat - a else 2 ^ 64 - a + i.toNat := by
  have hi := i.isLt
  simp only [pageSize] at ha
  rw [BitVec.toNat_sub, BitVec.toNat_ofNat]
  split_ifs <;> omega

/-- The bytes of a page are in its block. -/
theorem blockAt_eq_some (hfile : files p.2 = some content) (hlength : pageSize ≤ content.length)
    (hp : p.1 + pageSize ≤ 2 ^ 64) {k : ℕ} (hk : k < pageSize) :
    ∃ b, content[k]? = some b ∧ blockAt files p (BitVec.ofNat 64 (p.1 + k)) = some b := by
  have hplace : (BitVec.ofNat 64 (p.1 + k)).toNat = p.1 + k := by
    rw [BitVec.toNat_ofNat]
    exact Nat.mod_eq_of_lt (by omega)
  refine ⟨content[k], List.getElem?_eq_getElem _, ?_⟩
  rw [blockAt, toNat_sub_ofNat hp, hplace, if_pos (Nat.le_add_right _ _), Nat.add_sub_cancel_left,
    pageIn, hfile, Option.getD_some, List.getElem?_take_of_lt hk, List.getElem?_eq_getElem]

/-- Nothing else is. -/
theorem blockAt_eq_none (hp : p.1 + pageSize ≤ 2 ^ 64) {i : BitVec 64}
    (hi : ¬ (p.1 ≤ i.toNat ∧ i.toNat < p.1 + pageSize)) : blockAt files p i = none := by
  have hlength := length_pageIn_le files p.2
  have hlt := i.isLt
  simp only [pageSize] at hp hi hlength
  rw [blockAt, toNat_sub_ofNat hp, List.getElem?_eq_none_iff]
  split_ifs <;> omega

theorem apart_blockAt (hp : p.1 + pageSize ≤ 2 ^ 64) (hq : q.1 + pageSize ≤ 2 ^ 64)
    (h : p.1 + pageSize ≤ q.1 ∨ q.1 + pageSize ≤ p.1) :
    Apart (blockAt files p) (blockAt files q) := by
  intro i
  by_cases hi : p.1 ≤ i.toNat ∧ i.toNat < p.1 + pageSize
  · exact .inr (blockAt_eq_none hq (by omega))
  · exact .inl (blockAt_eq_none hp hi)

end Block

/-! ### Memories that hold the translation pages -/

variable {d : Description} {files : Path → Option (List Byte)}

/-- The memory agrees with the translation pages where these lie. -/
def HoldsTables (d : Description) (files : Path → Option (List Byte)) (memory : ByteMem) : Prop :=
  ∀ q ∈ d.translation, ∀ k < pageSize,
    memory (BitVec.ofNat 64 (q.1 + k)) = d.tables files (BitVec.ofNat 64 (q.1 + k))

/-- The words a walk reads are the same in every memory that holds the translation pages. -/
theorem wordsOf_eq_of_holdsTables (h : d.Fits files) {memory : ByteMem}
    (hmemory : HoldsTables d files memory) {p : DataPage} (hp : p ∈ d.dataPages) :
    ∀ i ∈ walkIndices (wordsOf (d.tables files)) (virtAddr64 p.virtaddr),
      wordsOf memory i = wordsOf (d.tables files) i := by
  intro i hi
  obtain ⟨q, hq, hle, hlt⟩ := h.walks p hp i hi
  have hbyte : ∀ j < 4, memory (BitVec.ofNat 64 (4 * i + j)) =
      d.tables files (BitVec.ofNat 64 (4 * i + j)) := by
    intro j hj
    have hsplit : 4 * i + j = q.1 + (4 * i + j - q.1) := by omega
    rw [hsplit]
    exact hmemory q hq _ (by omega)
  have hzero : memory (BitVec.ofNat 64 (4 * i)) = d.tables files (BitVec.ofNat 64 (4 * i)) :=
    hbyte 0 (by decide)
  simp only [wordsOf, hbyte 3 (by decide), hbyte 2 (by decide), hbyte 1 (by decide), hzero]

/-- **A walk is the same** in every memory that holds the translation pages. -/
theorem placeOf_eq (h : d.Fits files) {memory : ByteMem} (hmemory : HoldsTables d files memory)
    {p : DataPage} (hp : p ∈ d.dataPages) :
    placeOf memory p.virtaddr = placeOf (d.tables files) p.virtaddr := by
  rw [placeOf, placeOf, pageWalk_congr (wordsOf_eq_of_holdsTables h hmemory hp)]

/-- So the pages belong at the same addresses. -/
theorem pages_eq (h : d.Fits files) {memory : ByteMem} (hmemory : HoldsTables d files memory) :
    d.pages memory = d.pages (d.tables files) := by
  refine congrArg (d.translation ++ ·) (List.map_congr_left fun p hp => ?_)
  rw [DataPage.page, DataPage.page, placeOf_eq h hmemory hp]

theorem Description.Fits.le (h : d.Fits files) (hcapacity : d.capacity ≤ 2 ^ 31) {p : ℕ × Path}
    (hp : p ∈ d.pages (d.tables files)) : p.1 + pageSize ≤ 2 ^ 64 :=
  (h.inside p hp).trans (hcapacity.trans (by decide))

theorem Description.Fits.apart_blocks (h : d.Fits files) (hcapacity : d.capacity ≤ 2 ^ 31) :
    ((d.pages (d.tables files)).map (blockAt files)).Pairwise Apart := by
  rw [List.pairwise_map]
  exact h.apart.imp_of_mem fun hp hq hpq =>
    apart_blockAt (h.le hcapacity hp) (h.le hcapacity hq) hpq

/-- There are not too many pages to be counted. -/
theorem Description.Fits.length_pages_le (h : d.Fits files) :
    (d.pages (d.tables files)).length ≤ d.capacity := by
  have hnodup : ((d.pages (d.tables files)).map fun p => p.1 / pageSize).Nodup := by
    rw [List.Nodup, List.pairwise_map]
    exact h.apart.imp fun hpq => by
      simp only [pageSize] at hpq ⊢
      omega
  have hrange : ((d.pages (d.tables files)).map fun p => p.1 / pageSize) ⊆
      List.range d.capacity := by
    intro n hn
    obtain ⟨p, hp, rfl⟩ := List.mem_map.mp hn
    have hinside := h.inside p hp
    simp only [pageSize] at hinside ⊢
    rw [List.mem_range]
    omega
  have hlength := (List.subperm_of_subset hnodup hrange).length_le
  rwa [List.length_map, List.length_range] at hlength

/-- A memory over which pages have been laid holds one of them. -/
theorem overlays_blockAt (h : d.Fits files) (hcapacity : d.capacity ≤ 2 ^ 31)
    {pages : List (ℕ × Path)} (hpages : List.Sublist pages (d.pages (d.tables files)))
    {p : ℕ × Path} (hp : p ∈ pages) {k : ℕ} (hk : k < pageSize) (base : ByteMem) :
    ∃ b content, files p.2 = some content ∧ content[k]? = some b ∧
      (pages.map (blockAt files)).foldl overlay base (BitVec.ofNat 64 (p.1 + k)) = b := by
  have hmem := hpages.subset hp
  obtain ⟨content, hfile, hlength⟩ := h.full p hmem
  obtain ⟨b, hb, hblock⟩ := blockAt_eq_some hfile hlength (h.le hcapacity hmem) hk
  have hapart := (h.apart_blocks hcapacity).sublist (hpages.map (blockAt files))
  exact ⟨b, content, hfile, hb, overlays_of_some hapart (List.mem_map_of_mem hp) hblock⟩

/-- The translation pages, laid over any memory with others or without. -/
theorem holdsTables_overlays (h : d.Fits files) (hcapacity : d.capacity ≤ 2 ^ 31)
    {pages : List (ℕ × Path)} (hpages : List.Sublist pages (d.pages (d.tables files)))
    (htranslation : d.translation ⊆ pages) (base : ByteMem) :
    HoldsTables d files ((pages.map (blockAt files)).foldl overlay base) := by
  intro q hq k hk
  obtain ⟨b, content, hfile, hb, hbase⟩ :=
    overlays_blockAt h hcapacity hpages (htranslation hq) hk base
  obtain ⟨b', content', hfile', hb', htables⟩ :=
    overlays_blockAt h hcapacity (List.sublist_append_left _ _) hq hk fun _ => 0
  obtain rfl := Option.some.inj (hfile'.symm.trans hfile)
  obtain rfl := Option.some.inj (hb'.symm.trans hb)
  exact hbase.trans htables.symm

/-- **Another page** does not disturb the translation pages. -/
theorem HoldsTables.overlay {memory : ByteMem} (hmemory : HoldsTables d files memory)
    {p : ℕ × Path} (hp : p.1 + pageSize ≤ 2 ^ 64)
    (hapart : ∀ q ∈ d.translation, q.1 + pageSize ≤ 2 ^ 64 ∧
      (q.1 + pageSize ≤ p.1 ∨ p.1 + pageSize ≤ q.1)) :
    HoldsTables d files (Lib.overlay memory (blockAt files p)) := by
  intro q hq k hk
  obtain ⟨hfits, hapart⟩ := hapart q hq
  rw [overlay_of_none, hmemory q hq k hk]
  refine blockAt_eq_none hp ?_
  rw [BitVec.toNat_ofNat, Nat.mod_eq_of_lt (by omega)]
  omega

/-- **What is described**: the pages at their addresses, and what was there before elsewhere. -/
theorem holds_overlays (h : d.Fits files) (hcapacity : d.capacity ≤ 2 ^ 31) (base : ByteMem) :
    let memory := ((d.pages (d.tables files)).map (blockAt files)).foldl overlay base
    (∀ p ∈ d.pages (d.tables files), HoldsPage files memory p) ∧
      ∀ i : BitVec 64, (∀ p ∈ d.pages (d.tables files),
        ¬ (p.1 ≤ i.toNat ∧ i.toNat < p.1 + pageSize)) → memory i = base i := by
  intro memory
  constructor
  · intro p hp
    obtain ⟨content, hfile, -⟩ := h.full p hp
    refine ⟨content, hfile, fun k hk => ?_⟩
    obtain ⟨b, content', hfile', hb, hmemory⟩ :=
      overlays_blockAt h hcapacity (List.Sublist.refl _) hp hk base
    obtain rfl := Option.some.inj (hfile'.symm.trans hfile)
    exact hb.trans (congrArg some hmemory.symm)
  · intro i hi
    refine overlays_of_none fun block hblock => ?_
    obtain ⟨p, hp, rfl⟩ := List.mem_map.mp hblock
    exact blockAt_eq_none (h.le hcapacity hp) (hi p hp)

end MemoryHierarchy
