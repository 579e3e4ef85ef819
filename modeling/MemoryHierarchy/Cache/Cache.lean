import MemoryHierarchy.Addr.Addr
import Mathlib.Data.Fintype.Basic
import Mathlib.Logic.Function.Basic

/-!
# Set-associative caches

The tables of `cache.h`, the ageing macros of `lru.h` and the address macros at the top of
`cache_mng.c`. The C code is written once as macros over `CACHE_TYPE` and expanded three times;
here the constants a cache type provides are a `Geometry`, and every definition is generic in
it. `cache.h` defines each `L1_DCACHE` constant as the `L1_ICACHE` one.

A cache line is named by its *line number*, the physical address divided by 16. An entry stores
only a tag; `lineNumber` rebuilds the number from the tag and the index of the set.
-/

namespace MemoryHierarchy

/-- `WORDS_PER_LINE`, the same in all caches. -/
abbrev wordsPerLine : ℕ := 4

/-- The contents of a cache line. -/
abbrev Line := Fin wordsPerLine → Word

/-- The constants of a cache type, with the relations between them that the comments of
`cache.h` state: the tag is what is left of an address once the byte, the word and the line
index are taken off. -/
structure Geometry where
  ways : ℕ
  lines : ℕ
  tagRemainingBits : ℕ
  tagBits : ℕ
  ways_pos : 0 < ways
  lines_pos : 0 < lines
  two_pow_tagRemainingBits : 2 ^ tagRemainingBits = 16 * lines
  tagBits_add : tagBits + tagRemainingBits = 32

/-- `L1_ICACHE_*`. -/
abbrev Geometry.l1Icache : Geometry where
  ways := 4
  lines := 64
  tagRemainingBits := 10
  tagBits := 22
  ways_pos := by decide
  lines_pos := by decide
  two_pow_tagRemainingBits := by decide
  tagBits_add := by decide

/-- `L1_DCACHE_*`. -/
abbrev Geometry.l1Dcache : Geometry := .l1Icache

/-- `L2_CACHE_*`. -/
abbrev Geometry.l2Cache : Geometry where
  ways := 8
  lines := 512
  tagRemainingBits := 13
  tagBits := 19
  ways_pos := by decide
  lines_pos := by decide
  two_pow_tagRemainingBits := by decide
  tagBits_add := by decide

variable {g : Geometry}

/-- `l1_icache_entry_t`, `l1_dcache_entry_t` and `l2_cache_entry_t`. The age is a bit-field
just wide enough for `0, …, ways - 1`; both ageing macros guard their increments, so it never
wraps and a natural number serves. -/
structure CacheEntry (g : Geometry) where
  v : Bool
  age : ℕ
  tag : BitVec g.tagBits
  line : Line

/-- One set: `WAYS` consecutive entries. -/
abbrev CacheSet (g : Geometry) := Fin g.ways → CacheEntry g

/-- A cache: `LINES` sets. -/
abbrev Cache (g : Geometry) := Fin g.lines → CacheSet g

/-! ### Addresses -/

/-- `phy_to_int`. -/
def phyToInt (paddr : PhyAddr) : BitVec 32 :=
  (paddr.phyPageNum.setWidth 32 <<< pageOffsetBits) ||| paddr.pageOffset.setWidth 32

/-- `extract_line_index`. -/
def extractLineIndex (g : Geometry) (phyAddr : BitVec 32) : Fin g.lines :=
  ⟨phyAddr.toNat / (4 * wordsPerLine) % g.lines, Nat.mod_lt _ g.lines_pos⟩

/-- `extract_word_index`. -/
def extractWordIndex (phyAddr : BitVec 32) : Fin wordsPerLine :=
  ⟨phyAddr.toNat / 4 % wordsPerLine, Nat.mod_lt _ (by decide)⟩

/-- `compute_addr_line_aligned`: the word index of the first word of the line. -/
def computeAddrLineAligned (phyAddr : BitVec 32) : ℕ :=
  phyAddr.toNat / 4 / wordsPerLine * wordsPerLine

/-- `phy_addr >> TAG_REMAINING_BITS`, as stored in the tag bit-field. -/
def addrTag (g : Geometry) (phyAddr : BitVec 32) : BitVec g.tagBits :=
  (phyAddr >>> g.tagRemainingBits).setWidth g.tagBits

/-- `recomputeOldPhyAddr`: the address of an entry, from its tag and the index of its set. -/
def recomputeOldPhyAddr (tag : BitVec g.tagBits) (index : Fin g.lines) : BitVec 32 :=
  (tag.setWidth 32 <<< g.tagRemainingBits) ||| (BitVec.ofNat 32 index <<< 4)

/-- The line number of an address. -/
def lineOf (phyAddr : BitVec 32) : ℕ := phyAddr.toNat / 16

/-- The line number of an entry, rebuilt from the index of its set and its tag. -/
def lineNumber (index : Fin g.lines) (tag : BitVec g.tagBits) : ℕ :=
  tag.toNat * g.lines + index

/-! ### Ageing -/

/-- `LRU_age_increase`. -/
def lruAgeIncrease (set : CacheSet g) (wayIndex : Fin g.ways) : CacheSet g := fun way =>
  if way = wayIndex then { set way with age := 0 }
  else if (set way).age < g.ways - 1 then { set way with age := (set way).age + 1 }
  else set way

/-- `LRU_age_update`. -/
def lruAgeUpdate (set : CacheSet g) (wayIndex : Fin g.ways) : CacheSet g :=
  let compareAge := (set wayIndex).age
  fun way =>
    if way = wayIndex then { set way with age := 0 }
    else if (set way).age < compareAge then { set way with age := (set way).age + 1 }
    else set way

end MemoryHierarchy
