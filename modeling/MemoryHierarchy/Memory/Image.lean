import MemoryHierarchy.Memory.DescriptionLoads

/-!
# Images

A dump file holds memory byte for byte, a description only its pages. What is described has one
image, and `mem_init_from_dumpfile` loads the image as `mem_init_from_description` loads the
description, as long as the size is a multiple of the page size; an image of another size is refused
(`dumpfile_eq_description_iff`).
-/

namespace MemoryHierarchy

open Lib

/-- The image of what is described: the pages at their addresses, and zeros between them. -/
structure Description.IsImage (d : Description) (files : Path → Option (List Byte))
    (image : List Byte) : Prop where
  length : image.length = d.capacity
  pages : ∀ p ∈ d.pages (d.tables files), ∃ content, files p.2 = some content ∧
    ∀ k < pageSize, image[p.1 + k]? = content[k]?
  zero : ∀ i < d.capacity, (∀ p ∈ d.pages (d.tables files),
    ¬ (p.1 ≤ i ∧ i < p.1 + pageSize)) → image[i]? = some 0

variable {d : Description} {env : LoadEnv} {around : ByteMem} {image : List Byte}

/-- **A dump file** of whole pages is loaded byte for byte. -/
theorem memInitFromDumpfile_eq (hcalloc : env.calloc = some around) {size : BitVec 64}
    (hpages : size.toNat % pageSize = 0) (hlength : image.length = size.toNat)
    (m : Option ByteMem) (memCapacityInBytes : BitVec 64) :
    memInitFromDumpfile env (some (size, image)) m memCapacityInBytes =
      { err := .errNone
        memory := some (storeBytes (zeroed around size) 0 image)
        memCapacityInBytes := size } := by
  have htake : image.take size.toNat = image := List.take_of_length_le hlength.le
  simp only [memInitFromDumpfile, hpages, LoadEnv.callocBytes, hcalloc, Option.map_some, htake,
    hlength, ne_eq, not_true_eq_false, if_false]
  rfl

/-- An image laid over the allocated memory, and the pages laid over it. -/
theorem storeBytes_image (hfits : d.Fits env.files) (hcapacity : d.capacity ≤ 2 ^ 31)
    (himage : d.IsImage env.files image) :
    storeBytes (zeroed around (BitVec.ofNat 64 d.capacity)) 0 image =
      ((d.pages (d.tables env.files)).map (blockAt env.files)).foldl overlay
        (zeroed around (BitVec.ofNat 64 d.capacity)) := by
  obtain ⟨hpages, hrest⟩ := holds_overlays hfits hcapacity
    (zeroed around (BitVec.ofNat 64 d.capacity))
  funext i
  have hoffset : i - 0 = i := BitVec.sub_zero i
  rw [storeBytes, hoffset]
  by_cases hin : ∃ p ∈ d.pages (d.tables env.files), p.1 ≤ i.toNat ∧ i.toNat < p.1 + pageSize
  · obtain ⟨p, hp, hle, hlt⟩ := hin
    obtain ⟨k, hk⟩ := Nat.exists_eq_add_of_le hle
    obtain ⟨content, hfile, hcontent⟩ := himage.pages p hp
    obtain ⟨content', hfile', hmemory⟩ := hpages p hp
    obtain rfl := Option.some.inj (hfile'.symm.trans hfile)
    have hkpage : k < pageSize := by omega
    rw [hk, hcontent k hkpage, hmemory k hkpage, Option.getD_some, ← hk, BitVec.ofNat_toNat,
      BitVec.setWidth_eq]
  · have hout : ∀ p ∈ d.pages (d.tables env.files),
        ¬ (p.1 ≤ i.toNat ∧ i.toNat < p.1 + pageSize) := fun p hp hi => hin ⟨p, hp, hi⟩
    rw [hrest i hout]
    rcases Nat.lt_or_ge i.toNat d.capacity with hlt | hge
    · have hzero : i < BitVec.ofNat 64 d.capacity := by
        rw [BitVec.lt_def, BitVec.toNat_ofNat, Nat.mod_eq_of_lt (by omega)]
        exact hlt
      rw [himage.zero i.toNat hlt hout, zeroed, if_pos hzero, Option.getD_some]
    · rw [List.getElem?_eq_none (himage.length ▸ hge), Option.getD_none]

/-- **Image and description.** For a description that is well formed and fits, the two loaders
leave the same memory, capacity and error code if and only if the capacity is a multiple of the page
size; else the image is refused, and there is no memory. -/
theorem dumpfile_eq_description_iff (d : Description) (env : LoadEnv) (around : ByteMem)
    (image : List Byte) (hcalloc : env.calloc = some around) (hwf : d.WellFormed)
    (hfits : d.Fits env.files) (himage : d.IsImage env.files image) :
    (memInitFromDumpfile env (some (BitVec.ofNat 64 d.capacity, image)) none 0 =
        memInitFromDescription env (some (File.open d.text)) none 0 ↔
      d.capacity % pageSize = 0) ∧
    (d.capacity % pageSize ≠ 0 →
      memInitFromDumpfile env (some (BitVec.ofNat 64 d.capacity, image)) none 0 =
        { err := .errBadParameter
          memory := none
          memCapacityInBytes := BitVec.ofNat 64 d.capacity }) := by
  have hcapacity := hwf.capacity_le
  have hsize : (BitVec.ofNat 64 d.capacity).toNat = d.capacity := by
    rw [BitVec.toNat_ofNat, Nat.mod_eq_of_lt (by omega)]
  have hrefused : d.capacity % pageSize ≠ 0 →
      memInitFromDumpfile env (some (BitVec.ofNat 64 d.capacity, image)) none 0 =
        { err := .errBadParameter
          memory := none
          memCapacityInBytes := BitVec.ofNat 64 d.capacity } := by
    intro hpages
    rw [memInitFromDumpfile, hsize, if_pos hpages]
    rfl
  refine ⟨?_, hrefused⟩
  rw [memInitFromDescription_eq hwf hfits hcalloc]
  constructor
  · intro hsame
    by_contra hpages
    rw [hrefused hpages] at hsame
    cases congrArg LoadResult.err hsame
  · intro hpages
    rw [memInitFromDumpfile_eq hcalloc (hsize.symm ▸ hpages) (himage.length.trans hsize.symm),
      storeBytes_image hfits hcapacity himage]

/-- The image of three pages. -/
def threePagesImage : List Byte :=
  pageIn threeFiles [ch 'g'] ++ (pageIn threeFiles [ch 't'] ++ pageIn threeFiles [ch 'd'])

theorem isImage_threePages : threePages.IsImage threeFiles threePagesImage := by
  have hpages : threePages.pages (threePages.tables threeFiles) =
      [(0, [ch 'g']), (4096, [ch 't']), (8192, [ch 'd'])] := by decide +kernel
  have hfull : ∀ path, ∃ content, threeFiles path = some content ∧ pageSize ≤ content.length ∧
      pageIn threeFiles path = content.take pageSize := by
    intro path
    rw [pageIn, threeFiles]
    split_ifs
    · exact ⟨_, rfl, by rw [List.length_append, List.length_replicate]; exact Nat.le_add_left _ _,
        rfl⟩
    · exact ⟨_, rfl, by rw [List.length_append, List.length_replicate]; exact Nat.le_add_left _ _,
        rfl⟩
    · exact ⟨_, rfl, by rw [List.length_replicate], rfl⟩
  obtain ⟨g, hg, hglength, hgpage⟩ := hfull [ch 'g']
  obtain ⟨t, ht, htlength, htpage⟩ := hfull [ch 't']
  obtain ⟨e, he, helength, hepage⟩ := hfull [ch 'd']
  have himage : threePagesImage = g.take 4096 ++ (t.take 4096 ++ e.take 4096) := by
    rw [threePagesImage, hgpage, htpage, hepage]
  have hglen : (g.take 4096).length = 4096 := List.length_take_of_le hglength
  have htlen : (t.take 4096).length = 4096 := List.length_take_of_le htlength
  have helen : (e.take 4096).length = 4096 := List.length_take_of_le helength
  refine ⟨?_, ?_, fun i hi hout => ?_⟩
  · rw [himage, List.length_append, List.length_append, hglen, htlen, helen]
    rfl
  · rw [hpages, himage]
    simp only [List.forall_mem_cons, List.not_mem_nil, false_imp_iff, implies_true, and_true]
    refine ⟨⟨g, hg, fun k hk => ?_⟩, ⟨t, ht, fun k hk => ?_⟩, ⟨e, he, fun k hk => ?_⟩⟩
    · rw [Nat.zero_add, List.getElem?_append_left (hglen.symm ▸ hk), List.getElem?_take_of_lt hk]
    · rw [List.getElem?_append_right (hglen.symm ▸ Nat.le_add_right _ _), hglen,
        Nat.add_sub_cancel_left, List.getElem?_append_left (htlen.symm ▸ hk),
        List.getElem?_take_of_lt hk]
    · rw [List.getElem?_append_right (by omega), hglen, List.getElem?_append_right (by omega),
        htlen, show 8192 + k - 4096 - 4096 = k by omega, List.getElem?_take_of_lt hk]
  · -- the three pages leave nothing out
    have hi : i < 12288 := hi
    have h0 := hout (0, [ch 'g']) (by rw [hpages]; decide)
    have h1 := hout (4096, [ch 't']) (by rw [hpages]; decide)
    have h2 := hout (8192, [ch 'd']) (by rw [hpages]; decide)
    simp only [pageSize] at h0 h1 h2
    omega

theorem dumpfile_eq_description_three :
    memInitFromDumpfile ⟨threeFiles, some fun _ => 1, fun _ => []⟩
        (some (BitVec.ofNat 64 threePages.capacity, threePagesImage)) none 0 =
      memInitFromDescription ⟨threeFiles, some fun _ => 1, fun _ => []⟩
        (some (File.open threePages.text)) none 0 :=
  (dumpfile_eq_description_iff threePages ⟨threeFiles, some fun _ => 1, fun _ => []⟩ (fun _ => 1)
    threePagesImage rfl threePages_wellFormed threePages_fits isImage_threePages).1.mpr (by decide)

end MemoryHierarchy
