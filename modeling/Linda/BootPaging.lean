/-
The paging state the boot leaves: one directory over the tables of the direct
map, an empty heap and an empty list of mappings.
-/
import Linda.BootState

namespace Linda

open ByteMemory FuelLoop

section Paging

variable {image : Image} {ram : Memory} {memMap : MemMap} {i j : Nat}

theorem dirWord_lt : dirWord image i < 4294967296 := by
  rw [dirWord]
  split_ifs
  · exact pteWord_lt (by omega)
  · decide

theorem tblWord_lt : tblWord i j < 4294967296 := by
  rw [tblWord]
  split_ifs
  · exact pteWord_lt (by omega)
  · decide

theorem directMemory_dir (hi : i < 1024) :
    entry (directMemory image ram) image.kpgdir i = dirWord image i := by
  refine load32_of_bytes dirWord_lt fun j hj => ?_
  have hin : image.kpgdir ≤ image.kpgdir + 4 * i + j ∧
      image.kpgdir + 4 * i + j < image.kpgdir + 4096 := by omega
  have hword : (image.kpgdir + 4 * i + j - image.kpgdir) / 4 = i := by omega
  have hbyte : (image.kpgdir + 4 * i + j - image.kpgdir) % 4 = j := by omega
  rw [directMemory, if_pos hin, hword, hbyte]

theorem directMemory_tbl (hi : i < 1024) (hj : j < 1024) :
    entry (directMemory image ram) (image.table i) j = tblWord i j := by
  refine load32_of_bytes tblWord_lt fun b hb => ?_
  have hap := image.apart
  simp only [Image.table]
  have hout : ¬ (image.kpgdir ≤ image.kpgtbl + 4096 * i + 4 * j + b ∧
      image.kpgtbl + 4096 * i + 4 * j + b < image.kpgdir + 4096) := by omega
  have hin : image.kpgtbl ≤ image.kpgtbl + 4096 * i + 4 * j + b ∧
      image.kpgtbl + 4096 * i + 4 * j + b < image.kpgtbl + 4194304 := by omega
  have htable : (image.kpgtbl + 4096 * i + 4 * j + b - image.kpgtbl) / 4096 = i := by
    omega
  have hword : (image.kpgtbl + 4096 * i + 4 * j + b - image.kpgtbl) % 4096 / 4 =
      j := by omega
  have hbyte : (image.kpgtbl + 4096 * i + 4 * j + b - image.kpgtbl) % 4 = b := by
    omega
  rw [directMemory, if_neg hout, if_pos hin, htable, hword, hbyte]

theorem directMemory_behind {x : Nat} (hx : image.kernEnd ≤ x) :
    directMemory image ram x = ram x := by
  have hdir := image.kpgdir_hi
  have htbl := image.kpgtbl_hi
  rw [directMemory, if_neg (by omega), if_neg (by omega)]

/-- The directory, the tables of the direct map, and nothing in the heap. -/
def bootPaging (image : Image) : Paging where
  roots := [image.kpgdir]
  tables := (List.range 224).map fun i => image.table (768 + i)
  chunks := []
  pages := []
  nodes := []

theorem mem_bootTables {t : Nat} : t ∈ (bootPaging image).tables ↔
    ∃ i < 224, image.table (768 + i) = t := by
  simp only [bootPaging, List.mem_map, List.mem_range]

/-- The pages behind the kernel and the list of frames. -/
theorem bootedKernel_page (hcount : memMap.pageCount ≤ 1048576) {page : Nat}
    (h : page ∈ availablePages (bootedKernel image ram memMap).kvmlist) :
    KernelPage page ∧ image.kernEnd + memMap.pageCount * 4 < page := by
  obtain ⟨i, hi, havail, rfl⟩ := mem_availablePages.mp h
  obtain ⟨-, hlo, -, hhi, hend⟩ := image.bounds
  have hkern : virtKernAddr image memMap =
      image.kernEnd + memMap.pageCount * 4 := u32_of_lt (by omega)
  simp only [nvmBlocks] at hi
  have hlist : (bootedKernel image ram memMap).kvmlist i =
      ⟨u32 (kernBase + i * pgSize),
        if p2v (i * pgSize) ≤ virtKernAddr image memMap then
          (if i < 229376 then ⟨p2v (i * 4096), vmMapped⟩ else
            (⟨0, 0⟩ : VmBlock)).status ||| (vmUsed ||| vmMapped)
        else (if i < 229376 then ⟨p2v (i * 4096), vmMapped⟩ else
          (⟨0, 0⟩ : VmBlock)).status⟩ := if_pos hi
  rw [hlist] at havail ⊢
  have haddr : u32 (kernBase + i * pgSize) = 3221225472 + i * 4096 := by
    simp only [kernBase, pgSize]
    exact u32_of_lt (by omega)
  have hvirt : p2v (i * pgSize) = 3221225472 + i * 4096 := by
    rw [p2v, Nat.add_comm]
    exact haddr
  dsimp only
  rw [haddr]
  rw [hvirt, hkern] at havail
  dsimp only [VmBlock.available] at havail
  by_cases hbehind : 3221225472 + i * 4096 ≤ image.kernEnd + memMap.pageCount * 4
  · rw [if_pos hbehind] at havail
    split_ifs at havail
    · dsimp only at havail
      exact absurd havail (by decide)
    · exact absurd havail (by decide)
  · rw [if_neg hbehind] at havail
    by_cases hdirect : i < 229376
    · refine ⟨⟨by omega, ?_, ?_⟩, by omega⟩
      · simp only [kernBase, pgSize]
        omega
      · simp only [kernBase, pgSize, memNormal]
        omega
    · rw [if_neg hdirect] at havail
      exact absurd havail (by decide)

theorem bootPaging_pool (hcount : memMap.pageCount ≤ 1048576) :
    PagePool (bootPaging image).fixed []
      (availablePages (bootedKernel image ram memMap).kvmlist) := by
  have hfixed : ∀ page ∈ (bootPaging image).fixed,
      KernelPage page ∧ page ≤ image.kernEnd := by
    intro page hpage
    rcases List.mem_append.mp hpage with hroot | htable
    · obtain rfl := List.mem_singleton.mp hroot
      have hhi := image.kpgdir_hi
      exact ⟨image.kpgdir_page, by omega⟩
    · obtain ⟨i, hi, rfl⟩ := mem_bootTables.mp htable
      have hhi := image.kpgtbl_hi
      refine ⟨image.table_page (by omega), ?_⟩
      simp only [Image.table]
      omega
  have hnodup : (bootPaging image).fixed.Nodup := by
    refine List.nodup_cons.mpr ⟨?_, ?_⟩
    · intro hin
      obtain ⟨i, hi, heq⟩ := mem_bootTables.mp hin
      exact image.table_ne_kpgdir (by omega) heq
    · refine List.Nodup.map_on ?_ List.nodup_range
      intro i _ j _ heq
      have hsame := image.table_inj.mp heq
      omega
  constructor
  · rw [List.nil_append]
    refine List.nodup_append.mpr ⟨hnodup, availablePages_nodup ?_, ?_⟩
    · intro i hi
      have hlist : ((bootedKernel image ram memMap).kvmlist i).address =
          u32 (kernBase + i * pgSize) := by
        simp only [bootedKernel, kvmInit, Kernel.setKvmlist_kvmlist, if_pos hi]
      rw [hlist]
      simp only [nvmBlocks] at hi
      simp only [kernBase, pgSize]
      exact u32_of_lt (by omega)
    · rintro page hpage _ hfresh rfl
      have hlo := (bootedKernel_page hcount hfresh).2
      have hhi := (hfixed page hpage).2
      omega
  · rw [List.nil_append]
    intro page hpage
    rcases List.mem_append.mp hpage with hpage | hpage
    · exact (hfixed page hpage).1
    · exact (bootedKernel_page hcount hpage).1

/-- The paging state after the boot. -/
theorem bootedKernel_paging (hcount : memMap.pageCount ≤ 1048576) :
    PagingAt (bootedKernel image ram memMap) (bootPaging image) where
  heap := ⟨⟨rfl, by simp [bootPaging]⟩, ⟨by simp [bootPaging], fun _ => rfl,
    by simp [bootPaging]⟩⟩
  pool := bootPaging_pool hcount
  forest := by
    have hentry : ∀ i < 1024, entry (bootedKernel image ram memMap).mem
        image.kpgdir i = dirWord image i := fun i hi => directMemory_dir hi
    have htable : ∀ i, 768 ≤ i ∧ i < 992 →
        tableOf (dirWord image i) = image.table i := by
      intro i hi
      rw [dirWord, if_pos hi]
      exact (image.table_page (by omega)).pde (by decide)
    constructor
    · intro d hd i hi
      obtain rfl := List.mem_singleton.mp hd
      rw [hentry i hi]
      by_cases hused : 768 ≤ i ∧ i < 992
      · rw [htable i hused]
        exact Or.inr (mem_bootTables.mpr
          ⟨i - 768, by omega, by rw [Nat.add_sub_cancel' hused.1]⟩)
      · exact Or.inl (if_neg hused)
    · intro d hd d' hd' i hi i' hi' hne hne' heq
      obtain rfl := List.mem_singleton.mp hd
      obtain rfl := List.mem_singleton.mp hd'
      rw [hentry i hi] at hne heq
      rw [hentry i' hi'] at hne' heq
      have hused : 768 ≤ i ∧ i < 992 := by
        by_contra hnot
        exact hne (if_neg hnot)
      have hused' : 768 ≤ i' ∧ i' < 992 := by
        by_contra hnot
        exact hne' (if_neg hnot)
      rw [htable i hused, htable i' hused'] at heq
      exact ⟨image.table_inj.mp heq, Or.inl rfl⟩
  list := ⟨rfl, by simp [bootPaging], by simp [bootPaging], List.nodup_nil⟩

theorem bootedKernel_zeroed (hcount : memMap.pageCount ≤ 1048576)
    (hzero : ∀ x, image.kernEnd ≤ x → ram x = 0) :
    Zeroed (bootedKernel image ram memMap) (bootPaging image).chunks := by
  refine ⟨by simp [FreeZeroed, bootPaging], fun page hpage x hx => ?_⟩
  have hlo := (bootedKernel_page hcount hpage).2
  have hx' := (pageExtent_iff.mp hx).1
  exact (directMemory_behind (by omega)).trans (hzero x (by omega))

theorem bootedKernel_plain :
    AllPlain (bootedKernel image ram memMap).mem (bootPaging image).roots := by
  intro d hd i hi
  obtain rfl := List.mem_singleton.mp hd
  have hentry : entry (bootedKernel image ram memMap).mem image.kpgdir i =
      dirWord image i := directMemory_dir hi
  rw [hentry, dirWord]
  split_ifs
  · exact Or.inr (pteWord_plain (by decide))
  · exact Or.inl rfl

/-- `kpgdir` maps the direct map and nothing else. -/
theorem directMemory_walk {va : Nat} (hva : va < 4294967296) :
    pageWalk (directMemory image ram) (v2p image.kpgdir) va =
      if kernBase ≤ va ∧ va < kernBase + memNormal then
        some ⟨(va - kernBase) &&& pgMask, true, false⟩
      else none := by
  have hpdx : pdx va = va / 4194304 := by
    rw [pdx_eq]
    omega
  have hptx := ptx_eq va
  rw [pageWalk_root image.kpgdir_page, directMemory_dir (pdx_lt va)]
  by_cases hin : kernBase ≤ va ∧ va < kernBase + memNormal
  · rw [if_pos hin]
    simp only [kernBase, memNormal] at hin
    have hused : 768 ≤ pdx va ∧ pdx va < 992 := by omega
    have hpage := image.table_page (pdx_lt va)
    have hplain : PlainEntry (pteWord (v2p (image.table (pdx va))) 0) :=
      pteWord_plain (by decide)
    have hframe : ((pdx va - 768) * 1024 + ptx va) * 4096 &&& pgMask =
        (va - kernBase) &&& pgMask := by
      rw [and_pgMask_eq, and_pgMask_eq, kernBase]
      omega
    rw [dirWord, if_pos hused, hplain.walk, hpage.pde (by decide),
      directMemory_tbl (pdx_lt va) (ptx_lt va), tblWord, if_pos hused,
      leaf_pteWord hplain (by decide), hframe]
    simp
  · rw [if_neg hin]
    simp only [kernBase, memNormal] at hin
    rw [dirWord, if_neg (by omega), walkEntry_zero]

theorem bootedKernel_walk {va : Nat} (hva : va < 4294967296) :
    pageWalk (bootedKernel image ram memMap).mem (v2p image.kpgdir) va =
      if kernBase ≤ va ∧ va < kernBase + memNormal then
        some ⟨(va - kernBase) &&& pgMask, true, false⟩
      else none :=
  directMemory_walk hva

end Paging

section Frames

variable {image : Image} {ram : Memory} {slots : Int → Nat}
  {bounds : Nat × Nat} {entries : List MmapEntry} {fuel : Nat} {left : Int}

/-- The boot returns, with the frames above the direct map in the allocator. -/
theorem boot_eq (hslot : slots 0 = 0) (hloaded : Loaded image ram)
    (hpos : 0 < (frameBounds image bounds entries).1)
    (hle : (frameBounds image bounds entries).1 ≤
      (frameBounds image bounds entries).2)
    (hlo : 1 ≤ left) (hhi : left ≤ frameCount image bounds entries)
    (habove : memNormal ≤ lowestFrame (frameBounds image bounds entries).1
      (frameCount image bounds entries) left)
    (hbelow : lowestFrame (frameBounds image bounds entries).1
      (frameCount image bounds entries) (left + 1) < memNormal)
    (hfuel : 1048576 < fuel) :
    boot image bounds entries fuel (loadedKernel image ram slots) =
      .ok (bootedKernel image ram
        (initialFrames image bounds entries slots left)) := by
  obtain ⟨hstart, haligned, -, -⟩ := @frameBounds_aligned image bounds entries
  have hlast : memNormal ≤ (frameBounds image bounds entries).2 := by
    simp only [lowestFrame, frameCount] at habove hhi
    omega
  obtain ⟨k, hboot⟩ :=
    @boot_returns image ram slots bounds entries fuel hloaded hpos hle hlast hfuel
  obtain ⟨left', hmap, hframes, hlo', hnext⟩ := boot_frames hslot hloaded hboot
  have habove' := hframes.above hlo'
  have hhi' := hframes.hi
  obtain rfl : left' = left := by
    simp only [lowestFrame] at habove hbelow habove' hnext
    omega
  obtain ⟨memMap, rfl, -⟩ := boot_ok hloaded hboot
  obtain rfl : memMap = _ := hmap
  exact hboot

end Frames

/-- A machine whose memory is zero where the loader puts nothing. -/
structure ZeroMemory (image : Image) (ram : Memory) (slots : Int → Nat) :
    Prop where
  loaded : Loaded image ram
  behind : ∀ x, image.kernEnd ≤ x → ram x = 0
  slot : slots 0 = 0

/-- A kernel image of five megabytes. -/
def smallImage : Image where
  kpgdir := 0xC0100000
  kpgtbl := 0xC0101000
  kernEnd := 0xC0501000
  bootPgdir := 0x100000
  kpgdir_aligned := by decide
  kpgtbl_aligned := by decide
  kpgdir_lo := by decide
  kpgtbl_lo := by decide
  kpgdir_hi := by decide
  kpgtbl_hi := by decide
  apart := by decide
  kernEnd_hi := by decide

/-- A machine with two frames above the direct map. -/
def smallMap : List MmapEntry := [⟨extMem, 0x37F01000, memoryAvailable⟩]

/-- The small image after its boot. -/
def smallKernel (ram : Memory) (left : Int) : Kernel :=
  bootedKernel smallImage ram (frameMap (fun _ => 0) 0x501000 228097 left)

theorem smallImage_zero : ZeroMemory smallImage (fun _ => 0) fun _ => 0 :=
  ⟨⟨fun _ _ => rfl, fun _ _ _ => rfl⟩, fun _ _ => rfl, rfl⟩

theorem smallKernel_boot {ram : Memory} (hloaded : Loaded smallImage ram) :
    boot smallImage (0, 0) smallMap 1048577
      (loadedKernel smallImage ram fun _ => 0) = .ok (smallKernel ram 2) := by
  have hfirst : (frameBounds smallImage (0, 0) smallMap).1 = 0x501000 := by decide
  have hlast : (frameBounds smallImage (0, 0) smallMap).2 = 0x38001000 := by decide
  have hcount : frameCount smallImage (0, 0) smallMap = 228097 := by
    rw [frameCount, hfirst, hlast]
  have hboot := @boot_eq smallImage ram (fun _ => 0) (0, 0) smallMap 1048577 2 rfl
    hloaded (by rw [hfirst]; decide) (by rw [hfirst, hlast]; decide) (by decide)
    (by rw [hcount]; decide) (by rw [hfirst, hcount]; decide)
    (by rw [hfirst, hcount]; decide) (by decide)
  rw [initialFrames, hfirst, hcount] at hboot
  exact hboot

end Linda
