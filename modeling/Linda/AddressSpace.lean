/-
The address space umap_init makes: the kernel half of kpgdir over whatever the
page held before.
-/
import Linda.BootPaging
import Linda.ProcessPages

namespace Linda

open ByteMemory FuelLoop

/-- `kvmlist` with any of its pages taken: `kvm_init` set the addresses, and
`kmap_init` alone marks pages as mapped. -/
structure KvmList (kvmlist : Nat → VmBlock) : Prop where
  address : ∀ i < nvmBlocks, (kvmlist i).address = kernBase + i * pgSize
  mapped : ∀ i < nvmBlocks, (kvmlist i).available = true →
    i * pgSize < memNormal

/-- The directory has the kernel half of `kpgdir` and an empty user half. -/
structure EmptySpace (m : Memory) (kpgdir pgdir : Nat) : Prop where
  kernel : ∀ i, 768 ≤ i → i < 1024 → entry m pgdir i = entry m kpgdir i
  user : ∀ va < kernBase, pageWalk m (v2p pgdir) va = none

/-- Read as directory entries, the words in the user half of a page refer to
nothing: each is not present, or a table without a present entry. -/
def NoStaleEntry (m : Memory) (page : Nat) : Prop :=
  ∀ i < 768, (entry m page i).testBit 0 = true →
    (entry m page i).testBit 7 = false ∧
      ∀ j < 1024, (entry m (tableOf (entry m page i)) j).testBit 0 = false

section Status

variable {kvmlist : Nat → VmBlock} {image : Image} {ram : Memory}
  {memMap : MemMap} {k k₁ : Kernel} {page : Nat}

theorem bootedKernel_kvmList (hcount : memMap.pageCount ≤ 1048576) :
    KvmList (bootedKernel image ram memMap).kvmlist where
  address i hi := by
    simp only [bootedKernel, kvmInit, Kernel.setKvmlist_kvmlist, if_pos hi]
    simp only [nvmBlocks] at hi
    simp only [kernBase, pgSize]
    exact u32_of_lt (by omega)
  mapped i hi havail := by
    have hpage : ((bootedKernel image ram memMap).kvmlist i).address ∈
        availablePages (bootedKernel image ram memMap).kvmlist :=
      mem_availablePages.mpr ⟨i, hi, havail, rfl⟩
    obtain ⟨-, -, hhi⟩ := (bootedKernel_page hcount hpage).1.bounds
    simp only [bootedKernel, kvmInit, Kernel.setKvmlist_kvmlist, if_pos hi] at hhi
    simp only [nvmBlocks] at hi
    simp only [kernBase, pgSize, memNormal] at hhi ⊢
    rw [u32_of_lt (by omega)] at hhi
    omega

/-- A page the list hands out is a page of the direct map. -/
theorem KvmList.handedOut (h : KvmList k.kvmlist)
    (halloc : kvmAllocPage k = .ok (page, k₁)) :
    page % 4096 = 0 ∧ Direct page 4096 ∧ k₁.mem = k.mem ∧
      KvmList k₁.kvmlist := by
  rw [kvmAllocPage] at halloc
  cases hscan : kvmScan k.kvmlist VmBlock.available nvmBlocks 0 with
  | none =>
      rw [hscan] at halloc
      cases halloc
  | some i =>
      rw [hscan] at halloc
      obtain ⟨rfl, rfl⟩ := Prod.mk.inj (Except.ok.inj halloc)
      obtain ⟨-, hi, havail, -⟩ := kvmScan_some hscan
      rw [Nat.zero_add] at hi
      have hmapped := h.mapped i hi havail
      rw [h.address i hi]
      simp only [kernBase, pgSize, memNormal, Direct] at hmapped ⊢
      refine ⟨by omega, by omega, rfl, fun j hj => ?_, fun j hj hleft => ?_⟩
      · rw [← h.address j hj]
        exact (sameMapped_use k.kvmlist i j).1
      · by_cases hij : j = i
        · rw [hij]
          exact hmapped
        · rw [Kernel.setKvmlist_kvmlist, setBlock, if_neg hij] at hleft
          exact h.mapped j hj hleft

end Status

section Space

variable {k k₁ : Kernel} {m : Memory} {kpgdir page : Nat}

theorem Direct.root (h : Direct page 4096) : kernBase + v2p page = page := by
  obtain ⟨hlo, hhi⟩ := h.bounds
  simp only [v2p, sub32, kernBase]
  omega

/-- A directory copied over itself. -/
theorem copyEntries_self (hdir : Direct kpgdir 4096) (n i : Nat)
    (hn : i + n ≤ 1024) (k : Kernel) :
    copyEntries kpgdir kpgdir n i k = .ok k := by
  have hword : ∀ (m : Memory) a, store32 m a (load32 m a) = m := by
    intro m a
    rw [store32_load32]
    funext x
    simp only [copied]
    split_ifs with hx
    · rw [Nat.add_sub_cancel' hx.1]
    · rfl
  induction n generalizing i k with
  | zero => rfl
  | succ n ih =>
      rw [copyEntries, loadWord_direct (hdir.word (4 * i) (by omega)), ok_bind,
        storeWord_direct (hdir.word (4 * i) (by omega)), ok_bind, hword]
      exact ih (i + 1) (by omega) k

theorem directoryMemory_self : directoryMemory m page page = m := by
  funext x
  simp only [directoryMemory, copied]
  split_ifs with hx
  · rw [Nat.add_sub_cancel' hx.1]
  · rfl

/-- `umap_init` returns the page it is given, with the kernel half copied. -/
theorem umapInit_returns (hlist : KvmList k.kvmlist) (hdir : KernelPage kpgdir)
    (halloc : kvmAllocPage k = .ok (page, k₁)) :
    umapInit kpgdir k =
      .ok (page, k₁.setMem (directoryMemory k.mem kpgdir page)) := by
  obtain ⟨haligned, hpage, hmem, -⟩ := hlist.handedOut halloc
  have hdirAligned := hdir.aligned
  have hfrom : pdx kernBase = 768 := by decide
  have hcount : npdEntries - 768 = 256 := rfl
  have hcopy : copyEntries kpgdir page 256 768 k₁ =
      .ok (k₁.setMem (directoryMemory k.mem kpgdir page)) := by
    by_cases hsame : page = kpgdir
    · rw [hsame, copyEntries_self hdir.whole _ _ (by decide),
        directoryMemory_self, ← hmem]
      rfl
    · rw [copyEntries_direct hdir.whole hpage (by omega) _ _ (by decide), hmem]
      rfl
  rw [umapInit, halloc, ok_bind]
  dsimp only
  rw [hfrom, hcount, hcopy, ok_bind]

/-- Only the page itself changes. -/
theorem directoryMemory_other {t i : Nat} (haligned : page % 4096 = 0)
    (ht : t % 4096 = 0) (hne : t ≠ page) (hi : i < 1024) :
    entry (directoryMemory m kpgdir page) t i = entry m t i :=
  entry_congr hi fun x _ _ => copied_of_outside _ _ (by omega)

theorem tableOf_aligned (pde : Nat) : tableOf pde % 4096 = 0 := by
  rw [tableOf, and_pgMask_eq]
  simp only [kernBase]
  omega

/-- An address in the user half, by the indices of its page. -/
theorem userAddress {i j : Nat} (hi : i < 768) (hj : j < 1024) :
    ∃ va < kernBase, pdx va = i ∧ ptx va = j := by
  refine ⟨i * 4194304 + j * 4096, ?_, ?_, ?_⟩
  · simp only [kernBase]
    omega
  · rw [pdx_eq]
    omega
  · rw [ptx_eq]
    omega

/-- A table none of whose entries is present is not the page whose present
entry refers to it. -/
theorem tableOf_ne {i : Nat} (hi : i < 1024)
    (hpresent : (entry m page i).testBit 0 = true)
    (hempty : ∀ j < 1024,
      (entry m (tableOf (entry m page i)) j).testBit 0 = false) :
    tableOf (entry m page i) ≠ page := by
  intro hself
  have hnot := hempty i hi
  rw [hself, hpresent] at hnot
  cases hnot

/-- The walk below a small entry without a present table entry. -/
theorem walkEntry_none_iff {pde va : Nat} (hpresent : pde.testBit 0 = true) :
    walkEntry m pde va = none ↔ pde.testBit 7 = false ∧
      (entry m (tableOf pde) (ptx va)).testBit 0 = false := by
  rw [walkEntry, if_pos hpresent]
  by_cases hlarge : pde.testBit 7 = true
  · simp [hlarge]
  · simp [hlarge, leaf]

/-- The user half maps nothing exactly when the page held no stale entry. -/
theorem directoryMemory_user_iff (haligned : page % 4096 = 0)
    (hpage : Direct page 4096) :
    (∀ va < kernBase,
      pageWalk (directoryMemory m kpgdir page) (v2p page) va = none) ↔
        NoStaleEntry m page := by
  have hwalk : ∀ va < kernBase,
      pageWalk (directoryMemory m kpgdir page) (v2p page) va =
        walkEntry (directoryMemory m kpgdir page) (entry m page (pdx va)) va := by
    intro va hva
    have hlow : pdx va < 768 := by
      rw [pdx_eq]
      simp only [kernBase] at hva
      omega
    rw [pageWalk, hpage.root, directoryMemory_user hlow]
  constructor
  · intro hempty i hi hpresent
    have hnone : ∀ j < 1024, (entry m page i).testBit 7 = false ∧
        (entry (directoryMemory m kpgdir page) (tableOf (entry m page i))
          j).testBit 0 = false := by
      intro j hj
      obtain ⟨va, hva, rfl, rfl⟩ := userAddress hi hj
      have hva' := hempty va hva
      rw [hwalk va hva] at hva'
      exact (walkEntry_none_iff hpresent).mp hva'
    refine ⟨(hnone 0 (by decide)).1, fun j hj => ?_⟩
    have hne : tableOf (entry m page i) ≠ page := by
      intro hself
      have hnot := (hnone i (by omega)).2
      rw [hself, directoryMemory_user hi, hpresent] at hnot
      cases hnot
    rw [← directoryMemory_other haligned (tableOf_aligned _) hne hj]
    exact (hnone j hj).2
  · intro hstale va hva
    have hlow : pdx va < 768 := by
      rw [pdx_eq]
      simp only [kernBase] at hva
      omega
    rw [hwalk va hva]
    by_cases hpresent : (entry m page (pdx va)).testBit 0 = true
    · obtain ⟨hsmall, htable⟩ := hstale _ hlow hpresent
      have hne := tableOf_ne (by omega) hpresent htable
      refine (walkEntry_none_iff hpresent).mpr ⟨hsmall, ?_⟩
      rw [directoryMemory_other haligned (tableOf_aligned _) hne (ptx_lt va)]
      exact htable _ (ptx_lt va)
    · rw [walkEntry, if_neg hpresent]

theorem directoryMemory_half {i : Nat} (haligned : page % 4096 = 0)
    (hdir : KernelPage kpgdir) (hlo : 768 ≤ i) (hhi : i < 1024) :
    entry (directoryMemory m kpgdir page) page i =
      entry (directoryMemory m kpgdir page) kpgdir i := by
  rw [directoryMemory_kernel hlo hhi]
  by_cases hsame : page = kpgdir
  · rw [hsame, directoryMemory_self]
  · rw [directoryMemory_other haligned hdir.aligned (Ne.symm hsame) hhi]

/-- `umap_init` never clears the user half: the new address space is empty
exactly when the page had no entry to leave in it. -/
theorem umapInit_empty_iff (hlist : KvmList k.kvmlist)
    (hdir : KernelPage kpgdir) (halloc : kvmAllocPage k = .ok (page, k₁)) :
    ∃ k', umapInit kpgdir k = .ok (page, k') ∧
      (EmptySpace k'.mem kpgdir page ↔ NoStaleEntry k.mem page) := by
  obtain ⟨haligned, hpage, -, -⟩ := hlist.handedOut halloc
  refine ⟨_, umapInit_returns hlist hdir halloc, ?_⟩
  rw [Kernel.setMem_mem, ← directoryMemory_user_iff haligned hpage]
  exact ⟨fun h => h.user, fun h =>
    ⟨fun i hlo hhi => directoryMemory_half haligned hdir hlo hhi, h⟩⟩

end Space

/-- The first page the small kernel hands out. -/
theorem smallKernel_alloc (ram : Memory) :
    ∃ k₁, kvmAllocPage (smallKernel ram 2) = .ok (0xC05E0000, k₁) := by
  have hscan : kvmScan (smallKernel (fun _ => 0) 2).kvmlist VmBlock.available
      nvmBlocks 0 = some 1504 := by decide +kernel
  have haddr : ((smallKernel (fun _ => 0) 2).kvmlist 1504).address =
      0xC05E0000 := by decide +kernel
  have hsame : (smallKernel ram 2).kvmlist =
      (smallKernel (fun _ => 0) 2).kvmlist := rfl
  simp only [kvmAllocPage, hsame, hscan, haddr]
  exact ⟨_, rfl⟩

theorem smallKernel_kvmList (ram : Memory) :
    KvmList (smallKernel ram 2).kvmlist := bootedKernel_kvmList (by decide)

/-- Out of zeroed memory the new address space is empty. -/
theorem umapInit_empty_zeroed :
    ∃ k', umapInit smallImage.kpgdir (smallKernel (fun _ => 0) 2) =
        .ok (0xC05E0000, k') ∧
      EmptySpace k'.mem smallImage.kpgdir 0xC05E0000 := by
  obtain ⟨k₁, halloc⟩ := smallKernel_alloc fun _ => 0
  obtain ⟨k', hinit, hiff⟩ := umapInit_empty_iff
    (smallKernel_kvmList fun _ => 0) smallImage.kpgdir_page halloc
  refine ⟨k', hinit, hiff.mpr fun i hi hpresent => ?_⟩
  have hzero : entry (smallKernel (fun _ => 0) 2).mem 0xC05E0000 i = 0 :=
    load32_eq_zero fun x hlo _ =>
      @directMemory_behind smallImage (fun _ => 0) x
        (Nat.le_trans (by simp only [smallImage]; omega) hlo)
  rw [hzero] at hpresent
  cases hpresent

/-- Memory that held a large user page, mapped to frame 0, in the first word of
the page `kvm_alloc_page` hands out first. -/
def staleDirectory : Memory := store32 (fun _ => 0) 0xC05E0000 0x87

/-- A process made after the boot that reads and writes frame 0. -/
theorem stale_entry_maps :
    ¬ ∀ (k k' : Kernel) (kpgdir page : Nat), KvmList k.kvmlist →
      KernelPage kpgdir → umapInit kpgdir k = .ok (page, k') →
      EmptySpace k'.mem kpgdir page := by
  intro hall
  obtain ⟨k₁, halloc⟩ := smallKernel_alloc staleDirectory
  have hlist := smallKernel_kvmList staleDirectory
  have hempty := hall _ _ _ _ hlist smallImage.kpgdir_page
    (umapInit_returns hlist smallImage.kpgdir_page halloc)
  have hwalk : pageWalk (directoryMemory (smallKernel staleDirectory 2).mem
      smallImage.kpgdir 0xC05E0000) (v2p 0xC05E0000) 0 = some ⟨0, true, true⟩ := by
    decide +kernel
  have hnone := hempty.user 0 (by decide)
  rw [Kernel.setMem_mem, hwalk] at hnone
  cases hnone

end Linda
