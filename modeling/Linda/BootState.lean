/-
What the boot leaves: the direct map in the walks of `kpgdir`, the frames
above it in the allocator, and the kernel pages behind the image unused.
-/
import Linda.Boot
import Linda.MapList

namespace Linda

open ByteMemory FuelLoop

/-- The page table of `kpgtbl` below directory entry `i`. -/
def Image.table (image : Image) (i : Nat) : Nat := image.kpgtbl + 4096 * i

/-- `n` pages of the direct map are mapped. -/
structure IdentityAt (image : Image) (k₀ k : Kernel) (n : Nat) : Prop where
  dir : ∀ i < 1024, entry k.mem image.kpgdir i =
    if 768 ≤ i ∧ (i - 768) * 1024 < n then pteWord (v2p (image.table i)) 0
    else 0
  tbl : ∀ i < 1024, ∀ j < 1024, entry k.mem (image.table i) j =
    if 768 ≤ i ∧ (i - 768) * 1024 + j < n then
      pteWord (((i - 768) * 1024 + j) * 4096) 0
    else 0
  outside : ∀ x, x < image.kpgdir ∨ image.kpgdir + 4096 ≤ x →
    x < image.kpgtbl ∨ image.kpgtbl + 4194304 ≤ x → k.mem x = k₀.mem x
  kvmlist : ∀ i, k.kvmlist i =
    if i < n then ⟨p2v (i * 4096), vmMapped⟩ else ⟨0, 0⟩
  same : ∃ m kvmlist, k = (k₀.setKvmlist kvmlist).setMem m

namespace Image

variable (image : Image) {i j : Nat}

theorem bounds : 3222274048 ≤ image.kpgdir ∧ 3222274048 ≤ image.kpgtbl ∧
    image.kpgdir + 4096 ≤ image.kernEnd ∧
    image.kpgtbl + 4194304 ≤ image.kernEnd ∧
    image.kernEnd ≤ 3233808384 := by
  have hdir := image.kpgdir_lo
  have htbl := image.kpgtbl_lo
  have hend := image.kernEnd_hi
  simp only [kernBase, extMem] at hdir htbl hend
  exact ⟨hdir, htbl, image.kpgdir_hi, image.kpgtbl_hi, hend⟩

theorem kpgdir_page : KernelPage image.kpgdir := by
  obtain ⟨hdir, _, hdirEnd, _, hend⟩ := image.bounds
  refine ⟨image.kpgdir_aligned, ?_, ?_⟩
  · simp only [kernBase, pgSize]
    omega
  · simp only [kernBase, pgSize, memNormal]
    omega

theorem table_page (hi : i < 1024) : KernelPage (image.table i) := by
  obtain ⟨_, htbl, _, htblEnd, hend⟩ := image.bounds
  have haligned := image.kpgtbl_aligned
  refine ⟨?_, ?_, ?_⟩
  · simp only [table]
    omega
  · simp only [table, kernBase, pgSize]
    omega
  · simp only [table, kernBase, pgSize, memNormal]
    omega

theorem table_ne_kpgdir (hi : i < 1024) : image.table i ≠ image.kpgdir := by
  have hapart := image.apart
  simp only [table]
  omega

theorem table_inj : image.table i = image.table j ↔ i = j := by
  simp only [table]
  omega

end Image

section Identity

variable {image : Image} {k₀ k : Kernel} {n : Nat}

theorem pdx_direct (hn : n < 229376) :
    pdx (p2v (n * 4096)) = 768 + n / 1024 := by
  rw [pdx_eq, p2v, kernBase, u32_of_lt (by omega)]
  omega

theorem ptx_direct (hn : n < 229376) : ptx (p2v (n * 4096)) = n % 1024 := by
  rw [ptx_eq, p2v, kernBase, u32_of_lt (by omega)]
  omega

/-- The kernel's pages before any is mapped. -/
theorem identityAt_zero (hdir : ∀ x ∈ pageExtent image.kpgdir, k₀.mem x = 0)
    (htbl : ∀ x, image.kpgtbl ≤ x → x < image.kpgtbl + 4194304 → k₀.mem x = 0)
    (hkvm : k₀.kvmlist = fun _ => ⟨0, 0⟩) : IdentityAt image k₀ k₀ 0 where
  dir i hi := by
    rw [if_neg (by omega)]
    exact load32_eq_zero fun x hlo hhi => hdir x (pageExtent_iff.mpr (by omega))
  tbl i hi j hj := by
    rw [if_neg (by omega)]
    exact load32_eq_zero fun x hlo hhi => by
      simp only [Image.table] at hlo hhi
      exact htbl x (by omega) (by omega)
  outside _ _ _ := rfl
  kvmlist i := by rw [hkvm, if_neg (Nat.not_lt_zero i)]
  same := ⟨k₀.mem, k₀.kvmlist, rfl⟩

/-- The directory entry and the table the round works with. -/
theorem IdentityAt.table (h : IdentityAt image k₀ k n) (hn : n < 229376) :
    ∃ m₁, bootTable image k.mem (768 + n / 1024) =
        (image.table (768 + n / 1024), m₁) ∧
      (∀ i < 1024, entry m₁ image.kpgdir i = if i = 768 + n / 1024 then
        pteWord (v2p (image.table i)) 0 else entry k.mem image.kpgdir i) ∧
      ∀ x, x < image.kpgdir ∨ image.kpgdir + 4096 ≤ x → m₁ x = k.mem x := by
  have hi : 768 + n / 1024 < 1024 := by omega
  have hpage := image.table_page hi
  have hdir := h.dir _ hi
  have haligned := image.kpgdir_aligned
  by_cases hused : 768 ≤ 768 + n / 1024 ∧ (768 + n / 1024 - 768) * 1024 < n
  · -- the table is there already
    rw [if_pos hused] at hdir
    refine ⟨k.mem, ?_, ?_, fun _ _ => rfl⟩
    · have hmask : pteWord (v2p (image.table (768 + n / 1024))) 0 &&& pgMask =
          v2p (image.table (768 + n / 1024)) := by
        rw [pteWord_mask (by omega), hpage.mask]
      obtain ⟨_, hlo, hhi⟩ := hpage.bounds
      have hroot := hpage.root
      simp only [kernBase] at hroot
      have hne : v2p (image.table (768 + n / 1024)) ≠ 0 := by omega
      have hback : p2v (v2p (image.table (768 + n / 1024))) =
          image.table (768 + n / 1024) := by
        rw [p2v, kernBase, u32_of_lt (by omega)]
        omega
      simp only [bootTable, hdir, hmask, hne, ↓reduceIte, hback]
    · intro i hi'
      split_ifs with heq
      · rw [heq]
        exact hdir
      · rfl
  · rw [if_neg hused] at hdir
    refine ⟨setEntry k.mem image.kpgdir (768 + n / 1024)
      (pteWord (v2p (image.table (768 + n / 1024))) 0), ?_, ?_, ?_⟩
    · simp only [bootTable, hdir, Nat.zero_and, ↓reduceIte, Image.table]
    · intro i hi'
      split_ifs with heq
      · rw [heq, entry_setEntry_same]
        exact Nat.mod_eq_of_lt (pteWord_lt (by omega))
      · exact entry_setEntry_of_ne haligned haligned hi hi' (Or.inr heq)
    · intro x hx
      exact store32_of_outside _ _ (by omega)

theorem p2v_direct (hn : n < 229376) :
    p2v (n * 4096) = kernBase + n * 4096 := by
  rw [p2v, kernBase, u32_of_lt (by omega), Nat.add_comm]

theorem sub32_direct (hn : n < 229376) :
    sub32 (p2v (n * 4096)) kernBase = n * 4096 := by
  rw [p2v_direct hn]
  simp only [kernBase]
  rw [sub32_of_le] <;> omega

theorem next_direct (hn : n < 229376) :
    u32 (n * 4096 + pgSize) = (n + 1) * 4096 := by
  have hlt : n * 4096 + 4096 < 4294967296 := by omega
  rw [pgSize, u32_of_lt hlt, Nat.succ_mul]

theorem setBlock_setBlock (kvmlist : Nat → VmBlock) (i : Nat)
    (block block' : VmBlock) :
    setBlock (setBlock kvmlist i block) i block' =
      setBlock kvmlist i block' := by
  funext j
  simp only [setBlock]
  split_ifs <;> rfl

/-- A page that enters the list of kernel pages: mapped and not used. -/
theorem kvm_mapped (k : Kernel) {addr idx : Nat}
    (hsize : sub32 addr kernBase < kernSize)
    (hidx : sub32 addr kernBase / pgSize = idx)
    (haddr : p2v (idx * pgSize) = addr) (hblank : k.kvmlist idx = ⟨0, 0⟩) :
    (kvmMapPage k addr >>= fun k => kvmFreePage k addr) =
        .ok (k.setKvmlist (setBlock k.kvmlist idx ⟨addr, vmMapped⟩)) := by
  have hstatus : (0 ||| vmMapped) &&& ~~~vmUsed = vmMapped := by decide
  have hat : ∀ block, setBlock k.kvmlist idx block idx = block :=
    fun _ => if_pos rfl
  have hin : ¬ kernSize ≤ sub32 addr kernBase := by omega
  have hmap : kvmMapPage k addr =
      .ok (k.setKvmlist (setBlock k.kvmlist idx ⟨0, 0 ||| vmMapped⟩)) := by
    simp only [kvmMapPage, hin, ↓reduceIte, hidx, hblank]
  rw [hmap, ok_bind]
  simp only [kvmFreePage, hin, ↓reduceIte, hidx, haddr,
    Kernel.setKvmlist_kvmlist, hat, hstatus, setBlock_setBlock,
    Kernel.setKvmlist_setKvmlist]

/-- One round maps one page. -/
theorem IdentityAt.round (h : IdentityAt image k₀ k n) (hn : n < 229376) :
    ∃ k', identityBody image (k, n * 4096) = .ok (.inl (k', (n + 1) * 4096)) ∧
      IdentityAt image k₀ k' (n + 1) := by
  obtain ⟨m₁, htable, hdir, hout⟩ := h.table hn
  have hi : 768 + n / 1024 < 1024 := by omega
  have hj : n % 1024 < 1024 := by omega
  have haligned := image.kpgdir_aligned
  let m₂ := setEntry m₁ (image.table (768 + n / 1024)) (n % 1024)
    (pteWord (n * 4096) 0)
  let kvmlist' := setBlock k.kvmlist n ⟨p2v (n * 4096), vmMapped⟩
  have hkvm : (kvmMapPage (k.setMem m₂) (p2v (n * 4096)) >>= fun k =>
      kvmFreePage k (p2v (n * 4096))) =
        .ok ((k.setKvmlist kvmlist').setMem m₂) := by
    apply kvm_mapped (k.setMem m₂)
    · rw [sub32_direct hn, kernSize]
      omega
    · rw [sub32_direct hn]
      exact Nat.mul_div_cancel n (by decide)
    · rfl
    · rw [Kernel.setMem_kvmlist, h.kvmlist, if_neg (Nat.lt_irrefl n)]
  refine ⟨(k.setKvmlist kvmlist').setMem m₂, ?_, ?_, ?_, ?_, ?_, ?_⟩
  · have hlow : n * 4096 < memNormal := by
      simp only [memNormal]
      omega
    have hround : identityBody image (k, n * 4096) =
        ((kvmMapPage (k.setMem m₂) (p2v (n * 4096)) >>= fun k =>
          kvmFreePage k (p2v (n * 4096))) >>= fun k =>
            .ok (.inl (k, (n + 1) * 4096))) := by
      simp only [identityBody, if_pos hlow, pdx_direct hn, ptx_direct hn,
        htable, bind_assoc, next_direct hn, m₂]
    rw [hround, hkvm, ok_bind]
  · intro i hi'
    have hkeep := entry_setEntry_of_ne (m := m₁) (v := pteWord (n * 4096) 0)
      (image.table_page hi).aligned haligned hj hi'
      (Or.inl (image.table_ne_kpgdir hi).symm)
    rw [Kernel.setMem_mem, hkeep, hdir i hi', h.dir i hi']
    split_ifs <;> first | rfl | omega
  · intro i hi' j hj'
    have hold : entry m₁ (image.table i) j = entry k.mem (image.table i) j :=
      entry_congr hj' fun x hlo hhi => by
        have hap := image.apart
        simp only [Image.table] at hlo hhi
        exact hout x (by omega)
    rw [Kernel.setMem_mem]
    by_cases hat : i = 768 + n / 1024 ∧ j = n % 1024
    · obtain ⟨rfl, rfl⟩ := hat
      have hidx : (768 + n / 1024 - 768) * 1024 + n % 1024 = n := by omega
      rw [entry_setEntry_same, if_pos (by omega), hidx]
      exact Nat.mod_eq_of_lt (pteWord_lt (by omega))
    · have hne : image.table i ≠ image.table (768 + n / 1024) ∨ j ≠ n % 1024 := by
        rw [Ne, Image.table_inj]
        omega
      rw [entry_setEntry_of_ne (image.table_page hi).aligned
        (image.table_page hi').aligned hj hj' hne, hold, h.tbl i hi' j hj']
      exact if_congr (by omega) rfl rfl
  · intro x hx hx'
    have hstore : m₂ x = m₁ x := store32_of_outside _ _ (by
      simp only [Image.table]
      omega)
    rw [Kernel.setMem_mem, hstore, hout x hx]
    exact h.outside x hx hx'
  · intro i
    simp only [Kernel.setMem_kvmlist, Kernel.setKvmlist_kvmlist, kvmlist',
      setBlock]
    by_cases hat : i = n
    · rw [if_pos hat, if_pos (by omega), hat]
    · rw [if_neg hat, h.kvmlist i]
      exact if_congr (by omega) rfl rfl
  · obtain ⟨m, kvmlist, rfl⟩ := h.same
    exact ⟨m₂, kvmlist', rfl⟩

/-- The first `while` of `kmap_init` maps the whole direct map. -/
theorem identity_ok {fuel : Nat} (h : IdentityAt image k₀ k 0)
    {k' : Kernel} (hcall : loop .spin (identityBody image) fuel (k, 0) = .ok k') :
    IdentityAt image k₀ k' 229376 := by
  refine loop_ok (fun s : Kernel × Nat => ∃ n ≤ 229376, s.2 = n * 4096 ∧
    IdentityAt image k₀ s.1 n) (fun k => IdentityAt image k₀ k 229376) ?_
    ⟨0, by decide, by simp, h⟩ hcall
  rintro ⟨k, phyAddr⟩ ⟨n, hn, rfl, hat⟩ next hround
  rcases Nat.lt_or_eq_of_le hn with hlt | rfl
  · obtain ⟨k', hnext, hat'⟩ := hat.round hlt
    rw [hnext] at hround
    cases hround
    exact ⟨n + 1, hlt, rfl, hat'⟩
  · have hdone : ¬ 229376 * 4096 < memNormal := by decide
    simp only [identityBody, if_neg hdone] at hround
    cases hround
    exact hat

end Identity

/-- The allocator with the `n` frames from `first` on behind `free_list`, the
lowest on top, after all but `left` of them were handed out. -/
def frameMap (slots : Int → Nat) (first n : Nat) (left : Int) : MemMap where
  freeList := fun i =>
    if 1 ≤ i ∧ i ≤ n then first + (n - i).toNat * 4096 else slots i
  pageCount := n
  header := left

section Frames

variable {slots : Int → Nat} {first n fuel : Nat} {left : Int}
  {memMap : MemMap}

theorem frameMap_zero : frameMap slots first 0 0 = .zeroed slots := by
  have hslots : ∀ i : Int, ¬ (1 ≤ i ∧ i ≤ ((0 : Nat) : Int)) := by omega
  simp only [frameMap, hslots, ↓reduceIte, MemMap.zeroed]

/-- `phy_mem_init` pushes the frames from the top down. -/
theorem frameMap_push {addr : Nat} (hlt : addr < 4294967296)
    (haligned : addr % 4096 = 0) (hn : n < 1048576) :
    { phyMemFree (frameMap slots (addr + 4096) n n) addr with
      pageCount := u32 ((frameMap slots (addr + 4096) n n).pageCount + 1) } =
        frameMap slots addr (n + 1) ((n + 1 : Nat) : Int) := by
  have hround : pgRoundDown addr = addr := by
    rw [pgRoundDown_eq hlt]
    omega
  simp only [phyMemFree, frameMap, hround, MemMap.mk.injEq]
  refine ⟨?_, u32_of_lt (by omega), by omega⟩
  funext i
  by_cases htop : i = n + 1
  · have hin : 1 ≤ i ∧ i ≤ ((n + 1 : Nat) : Int) := by omega
    rw [if_pos htop, if_pos hin, htop]
    omega
  · by_cases hin : 1 ≤ i ∧ i ≤ n
    · have hin' : 1 ≤ i ∧ i ≤ ((n + 1 : Nat) : Int) := by omega
      rw [if_neg htop, if_pos hin, if_pos hin']
      omega
    · have hin' : ¬ (1 ≤ i ∧ i ≤ ((n + 1 : Nat) : Int)) := by omega
      rw [if_neg htop, if_neg hin, if_neg hin']

/-- The lowest frame in the list. -/
def lowestFrame (first n : Nat) (left : Int) : Nat :=
  first + (n - left).toNat * 4096

theorem frameMap_alloc (hlo : 1 ≤ left) (hhi : left ≤ n) :
    phyMemAlloc (frameMap slots first n left) =
      (lowestFrame first n left, frameMap slots first n (left - 1)) := by
  have hneg : ¬ left < 0 := by omega
  simp only [phyMemAlloc, frameMap, hneg, ↓reduceIte, hlo, hhi, and_self,
    lowestFrame]

/-- With every frame out the allocator answers the word in slot 0 once, and
`NULL` from then on. -/
theorem frameMap_alloc_empty (hslot : slots 0 = 0) (hlo : left ≤ 0) :
    ∃ left' ≤ 0, phyMemAlloc (frameMap slots first n left) =
      (0, frameMap slots first n left') := by
  by_cases hneg : left < 0
  · refine ⟨left, hlo, ?_⟩
    simp only [phyMemAlloc, frameMap, hneg, ↓reduceIte]
  · obtain rfl : left = 0 := by omega
    refine ⟨-1, by omega, ?_⟩
    have hout : ¬ (1 ≤ (0 : Int) ∧ (0 : Int) ≤ n) := by omega
    simp only [phyMemAlloc, frameMap, hneg, ↓reduceIte, hout, hslot,
      Int.zero_sub]

/-- The frame `kmap_init` took last goes back where it was. -/
theorem frameMap_free (hlo : 1 ≤ left) (hhi : left ≤ n)
    (hlt : lowestFrame first n left < 4294967296)
    (haligned : first % 4096 = 0) :
    phyMemFree (frameMap slots first n (left - 1)) (lowestFrame first n left) =
      frameMap slots first n left := by
  have hround : pgRoundDown (lowestFrame first n left) =
      lowestFrame first n left := by
    rw [pgRoundDown_eq hlt]
    simp only [lowestFrame] at hlt ⊢
    omega
  simp only [phyMemFree, frameMap, hround, MemMap.mk.injEq]
  refine ⟨?_, trivial, by omega⟩
  funext i
  by_cases htop : i = left
  · rw [if_pos (by omega), if_pos (by omega), lowestFrame, htop]
  · rw [if_neg (by omega)]

/-- One round of `phy_mem_init` and the one that ends it. -/
theorem pushBody_push {startAddr addr : Nat} (hmore : startAddr ≤ addr)
    (hpos : 0 < startAddr) (haligned : addr % 4096 = 0)
    (hsum : addr + n * 4096 < 4294967296) (hstart : startAddr % 4096 = 0) :
    pushBody startAddr (frameMap slots (addr + 4096) n n, addr) =
      .ok (.inl (frameMap slots (addr - 4096 + 4096) (n + 1) ((n + 1 : Nat) : Int),
        addr - 4096)) := by
  have hnext : sub32 addr pgSize = addr - 4096 :=
    sub32_of_le (by omega) (by simp only [pgSize]; omega)
  have hback : addr - 4096 + 4096 = addr := by omega
  have hpush := @frameMap_push slots n addr (by omega) haligned (by omega)
  simp only [pushBody, if_pos hmore, hnext, hback]
  exact congrArg (fun map => Except.ok (Sum.inl (map, addr - 4096))) hpush

theorem pushBody_done {startAddr addr : Nat} (hdone : addr < startAddr)
    (memMap : MemMap) : pushBody startAddr (memMap, addr) = .ok (.inr memMap) := by
  simp only [pushBody, if_neg (not_le.mpr hdone)]

/-- All frames from `startAddr` to `endAddr` are in the list. -/
theorem push_ok {startAddr endAddr : Nat} (hend : endAddr < 4294967296)
    (haligned : endAddr % 4096 = 0) (hstart : startAddr % 4096 = 0)
    (hcall : loop .spin (pushBody startAddr) fuel (.zeroed slots, endAddr) =
      .ok memMap) :
    ∃ n ≤ 1048576, memMap = frameMap slots startAddr n n ∧
      (n = 0 ∧ endAddr < startAddr ∨
        0 < n ∧ startAddr + n * 4096 = endAddr + 4096) := by
  refine loop_ok (fun s : MemMap × Nat => startAddr = 0 ∨ ∃ n : Nat,
      s.1 = frameMap slots (s.2 + 4096) n n ∧ s.2 + n * 4096 = endAddr ∧
        (n = 0 ∨ startAddr ≤ s.2 + 4096))
    (fun map => ∃ n ≤ 1048576, map = frameMap slots startAddr n n ∧
      (n = 0 ∧ endAddr < startAddr ∨
        0 < n ∧ startAddr + n * 4096 = endAddr + 4096)) ?_
    (Or.inr ⟨0, frameMap_zero.symm, rfl, Or.inl rfl⟩) hcall
  rintro ⟨map, addr⟩ hinv next hround
  dsimp only at hinv
  by_cases hmore : startAddr ≤ addr
  · by_cases hzero : startAddr = 0
    · simp only [pushBody, if_pos hmore] at hround
      cases hround
      exact Or.inl hzero
    · obtain ⟨n, rfl, hsum, -⟩ := hinv.resolve_left hzero
      rw [pushBody_push hmore (by omega) (by omega) (by omega) hstart] at hround
      cases hround
      refine Or.inr ⟨n + 1, rfl, ?_, ?_⟩
      · dsimp only
        omega
      · dsimp only
        omega
  · rw [pushBody_done (by omega)] at hround
    cases hround
    obtain ⟨n, rfl, hsum, hlow⟩ := hinv.resolve_left (by omega)
    refine ⟨n, by omega, ?_, by omega⟩
    rcases Nat.eq_zero_or_pos n with rfl | hpos
    · exact frameMap_zero.trans frameMap_zero.symm
    · have hfirst : addr + 4096 = startAddr := by omega
      rw [hfirst]

/-- `phy_mem_init` returns unless it starts at frame 0. -/
theorem push_returns {startAddr endAddr : Nat} (hend : endAddr < 4294967296)
    (haligned : endAddr % 4096 = 0) (hstart : startAddr % 4096 = 0)
    (hpos : 0 < startAddr) (hfuel : 1048576 < fuel) :
    ∃ memMap, loop .spin (pushBody startAddr) fuel (.zeroed slots, endAddr) =
      .ok memMap := by
  refine loop_returns (fun (s : MemMap × Nat) left => ∃ n : Nat,
      s.1 = frameMap slots (s.2 + 4096) n n ∧ s.2 + n * 4096 = endAddr ∧
        s.2 / 4096 ≤ left) ?_ ⟨0, frameMap_zero.symm, rfl, by omega⟩ hfuel
  rintro ⟨map, addr⟩ left ⟨n, hmap, hsum, hleft⟩
  dsimp only at hmap hsum hleft
  subst hmap
  by_cases hmore : startAddr ≤ addr
  · rw [pushBody_push hmore hpos (by omega) (by omega) hstart]
    exact Or.inr ⟨_, left - 1, by omega, rfl, n + 1, rfl, by dsimp only; omega,
      by dsimp only; omega⟩
  · rw [pushBody_done (by omega)]
    exact Or.inl ⟨_, rfl⟩

/-- Where the second `while` of `kmap_init` is: before its first frame, past
the last one, or with the frame above those left. -/
def Draining (slots : Int → Nat) (first n : Nat) (s : MemMap × Nat) : Prop :=
  s.2 = 0 ∧ (s.1 = frameMap slots first n n ∨
    ∃ left ≤ 0, s.1 = frameMap slots first n left) ∨
  ∃ left : Int, 1 ≤ left ∧ left ≤ n ∧ s.1 = frameMap slots first n (left - 1) ∧
    s.2 = lowestFrame first n left ∧
      (left = n ∨ lowestFrame first n (left + 1) < memNormal)

/-- It stops with the lowest frame above the direct map in hand. -/
def Drained (slots : Int → Nat) (first n : Nat) (s : MemMap × Nat) : Prop :=
  ∃ left : Int, 1 ≤ left ∧ left ≤ n ∧ s.1 = frameMap slots first n (left - 1) ∧
    s.2 = lowestFrame first n left ∧ memNormal ≤ s.2 ∧
      (left = n ∨ lowestFrame first n (left + 1) < memNormal)

theorem drainBody_done {s : MemMap × Nat} (h : Draining slots first n s)
    (hdone : memNormal ≤ s.2) : Drained slots first n s := by
  rcases h with ⟨hzero, -⟩ | ⟨left, hlo, hhi, hmap, hat, hrest⟩
  · rw [hzero] at hdone
    exact absurd hdone (by decide)
  · exact ⟨left, hlo, hhi, hmap, hat, hdone, hrest⟩

/-- A frame below the direct map's end is dropped for the next one. -/
theorem drainBody_next (hslot : slots 0 = 0) {s : MemMap × Nat}
    (h : Draining slots first n s) (hmore : s.2 < memNormal) :
    Draining slots first n ((phyMemAlloc s.1).2, (phyMemAlloc s.1).1) := by
  obtain ⟨map, addr⟩ := s
  have hempty : ∀ left ≤ 0, Draining slots first n
      ((phyMemAlloc (frameMap slots first n left)).2,
        (phyMemAlloc (frameMap slots first n left)).1) := by
    intro left hleft
    obtain ⟨left', hleft', halloc⟩ :=
      @frameMap_alloc_empty slots first n left hslot hleft
    rw [halloc]
    exact Or.inl ⟨rfl, Or.inr ⟨left', hleft', rfl⟩⟩
  dsimp only [Draining] at h hmore
  rcases h with ⟨-, rfl | ⟨left, hleft, rfl⟩⟩ | ⟨left, hlo, hhi, rfl, rfl, hrest⟩
  · rcases Nat.eq_zero_or_pos n with rfl | hpos
    · exact hempty _ le_rfl
    · rw [frameMap_alloc (by omega) le_rfl]
      exact Or.inr ⟨n, by omega, le_rfl, rfl, rfl, Or.inl rfl⟩
  · exact hempty left hleft
  · by_cases hlast : left = 1
    · exact hempty _ (by omega)
    · rw [frameMap_alloc (by omega) (by omega)]
      refine Or.inr ⟨left - 1, by omega, by omega, rfl, rfl, Or.inr ?_⟩
      rw [sub_add_cancel]
      exact hmore

theorem drain_ok (hslot : slots 0 = 0) {r : MemMap × Nat}
    (hcall : loop .spin drainBody fuel (frameMap slots first n n, 0) = .ok r) :
    Drained slots first n r := by
  refine loop_ok (Draining slots first n) (Drained slots first n) ?_
    (Or.inl ⟨rfl, Or.inl rfl⟩) hcall
  rintro ⟨map, addr⟩ hinv next hround
  by_cases hmore : addr < memNormal
  · simp only [drainBody, if_pos hmore] at hround
    cases hround
    exact drainBody_next hslot hinv hmore
  · simp only [drainBody, if_neg hmore] at hround
    cases hround
    exact drainBody_done hinv (not_lt.mp hmore)

/-- It does stop when there is such a frame. -/
theorem drain_returns (hpos : 0 < n) (htop : memNormal ≤ lowestFrame first n 1)
    (hfuel : n < fuel) :
    ∃ r, loop .spin drainBody fuel (frameMap slots first n n, 0) = .ok r := by
  refine loop_returns (fun (s : MemMap × Nat) measure =>
      s.1 = frameMap slots first n measure ∧ measure ≤ n ∧
        (measure = 0 → memNormal ≤ s.2)) ?_ ⟨rfl, le_rfl, by omega⟩ hfuel
  rintro ⟨map, addr⟩ measure ⟨hmap, hle, hlast⟩
  dsimp only at hmap hlast
  subst hmap
  by_cases hmore : addr < memNormal
  · have hleft : measure ≠ 0 := fun hzero => absurd (hlast hzero) (by omega)
    rw [drainBody, if_pos hmore, frameMap_alloc (by omega) (by omega)]
    refine Or.inr ⟨_, measure - 1, by omega, rfl, ?_, by omega, fun hzero => ?_⟩
    · have hcast : ((measure - 1 : Nat) : Int) = measure - 1 := by omega
      rw [hcast]
    · obtain rfl : measure = 1 := by omega
      exact htop
  · rw [drainBody, if_neg hmore]
    exact Or.inl ⟨_, rfl⟩

end Frames

/-- Entry `i` of `kpgdir` after the boot. -/
def dirWord (image : Image) (i : Nat) : Nat :=
  if 768 ≤ i ∧ i < 992 then pteWord (v2p (image.table i)) 0 else 0

/-- Entry `j` of `kpgtbl[i]` after the boot. -/
def tblWord (i j : Nat) : Nat :=
  if 768 ≤ i ∧ i < 992 then pteWord (((i - 768) * 1024 + j) * 4096) 0 else 0

/-- Memory after the boot: the direct map over `ram`. -/
def directMemory (image : Image) (ram : Memory) : Memory := fun x =>
  if image.kpgdir ≤ x ∧ x < image.kpgdir + 4096 then
    UInt8.ofNat (dirWord image ((x - image.kpgdir) / 4) /
      256 ^ ((x - image.kpgdir) % 4))
  else if image.kpgtbl ≤ x ∧ x < image.kpgtbl + 4194304 then
    UInt8.ofNat (tblWord ((x - image.kpgtbl) / 4096)
      ((x - image.kpgtbl) % 4096 / 4) / 256 ^ ((x - image.kpgtbl) % 4))
  else ram x

/-- The kernel after the boot, with `memMap` in the allocator. -/
def bootedKernel (image : Image) (ram : Memory) (memMap : MemMap) : Kernel :=
  kvmInit image {
    mem := directMemory image ram
    kmemList := 0
    kvmlist := fun i => if i < 229376 then ⟨p2v (i * 4096), vmMapped⟩ else ⟨0, 0⟩
    memMap := memMap
    mmaplist := 0
    cr3 := v2p image.kpgdir
    curproc := none }

/-- What the loader clears of the kernel's own pages. -/
structure Loaded (image : Image) (ram : Memory) : Prop where
  kpgdir : ∀ x ∈ pageExtent image.kpgdir, ram x = 0
  kpgtbl : ∀ x, image.kpgtbl ≤ x → x < image.kpgtbl + 4194304 → ram x = 0

/-- `left` of the `n` frames from `first` on are in the allocator, none of
them below the direct map's end. -/
structure FramesLeft (first n : Nat) (left : Int) : Prop where
  aligned : first % 4096 = 0
  top : first + n * 4096 ≤ 4294967296
  hi : left ≤ n
  above : 1 ≤ left → memNormal ≤ lowestFrame first n left

section Booted

variable {image : Image} {k₀ k : Kernel} {ram : Memory} {slots : Int → Nat}
  {bounds : Nat × Nat} {entries : List MmapEntry} {fuel : Nat}

theorem IdentityAt.mem_eq (h : IdentityAt image k₀ k 229376) :
    k.mem = directMemory image k₀.mem := by
  funext x
  simp only [directMemory]
  split_ifs with hdir htbl
  · have hi : (x - image.kpgdir) / 4 < 1024 := by omega
    have hword := h.dir _ hi
    have hbyte := byte_eq_load32 k.mem
      (image.kpgdir + 4 * ((x - image.kpgdir) / 4))
      (Nat.mod_lt (x - image.kpgdir) (show 4 > 0 by decide))
    have hx : image.kpgdir + 4 * ((x - image.kpgdir) / 4) +
        (x - image.kpgdir) % 4 = x := by omega
    have hiff : (768 ≤ (x - image.kpgdir) / 4 ∧
        ((x - image.kpgdir) / 4 - 768) * 1024 < 229376) ↔
          768 ≤ (x - image.kpgdir) / 4 ∧ (x - image.kpgdir) / 4 < 992 := by
      omega
    simp only [hiff] at hword
    rw [hx, ← entry, hword] at hbyte
    exact hbyte
  · have hi : (x - image.kpgtbl) / 4096 < 1024 := by omega
    have hj : (x - image.kpgtbl) % 4096 / 4 < 1024 := by omega
    have hword := h.tbl _ hi _ hj
    have hbyte := byte_eq_load32 k.mem
      (image.table ((x - image.kpgtbl) / 4096) +
        4 * ((x - image.kpgtbl) % 4096 / 4))
      (Nat.mod_lt (x - image.kpgtbl) (show 4 > 0 by decide))
    have hx : image.table ((x - image.kpgtbl) / 4096) +
        4 * ((x - image.kpgtbl) % 4096 / 4) + (x - image.kpgtbl) % 4 = x := by
      simp only [Image.table]
      omega
    have hiff : (768 ≤ (x - image.kpgtbl) / 4096 ∧
        ((x - image.kpgtbl) / 4096 - 768) * 1024 +
          (x - image.kpgtbl) % 4096 / 4 < 229376) ↔
          768 ≤ (x - image.kpgtbl) / 4096 ∧ (x - image.kpgtbl) / 4096 < 992 := by
      omega
    simp only [hiff] at hword
    rw [hx, ← entry, hword] at hbyte
    exact hbyte
  · exact h.outside x (by omega) (by omega)

theorem identity_returns (h : IdentityAt image k₀ k 0) (hfuel : 229376 < fuel) :
    ∃ k', loop .spin (identityBody image) fuel (k, 0) = .ok k' := by
  refine loop_returns (fun (s : Kernel × Nat) measure => ∃ n ≤ 229376,
      s.2 = n * 4096 ∧ measure = 229376 - n ∧ IdentityAt image k₀ s.1 n) ?_
    ⟨0, by decide, by simp, rfl, h⟩ hfuel
  rintro ⟨k, phyAddr⟩ measure ⟨n, hn, hphys, rfl, hat⟩
  dsimp only at hphys hat
  subst hphys
  rcases Nat.lt_or_eq_of_le hn with hlt | rfl
  · obtain ⟨k', hnext, hat'⟩ := hat.round hlt
    exact Or.inr ⟨_, 229376 - (n + 1), by omega, hnext, n + 1, hlt, rfl, rfl, hat'⟩
  · have hdone : ¬ 229376 * 4096 < memNormal := by decide
    rw [identityBody, if_neg hdone]
    exact Or.inl ⟨_, rfl⟩

theorem Loaded.identity (h : Loaded image ram) {memMap : MemMap} :
    IdentityAt image { loadedKernel image ram slots with memMap := memMap }
      { loadedKernel image ram slots with memMap := memMap } 0 :=
  identityAt_zero h.kpgdir h.kpgtbl rfl

theorem pgRoundUp_lt (a : Nat) : pgRoundUp a < 4294967296 := by
  rw [pgRoundUp, and_pgMask_eq]
  omega

theorem pgRoundUp_mod (a : Nat) : pgRoundUp a % 4096 = 0 := by
  rw [pgRoundUp, and_pgMask_eq]
  omega

/-- Where `phy_mem_init` starts and ends. -/
def frameBounds (image : Image) (bounds : Nat × Nat)
    (entries : List MmapEntry) : Nat × Nat :=
  let b := memoryBounds image bounds entries
  (pgRoundUp b.1, pgRoundDown b.2)

theorem phyMemInit_eq (memMap : MemMap) :
    phyMemInit image bounds entries fuel memMap =
      loop .spin (pushBody (frameBounds image bounds entries).1) fuel
        (memMap, (frameBounds image bounds entries).2) := rfl

theorem frameBounds_aligned :
    (frameBounds image bounds entries).1 % 4096 = 0 ∧
      (frameBounds image bounds entries).2 % 4096 = 0 ∧
      (frameBounds image bounds entries).1 < 4294967296 ∧
      (frameBounds image bounds entries).2 < 4294967296 := by
  refine ⟨pgRoundUp_mod _, ?_, pgRoundUp_lt _, ?_⟩
  · simp only [frameBounds, pgRoundDown, and_pgMask_eq]
    omega
  · simp only [frameBounds, pgRoundDown, and_pgMask_eq]
    omega

/-- The number of frames `phy_mem_init` pushes. -/
def frameCount (image : Image) (bounds : Nat × Nat)
    (entries : List MmapEntry) : Nat :=
  ((frameBounds image bounds entries).2 + 4096 -
    (frameBounds image bounds entries).1) / 4096

/-- The list of frames as `phy_mem_init` builds it, with `left` still in it. -/
def initialFrames (image : Image) (bounds : Nat × Nat)
    (entries : List MmapEntry) (slots : Int → Nat) (left : Int) : MemMap :=
  frameMap slots (frameBounds image bounds entries).1
    (frameCount image bounds entries) left

theorem frameCount_eq {n : Nat}
    (h : n = 0 ∧ (frameBounds image bounds entries).2 <
        (frameBounds image bounds entries).1 ∨
      0 < n ∧ (frameBounds image bounds entries).1 + n * 4096 =
        (frameBounds image bounds entries).2 + 4096) :
    n = frameCount image bounds entries := by
  obtain ⟨hstart, haligned, -, -⟩ := @frameBounds_aligned image bounds entries
  rw [frameCount]
  omega

theorem frameCount_top : (frameBounds image bounds entries).1 +
    frameCount image bounds entries * 4096 ≤ 4294967296 := by
  obtain ⟨hstart, haligned, hlt, hlt'⟩ :=
    @frameBounds_aligned image bounds entries
  rw [frameCount]
  omega

/-- `phy_mem_init` leaves a run of frames. -/
theorem phyMemInit_ok {memMap : MemMap}
    (hcall : phyMemInit image bounds entries fuel (.zeroed slots) = .ok memMap) :
    memMap = initialFrames image bounds entries slots
      (frameCount image bounds entries) := by
  obtain ⟨hstart, haligned, hlt, hlt'⟩ :=
    @frameBounds_aligned image bounds entries
  rw [phyMemInit_eq] at hcall
  obtain ⟨n, -, hmap, hn⟩ := push_ok hlt' haligned hstart hcall
  rw [hmap, frameCount_eq hn, initialFrames]

/-- The parts of a boot that returned. -/
theorem boot_parts {k₀ : Kernel}
    (hboot : boot image bounds entries fuel k₀ = .ok k) :
    ∃ memMap k₁ r,
      phyMemInit image bounds entries fuel k₀.memMap = .ok memMap ∧
      loop .spin (identityBody image) fuel ({ k₀ with memMap := memMap }, 0) =
        .ok k₁ ∧
      loop .spin drainBody fuel (k₁.memMap, 0) = .ok r ∧
      k = kvmInit image { k₁ with
        memMap := if memNormal ≤ r.2 then phyMemFree r.1 r.2 else r.1
        cr3 := v2p image.kpgdir } := by
  obtain ⟨memMap, hinit, hboot⟩ := ok_of_bind hboot
  obtain ⟨k₂, hkmap, hk⟩ := ok_of_bind hboot
  obtain ⟨k₁, hidentity, hkmap⟩ := ok_of_bind hkmap
  obtain ⟨r, hdrain, hk₂⟩ := ok_of_bind hkmap
  refine ⟨memMap, k₁, r, hinit, hidentity, hdrain, ?_⟩
  cases hk₂
  cases hk
  rfl

theorem boot_of_parts {k₀ k₁ : Kernel} {memMap : MemMap} {r : MemMap × Nat}
    (hinit : phyMemInit image bounds entries fuel k₀.memMap = .ok memMap)
    (hidentity : loop .spin (identityBody image) fuel
      ({ k₀ with memMap := memMap }, 0) = .ok k₁)
    (hdrain : loop .spin drainBody fuel (k₁.memMap, 0) = .ok r) :
    boot image bounds entries fuel k₀ = .ok (kvmInit image { k₁ with
      memMap := if memNormal ≤ r.2 then phyMemFree r.1 r.2 else r.1
      cr3 := v2p image.kpgdir }) := by
  simp only [boot, hinit, ok_bind, kmapInit, hidentity, hdrain]

theorem IdentityAt.kernel_eq {memMap : MemMap}
    (h : IdentityAt image { loadedKernel image ram slots with memMap := memMap }
      k 229376) :
    k = { mem := directMemory image ram
          kmemList := 0
          kvmlist := fun i =>
            if i < 229376 then ⟨p2v (i * 4096), vmMapped⟩ else ⟨0, 0⟩
          memMap := memMap
          mmaplist := 0
          cr3 := image.bootPgdir
          curproc := none } := by
  have hmem := h.mem_eq
  have hkvm := funext h.kvmlist
  obtain ⟨m, kvmlist, rfl⟩ := h.same
  simp only [Kernel.setMem_mem] at hmem
  simp only [Kernel.setMem_kvmlist, Kernel.setKvmlist_kvmlist] at hkvm
  rw [hmem, hkvm]
  rfl

/-- The drain leaves the counter of pages alone. -/
theorem drain_pageCount {memMap : MemMap} {r : MemMap × Nat}
    (hcall : loop .spin drainBody fuel (memMap, 0) = .ok r) :
    r.1.pageCount = memMap.pageCount := by
  refine loop_ok (fun s : MemMap × Nat => s.1.pageCount = memMap.pageCount)
    (fun s : MemMap × Nat => s.1.pageCount = memMap.pageCount) ?_ rfl hcall
  rintro ⟨map, addr⟩ hinv next hround
  simp only [drainBody] at hround
  split_ifs at hround
  · cases hround
    simp only [phyMemAlloc]
    split_ifs
    · exact hinv
    · exact hinv
  · cases hround
    exact hinv

/-- The boot leaves the direct map over `ram`. -/
theorem boot_ok (hloaded : Loaded image ram)
    (hboot : boot image bounds entries fuel (loadedKernel image ram slots) =
      .ok k) :
    ∃ memMap, k = bootedKernel image ram memMap ∧
      memMap.pageCount ≤ 1048576 := by
  obtain ⟨memMap, k₁, r, hinit, hidentity, hdrain, rfl⟩ := boot_parts hboot
  have hk₁ := (identity_ok hloaded.identity hidentity).kernel_eq
  subst hk₁
  refine ⟨_, rfl, ?_⟩
  have hcount := drain_pageCount hdrain
  rw [phyMemInit_ok hinit] at hcount
  have htop := @frameCount_top image bounds entries
  have hn : frameCount image bounds entries ≤ 1048576 := by omega
  split_ifs
  · exact hcount.trans_le hn
  · exact hcount.trans_le hn

/-- And the frames above the direct map in the allocator. -/
theorem boot_frames (hslot : slots 0 = 0) (hloaded : Loaded image ram)
    (hboot : boot image bounds entries fuel (loadedKernel image ram slots) =
      .ok k) :
    ∃ left, k.memMap = initialFrames image bounds entries slots left ∧
      FramesLeft (frameBounds image bounds entries).1
        (frameCount image bounds entries) left ∧ 1 ≤ left ∧
      (left = frameCount image bounds entries ∨
        lowestFrame (frameBounds image bounds entries).1
          (frameCount image bounds entries) (left + 1) < memNormal) := by
  obtain ⟨memMap, k₁, r, hinit, hidentity, hdrain, rfl⟩ := boot_parts hboot
  have hk₁ := (identity_ok hloaded.identity hidentity).kernel_eq
  subst hk₁
  rw [phyMemInit_ok hinit] at hdrain
  have htop := @frameCount_top image bounds entries
  obtain ⟨haligned, -, -, -⟩ := @frameBounds_aligned image bounds entries
  obtain ⟨left, hlo, hhi, hmap, hat, habove, hnext⟩ := drain_ok hslot hdrain
  refine ⟨left, ?_, ⟨haligned, htop, hhi, fun _ => hat ▸ habove⟩, hlo, hnext⟩
  have hlt : lowestFrame (frameBounds image bounds entries).1
      (frameCount image bounds entries) left < 4294967296 := by
    simp only [lowestFrame]
    omega
  change (if memNormal ≤ r.2 then phyMemFree r.1 r.2 else r.1) = _
  rw [if_pos habove, hmap, hat]
  exact frameMap_free hlo hhi hlt haligned

/-- The boot returns when `phy_mem_init` has a frame above the direct map to
push. -/
theorem boot_returns (hloaded : Loaded image ram)
    (hlo : 0 < (frameBounds image bounds entries).1)
    (hhi : (frameBounds image bounds entries).1 ≤
      (frameBounds image bounds entries).2)
    (hframe : memNormal ≤ (frameBounds image bounds entries).2)
    (hfuel : 1048576 < fuel) :
    ∃ k, boot image bounds entries fuel (loadedKernel image ram slots) =
      .ok k := by
  obtain ⟨hstart, haligned, hlt, hlt'⟩ :=
    @frameBounds_aligned image bounds entries
  obtain ⟨memMap, hpush⟩ := @push_returns slots fuel _ _ hlt' haligned hstart hlo
    hfuel
  obtain ⟨n, hn, rfl, hbounds⟩ := push_ok hlt' haligned hstart hpush
  have hpos : 0 < n := by omega
  obtain ⟨k₁, hidentity⟩ := identity_returns
    (@Loaded.identity image ram slots hloaded
      (frameMap slots (frameBounds image bounds entries).1 n n))
    (show 229376 < fuel by omega)
  have htop : memNormal ≤ lowestFrame (frameBounds image bounds entries).1 n 1 := by
    simp only [lowestFrame]
    omega
  obtain ⟨r, hdrain⟩ := @drain_returns slots _ n fuel hpos htop
    (show n < fuel by omega)
  have hmap : k₁.memMap =
      frameMap slots (frameBounds image bounds entries).1 n n := by
    rw [(identity_ok hloaded.identity hidentity).kernel_eq]
  rw [← hmap] at hdrain
  exact ⟨_, boot_of_parts hpush hidentity hdrain⟩

end Booted

end Linda
