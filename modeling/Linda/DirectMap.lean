/-
The direct map that kmap_init builds, beside the 4 MB pages of boot_pgdir that
carry the kernel while it does so.
-/
import Linda.BootPaging

namespace Linda

open ByteMemory FuelLoop

def ptePS : Nat := 1 <<< 7

/-- The words of `boot_pgdir`. -/
def bootPgdir (i : Nat) : Nat :=
  if i = 0 then 0x0 ||| pteP ||| pteW ||| ptePS
  else if i = 1 then 0x400000 ||| pteP ||| pteW ||| ptePS
  else if i = 2 then 0x800000 ||| pteP ||| pteW ||| ptePS
  else if i = pdx kernBase then 0x0 ||| pteP ||| pteW ||| ptePS
  else if i = pdx (kernBase + 0x400000) then
    0x400000 ||| pteP ||| pteW ||| ptePS
  else if i = pdx (kernBase + 0x800000) then
    0x800000 ||| pteP ||| pteW ||| ptePS
  else 0

/-- The image holds `boot_pgdir` in a page of its own. -/
structure BootDirectory (image : Image) (m : Memory) : Prop where
  aligned : image.bootPgdir % 4096 = 0
  words : ∀ i < 1024, entry m (kernBase + image.bootPgdir) i = bootPgdir i

/-- The addresses from `KERNBASE` on show the memory below `MEM_NORMAL` to the
kernel alone, and nothing else is mapped. -/
structure DirectMap (m : Memory) (root : Nat) : Prop where
  maps : ∀ va, kernBase ≤ va → va < kernBase + memNormal →
    ∃ t, pageWalk m root va = some t ∧ t.frame + va % pgSize = va - kernBase ∧
      t.writable = true ∧ t.user = false
  only : ∀ va < 4294967296, ¬ (kernBase ≤ va ∧ va < kernBase + memNormal) →
    pageWalk m root va = none

section Blocks

variable {image : Image} {k : Kernel} {phyAddr : Nat}

/-- The list of kernel pages takes a page in whatever it held. -/
theorem kvm_listed (kvmlist : Nat → VmBlock) {addr : Nat} {next : Kernel}
    (h : (kvmMapPage k addr >>= fun k => kvmFreePage k addr) = .ok next) :
    ∃ kvmlist', (kvmMapPage (k.setKvmlist kvmlist) addr >>= fun k =>
      kvmFreePage k addr) = .ok (next.setKvmlist kvmlist') := by
  by_cases hout : kernSize ≤ sub32 addr kernBase
  · rw [kvmMapPage, if_pos hout] at h
    cases h
  · have hmap : ∀ k : Kernel, ∃ kvmlist',
        (kvmMapPage k addr >>= fun k => kvmFreePage k addr) =
          .ok (k.setKvmlist kvmlist') := by
      intro k
      rw [kvmMapPage, if_neg hout, ok_bind, kvmFreePage, if_neg hout]
      exact ⟨_, rfl⟩
    obtain ⟨l, hl⟩ := hmap k
    obtain ⟨l', hl'⟩ := hmap (k.setKvmlist kvmlist)
    obtain rfl := Except.ok.inj (hl.symm.trans h)
    exact ⟨l', hl'⟩

/-- Memory after the table entry of one round is written. -/
def mapDirect (image : Image) (m : Memory) (phyAddr : Nat) : Memory :=
  let (pgtbl, m) := bootTable image m (pdx (p2v phyAddr))
  setEntry m pgtbl (ptx (p2v phyAddr)) (pteWord phyAddr 0)

theorem identityBody_eq (hmore : phyAddr < memNormal) :
    identityBody image (k, phyAddr) =
      (kvmMapPage (k.setMem (mapDirect image k.mem phyAddr)) (p2v phyAddr) >>=
        fun k => kvmFreePage k (p2v phyAddr)) >>= fun k =>
          .ok (.inl (k, u32 (phyAddr + pgSize))) := by
  simp only [identityBody, if_pos hmore, mapDirect, bind_assoc]

/-- A round of the first `while` of `kmap_init` does the same whatever the list
of kernel pages holds. -/
theorem identityBody_blocks (kvmlist : Nat → VmBlock)
    {next : (Kernel × Nat) ⊕ Kernel}
    (h : identityBody image (k, phyAddr) = .ok next) :
    ∃ kvmlist', identityBody image (k.setKvmlist kvmlist, phyAddr) =
      .ok (next.map (fun s => (s.1.setKvmlist kvmlist', s.2))
        fun k => k.setKvmlist kvmlist') := by
  by_cases hmore : phyAddr < memNormal
  · rw [identityBody_eq hmore] at h
    obtain ⟨k₁, hpages, hnext⟩ := ok_of_bind h
    obtain rfl := Except.ok.inj hnext
    obtain ⟨kvmlist', hpages'⟩ := kvm_listed kvmlist hpages
    have hset : ∀ m, (k.setMem m).setKvmlist kvmlist =
        (k.setKvmlist kvmlist).setMem m := fun _ => rfl
    rw [hset] at hpages'
    refine ⟨kvmlist', ?_⟩
    rw [identityBody_eq hmore, Kernel.setKvmlist_mem, hpages', ok_bind,
      Sum.map_inl]
  · rw [identityBody, if_neg hmore] at h
    obtain rfl := Except.ok.inj h
    exact ⟨kvmlist, by rw [identityBody, if_neg hmore]; rfl⟩

/-- The loop therefore leaves the same memory. -/
theorem identity_blocks (kvmlist : Nat → VmBlock) {fuel : Nat} {k' : Kernel}
    (h : loop .spin (identityBody image) fuel (k, phyAddr) = .ok k') :
    ∃ kvmlist', loop .spin (identityBody image) fuel
      (k.setKvmlist kvmlist, phyAddr) = .ok (k'.setKvmlist kvmlist') := by
  have hround : ∀ s s' : Kernel × Nat, (∃ l, s' = (s.1.setKvmlist l, s.2)) →
      ∀ next, identityBody image s = .ok next →
        ∃ next', identityBody image s' = .ok next' ∧
          Sum.LiftRel
            (fun s s' : Kernel × Nat => ∃ l, s' = (s.1.setKvmlist l, s.2))
            (fun k k' : Kernel => ∃ l, k' = k.setKvmlist l) next next' := by
    rintro ⟨k, addr⟩ _ ⟨l, rfl⟩ next hround
    obtain ⟨l', hround'⟩ := identityBody_blocks l hround
    refine ⟨_, hround', ?_⟩
    cases next with
    | inl s => exact .inl ⟨l', rfl⟩
    | inr k => exact .inr ⟨l', rfl⟩
  obtain ⟨_, hloop, kvmlist', rfl⟩ := loop_related _ _ hround ⟨kvmlist, rfl⟩ h
  exact ⟨kvmlist', hloop⟩

/-- The mapping loop returns and leaves the direct map in memory. -/
theorem identity_memory (hzero : Loaded image k.mem) {fuel : Nat}
    (hfuel : 229376 < fuel) :
    ∃ k', loop .spin (identityBody image) fuel (k, 0) = .ok k' ∧
      k'.mem = directMemory image k.mem := by
  have hstart : IdentityAt image (k.setKvmlist fun _ => ⟨0, 0⟩)
      (k.setKvmlist fun _ => ⟨0, 0⟩) 0 :=
    identityAt_zero hzero.kpgdir hzero.kpgtbl rfl
  obtain ⟨k₁, hloop⟩ := identity_returns hstart hfuel
  have hmem : k₁.mem = directMemory image k.mem :=
    (identity_ok hstart hloop).mem_eq
  obtain ⟨kvmlist', hloop'⟩ := identity_blocks k.kvmlist hloop
  exact ⟨_, hloop', hmem⟩

end Blocks

section Boot

variable {image : Image} {m : Memory} {va : Nat}

theorem directMemory_directMap :
    DirectMap (directMemory image m) (v2p image.kpgdir) where
  maps va hlo hhi := by
    have hlt : va < 4294967296 := by
      simp only [kernBase, memNormal] at hhi
      omega
    refine ⟨_, by rw [directMemory_walk hlt, if_pos ⟨hlo, hhi⟩], ?_, rfl, rfl⟩
    simp only [kernBase, pgSize, and_pgMask_eq] at hlo ⊢
    omega
  only va hva hout := by rw [directMemory_walk hva, if_neg hout]

/-- The boot directory is none of the pages `kmap_init` writes. -/
theorem BootDirectory.apart (h : BootDirectory image m)
    (hzero : Loaded image m) {x : Nat}
    (hlo : kernBase + image.bootPgdir ≤ x)
    (hhi : x < kernBase + image.bootPgdir + 4096) :
    directMemory image m x = m x := by
  have haligned := h.aligned
  have hword : entry m (kernBase + image.bootPgdir) 0 = 131 :=
    h.words 0 (by decide)
  have hnot : ¬ ∀ x, kernBase + image.bootPgdir ≤ x →
      x < kernBase + image.bootPgdir + 4096 → m x = 0 := by
    intro hblank
    have hbytes : entry m (kernBase + image.bootPgdir) 0 = 0 :=
      load32_eq_zero fun x hlo hhi => hblank x hlo (by omega)
    omega
  have hdir := image.kpgdir_aligned
  have htbl := image.kpgtbl_aligned
  have hbase : kernBase % 4096 = 0 := by decide
  rw [directMemory, if_neg, if_neg]
  · intro hin
    exact hnot fun y hy hy' => hzero.kpgtbl y (by omega) (by omega)
  · intro hin
    exact hnot fun y hy hy' => hzero.kpgdir y (pageExtent_iff.mpr (by omega))

theorem BootDirectory.after (h : BootDirectory image m)
    (hzero : Loaded image m) : BootDirectory image (directMemory image m) where
  aligned := h.aligned
  words i hi := by
    rw [entry_congr hi fun x hlo hhi => h.apart hzero hlo hhi]
    exact h.words i hi

/-- The offset of a page in a 4 MB page. -/
theorem and_largeOffset (va : Nat) : va &&& 0x3FF000 = ptx va * 4096 := by
  have hmask : 0x3FF000 = 4096 * 1023 := rfl
  apply Nat.eq_of_testBit_eq
  intro i
  rw [Nat.testBit_and, hmask, ptx_eq, show (4096 : Nat) = 2 ^ 12 from rfl,
    show (1024 : Nat) = 2 ^ 10 from rfl, Nat.testBit_two_pow_mul,
    Nat.mul_comm (va / 2 ^ 12 % 2 ^ 10), Nat.testBit_two_pow_mul,
    Nat.testBit_mod_two_pow, Nat.testBit_div_two_pow,
    show (1023 : Nat) = 2 ^ 10 - 1 from rfl, Nat.testBit_two_pow_sub_one]
  by_cases hlow : 12 ≤ i
  · simp [hlow, Nat.sub_add_cancel hlow, Bool.and_comm]
  · simp [hlow]

/-- The three 4 MB pages at `KERNBASE`, for the kernel to read and write. -/
theorem bootPgdir_kernel {j : Nat} (hj : j < 3) :
    (bootPgdir (768 + j)).testBit 0 = true ∧
      (bootPgdir (768 + j)).testBit 7 = true ∧
      (bootPgdir (768 + j)).testBit 1 = true ∧
      (bootPgdir (768 + j)).testBit 2 = false ∧
      bootPgdir (768 + j) &&& 0xFFC00000 = j * 0x400000 := by
  match j, hj with
  | 0, _ => decide
  | 1, _ => decide
  | 2, _ => decide

/-- The walk the kernel runs on before the switch. -/
theorem BootDirectory.walk (h : BootDirectory image m) (hlo : kernBase ≤ va)
    (hhi : va < kernBase + 0xC00000) :
    pageWalk m image.bootPgdir va =
      some ⟨(va - kernBase) &&& pgMask, true, false⟩ := by
  simp only [kernBase] at hlo hhi
  obtain ⟨j, hj, hpdx⟩ : ∃ j < 3, pdx va = 768 + j := by
    refine ⟨pdx va - 768, ?_, ?_⟩ <;> rw [pdx_eq] <;> omega
  have hframe : (va - kernBase) &&& pgMask = j * 0x400000 + ptx va * 4096 := by
    rw [pdx_eq] at hpdx
    rw [and_pgMask_eq, ptx_eq, kernBase]
    omega
  obtain ⟨hpresent, hlarge, hwritable, huser, haddr⟩ := bootPgdir_kernel hj
  rw [pageWalk, h.words _ (pdx_lt va), hpdx, walkEntry, if_pos hpresent,
    if_pos hlarge, and_largeOffset, haddr, hframe, hwritable, huser]

end Boot

/-- `kmap_init` builds exactly the direct map, and the memory the boot
directory shows stays where it is when `cr3` changes. -/
theorem kmapInit_directMap {image : Image} {k : Kernel} {fuel : Nat}
    (hzero : Loaded image k.mem) (hboot : BootDirectory image k.mem)
    (hfuel : 229376 < fuel) :
    ∃ k₁, loop .spin (identityBody image) fuel (k, 0) = .ok k₁ ∧
      DirectMap k₁.mem (v2p image.kpgdir) ∧
      (∀ va, kernBase ≤ va → va < kernBase + 0xC00000 →
        pageWalk k₁.mem (v2p image.kpgdir) va =
          pageWalk k₁.mem image.bootPgdir va) ∧
      ∀ k₂, kmapInit image fuel k = .ok k₂ →
        k₂.mem = k₁.mem ∧ k₂.cr3 = v2p image.kpgdir := by
  obtain ⟨k₁, hloop, hmem⟩ := identity_memory hzero hfuel
  refine ⟨k₁, hloop, ?_, ?_, ?_⟩
  · rw [hmem]
    exact directMemory_directMap
  · intro va hlo hhi
    have hlt : va < 4294967296 := by
      simp only [kernBase] at hhi
      omega
    have hin : kernBase ≤ va ∧ va < kernBase + memNormal := by
      simp only [kernBase, memNormal] at hlo hhi ⊢
      omega
    rw [hmem, directMemory_walk hlt, if_pos hin,
      (hboot.after hzero).walk hlo hhi]
  · intro k₂ hinit
    rw [kmapInit, hloop, ok_bind] at hinit
    obtain ⟨r, -, hk₂⟩ := ok_of_bind hinit
    cases hk₂
    exact ⟨rfl, rfl⟩

/-- The small image with `boot_pgdir` in its last page. -/
def directImage : Image :=
  { smallImage with
    kernEnd := 0xC0502000
    bootPgdir := 0x501000
    kpgdir_hi := by decide
    kpgtbl_hi := by decide
    kernEnd_hi := by decide }

/-- Memory that is zero but for `boot_pgdir`. -/
def directRam : Memory := fun x =>
  if 0xC0501000 ≤ x ∧ x < 0xC0502000 then
    UInt8.ofNat (bootPgdir ((x - 0xC0501000) / 4) /
      256 ^ ((x - 0xC0501000) % 4))
  else 0

theorem directRam_loaded : Loaded directImage directRam where
  kpgdir x hx := by
    have hin := pageExtent_iff.mp hx
    simp only [directImage, smallImage] at hin
    exact if_neg (by omega)
  kpgtbl x hlo hhi := by
    simp only [directImage, smallImage] at hlo hhi
    exact if_neg (by omega)

theorem bootPgdir_lt (i : Nat) : bootPgdir i < 4294967296 := by
  rw [bootPgdir]
  split_ifs <;> decide

theorem directRam_boot : BootDirectory directImage directRam where
  aligned := by decide
  words i hi := by
    refine load32_of_bytes (bootPgdir_lt i) fun j hj => ?_
    have hbase : kernBase + directImage.bootPgdir = 0xC0501000 := rfl
    rw [hbase, directRam, if_pos (by omega)]
    have hword : (0xC0501000 + 4 * i + j - 0xC0501000) / 4 = i := by omega
    have hbyte : (0xC0501000 + 4 * i + j - 0xC0501000) % 4 = j := by omega
    rw [hword, hbyte]

theorem kmapInit_directMap_small :
    ∃ k₁, loop .spin (identityBody directImage) 229377
        (loadedKernel directImage directRam fun _ => 0, 0) = .ok k₁ ∧
      DirectMap k₁.mem (v2p directImage.kpgdir) := by
  obtain ⟨k₁, hloop, hmap, -, -⟩ := kmapInit_directMap
    (k := loadedKernel directImage directRam fun _ => 0) directRam_loaded
    directRam_boot (show 229376 < 229377 by decide)
  exact ⟨k₁, hloop, hmap⟩

end Linda
