/-
The kernel halves of the directories over whole runs: when every process sees
the kernel as `kpgdir` maps it.
-/
import Linda.PageFaults
import Linda.PageUpdates

namespace Linda

open ByteMemory CallHistory FuelLoop PagingRun

/-- Every process translates the kernel's addresses as `kpgdir` does. -/
def HalvesEqual (kpgdir : Nat) (r : PagingRun) : Prop :=
  ∀ d ∈ r.dirs, ∀ va, kernBase ≤ va → va < 4294967296 →
    pageWalk r.kernel.mem (v2p d) va = pageWalk r.kernel.mem (v2p kpgdir) va

/-- The fault is not in the direct map, and one on an address of the kernel
finds a table for it in every process. -/
def PagingCall.SharesTable (r : PagingRun) : PagingCall → Prop
  | .fault _ addr => ¬ (kernBase ≤ addr ∧ addr < kernBase + memNormal) ∧
      (kernBase ≤ addr → ∀ d ∈ r.dirs, entry r.kernel.mem d (pdx addr) ≠ 0)
  | _ => True

section Walks

variable {k k' : Kernel} {s s' : Paging} {d d' va va' pa flags : Nat}

/-- Below one directory entry two directories are the same. -/
theorem PagingAt.walk_of_entry (h : PagingAt k s) (hd : d ∈ s.roots)
    (hd' : d' ∈ s.roots)
    (hentry : entry k.mem d (pdx va) = entry k.mem d' (pdx va)) :
    pageWalk k.mem (v2p d) va = pageWalk k.mem (v2p d') va := by
  rw [pageWalk_root (h.root_page hd), pageWalk_root (h.root_page hd'), hentry]

/-- A mapping in the user half changes nothing in the kernel half. -/
theorem Mapped.walk_kernel (h : Mapped k s d va pa flags k' s')
    (hplain : AllPlain k.mem s.roots) (hsmall : flags.testBit 7 = false)
    (hd : d ∈ s.roots) (hva : va < kernBase) (hd' : d' ∈ s.roots)
    (hlo : kernBase ≤ va') (hhi : va' < 4294967296) :
    pageWalk k'.mem (v2p d') va' = pageWalk k.mem (v2p d') va' := by
  rw [h.write.walk hplain hsmall d' hd' va', if_neg]
  intro hmeets
  have hpage := (h.paging.meets_page (h.roots ▸ hd) (h.roots ▸ hd') h.present
    hmeets).1
  have hpdx := ((and_pgMask_eq_iff va' va).mp hpage).1
  have huser := pdx_user hva
  have hkernel := pdx_kernel hlo hhi
  omega

end Walks

namespace PagingRun

variable {kpgdir : Nat} {slots : Int → Nat} {first n fuel : Nat}
  {r r' : PagingRun} {s s' : Paging} {k k' : Kernel} {d flags va pa : Nat}

/-- Where a process has the kernel's entry it sees the kernel's pages; where
it has none, nothing may be there. -/
theorem Sound.halvesEqual (h : r.Sound kpgdir slots first n s)
    (hempty : ∀ d ∈ r.dirs, ∀ va, kernBase ≤ va → va < 4294967296 →
      entry r.kernel.mem d (pdx va) = 0 →
        pageWalk r.kernel.mem (v2p kpgdir) va = none) :
    HalvesEqual kpgdir r := by
  intro d hd va hlo hhi
  have hroot := h.dir_root hd
  rcases h.half d hd _ (pdx_kernel hlo hhi) (pdx_lt va) with hzero | heq
  · rw [h.paging.walk_empty hroot hzero, hempty d hd va hlo hhi hzero]
  · exact h.paging.walk_of_entry hroot h.kpgdir_root heq

/-- What is under an empty entry of a process. -/
theorem Sound.walk_none (h : r.Sound kpgdir slots first n s)
    (heq : HalvesEqual kpgdir r) (hd : d ∈ r.dirs) (hlo : kernBase ≤ va)
    (hhi : va < 4294967296) (hzero : entry r.kernel.mem d (pdx va) = 0) :
    pageWalk r.kernel.mem (v2p kpgdir) va = none := by
  rw [← heq d hd va hlo hhi, h.paging.walk_empty (h.dir_root hd) hzero]

/-- A fault in the user half. -/
theorem Handled.halves_user {addr : Nat} {left : Int}
    (h : r.Sound kpgdir slots first n s)
    (hhandled : Handled kpgdir slots first n r s addr d flags pa left k' s')
    (haddr : addr < kernBase) (heq : HalvesEqual kpgdir r) :
    HalvesEqual kpgdir ⟨k', r.dirs⟩ := by
  have hsame : ∀ d' ∈ s.roots, ∀ va', kernBase ≤ va' → va' < 4294967296 →
      pageWalk k'.mem (v2p d') va' = pageWalk r.kernel.mem (v2p d') va' :=
    fun d' hd' va' hlo hhi => hhandled.mapped.walk_kernel h.plain
      hhandled.target.small (hhandled.target.root h.roots) haddr hd' hlo hhi
  intro d' hd' va' hlo hhi
  rw [hsame d' (h.dir_root hd') va' hlo hhi, hsame kpgdir h.kpgdir_root va' hlo hhi]
  exact heq d' hd' va' hlo hhi

/-- One in the kernel half, where every process has the table. -/
theorem Handled.halves_kernel {addr : Nat} {left : Int}
    (h : r.Sound kpgdir slots first n s)
    (hhandled : Handled kpgdir slots first n r s addr d flags pa left k' s')
    (haddr : kernBase ≤ addr)
    (hshares : ∀ d ∈ r.dirs, entry r.kernel.mem d (pdx addr) ≠ 0)
    (heq : HalvesEqual kpgdir r) : HalvesEqual kpgdir ⟨k', r.dirs⟩ := by
  have hdir : d = kpgdir := by
    have hdir := hhandled.dir
    rw [handlerDir, if_pos haddr] at hdir
    exact (Option.some.inj hdir).symm
  subst hdir
  have hmapped := hhandled.mapped
  have hroot := h.kpgdir_root
  apply hhandled.sound.halvesEqual
  intro d' hd' va' hlo hhi hzero
  have hold := (h.half_write hhandled.target hmapped.write d' hd' _
    (pdx_kernel hlo hhi) (pdx_lt va')).1
  rw [hold] at hzero
  have hnone := h.walk_none heq hd' hlo hhi hzero
  have hwalk := hmapped.write.walk h.plain hhandled.target.small d hroot va'
  rw [if_neg] at hwalk
  · exact hwalk.trans hnone
  · -- the page table of the fault is in every process, so it is another one
    intro hmeets
    have hpage := (hmapped.paging.meets_page (hmapped.roots ▸ hroot)
      (hmapped.roots ▸ hroot) hmapped.present hmeets).1
    have hpdx := ((and_pgMask_eq_iff va' addr).mp hpage).1
    exact hshares d' hd' (hpdx ▸ hzero)

section Filled

variable {pgdir : Nat} {left : Int} {k₁ k₂ k₃ : Kernel} {s₁ s₂ : Paging}

/-- Once the copy is made the scratch page is unmapped again. -/
theorem Filled.walk_scratch (h : r.Sound kpgdir slots first n s)
    (hfilled : Filled kpgdir slots first n r s pgdir pa left k₁ s₁ k₂ k₃ s₂ k' s') :
    pageWalk k₃.mem (v2p kpgdir) va =
      if scratchPage &&& pgMask = va &&& pgMask then none
      else pageWalk r.kernel.mem (v2p kpgdir) va := by
  have hroot : kpgdir ∈ s₁.roots := hfilled.mapped.roots ▸ h.kpgdir_root
  have hunmapped := hfilled.unmapped.walk_eq hfilled.sound₂.plain hroot va
  have hcopied := hfilled.sound₁.paging.forest.walk_congr
    hfilled.sound₁.paging.pool hfilled.copied hroot va
  have hmapped := hfilled.mapped.walk_eq h.plain h.kpgdir_root va
  refine hunmapped.trans ?_
  rw [hcopied, hmapped]
  split_ifs
  · rfl
  · rfl

/-- Filling the process changes nothing in the kernel half. -/
theorem Filled.walk_kernel (h : r.Sound kpgdir slots first n s)
    (hfilled : Filled kpgdir slots first n r s pgdir pa left k₁ s₁ k₂ k₃ s₂ k' s')
    (hpgdir : pgdir ∈ r.dirs) (hd : d ∈ s.roots) (hlo : kernBase ≤ va)
    (hhi : va < 4294967296) :
    pageWalk k'.mem (v2p d) va = pageWalk k₃.mem (v2p d) va := by
  have hroots := hfilled.unmapped.roots.trans hfilled.mapped.roots
  exact hfilled.filled.walk_kernel hfilled.sound₃.plain (by decide)
    (hroots ▸ h.dir_root hpgdir) (by decide) (hroots ▸ hd) hlo hhi

theorem Filled.halves (h : r.Sound kpgdir slots first n s)
    (hfilled : Filled kpgdir slots first n r s pgdir pa left k₁ s₁ k₂ k₃ s₂ k' s')
    (hpgdir : pgdir ∈ r.dirs) (heq : HalvesEqual kpgdir r) :
    HalvesEqual kpgdir ⟨k', r.dirs⟩ := by
  have hkernel : Target kpgdir r.dirs kpgdir scratchPage 0 :=
    .kernel _ le_rfl (by decide)
  -- before the process is filled
  have hscratch : HalvesEqual kpgdir ⟨k₃, r.dirs⟩ := by
    apply hfilled.sound₃.halvesEqual
    intro d hd va hlo hhi hzero
    have hzero₃ : entry k₃.mem d (pdx va) = 0 := hzero
    have hroot : d ∈ s₁.roots := hfilled.mapped.roots ▸ h.dir_root hd
    rw [hfilled.unmapped.pde d hroot _ (pdx_lt va),
      hfilled.copied.entry (List.mem_append_left _ hroot) (pdx_lt va),
      (h.half_write hkernel hfilled.mapped.write d hd _ (pdx_kernel hlo hhi)
        (pdx_lt va)).1] at hzero₃
    have hnone := h.walk_none heq hd hlo hhi hzero₃
    refine (hfilled.walk_scratch h).trans ?_
    split_ifs
    · rfl
    · exact hnone
  intro d hd va hlo hhi
  have hsame := hfilled.walk_kernel h hpgdir (h.dir_root hd) hlo hhi
  have hsame' := hfilled.walk_kernel h hpgdir h.kpgdir_root hlo hhi
  exact hsame.trans ((hscratch d hd va hlo hhi).trans hsame'.symm)

end Filled

/-- A new directory copies the kernel half. -/
theorem Sound.newRoot_halves {page : Nat} (h : r.Sound kpgdir slots first n s)
    (hnew : NewRoot r.kernel s kpgdir page k') (heq : HalvesEqual kpgdir r) :
    HalvesEqual kpgdir ⟨k', page :: r.dirs⟩ := by
  intro d hd va hlo hhi
  rcases List.mem_cons.mp hd with rfl | hd
  · exact h.newRoot_kernel hnew hlo hhi
  · rw [h.newRoot_walk hnew (h.dir_root hd), h.newRoot_walk hnew h.kpgdir_root]
    exact heq d hd va hlo hhi

theorem setRoot_halves (heq : HalvesEqual kpgdir r) (root : Nat)
    (proc : Option Nat) : HalvesEqual kpgdir
      ⟨{ r.kernel with cr3 := root, curproc := proc }, r.dirs⟩ := heq

theorem spares_of_shares {call : PagingCall} (hshares : call.SharesTable r) :
    call.SparesDirect := by
  cases call with
  | fault user addr => exact hshares.1
  | _ => trivial

theorem Stepped.halves {call : PagingCall}
    (hstepped : Stepped kpgdir slots first n r s call r')
    (h : r.Sound kpgdir slots first n s) (hshares : call.SharesTable r)
    (heq : HalvesEqual kpgdir r) : HalvesEqual kpgdir r' := by
  cases hstepped with
  | newRoot hnew => exact h.newRoot_halves hnew heq
  | filled hd hfilled => exact hfilled.halves h hd heq
  | @handled user addr d flags pa left k' s' hhandled =>
      by_cases haddr : kernBase ≤ addr
      · exact hhandled.halves_kernel h haddr (hshares.2 haddr) heq
      · exact hhandled.halves_user h (by omega) heq
  | uvm hd => exact setRoot_halves heq _ _
  | kvm => exact setRoot_halves heq _ _

end PagingRun

/-- From the boot on the halves stay equal while every kernel fault finds its
table in every process. -/
theorem halvesEqual_of_shared {image : Image} {ram : Memory} {slots : Int → Nat}
    {bounds : Nat × Nat} {entries : List MmapEntry} {fuel fuel' : Nat} {k : Kernel}
    (hzero : ZeroMemory image ram slots)
    (hboot : boot image bounds entries fuel (loadedKernel image ram slots) =
      .ok k) {calls : List PagingCall}
    (hcalls : EachStep (PagingCall.exec image.kpgdir fuel')
      (fun r call _ => call.Occurs r ∧ call.SharesTable r) calls ⟨k, []⟩) :
    EachStep (PagingCall.exec image.kpgdir fuel')
      (fun _ _ r' => HalvesEqual image.kpgdir r') calls ⟨k, []⟩ := by
  apply hcalls.of_invariant fun r => (∃ s, r.Sound image.kpgdir slots
    (frameBounds image bounds entries).1 (frameCount image bounds entries) s) ∧
      HalvesEqual image.kpgdir r
  · rintro r call r' ⟨⟨s, h⟩, heq⟩ hstep ⟨hoccurs, hshares⟩
    have hstepped :=
      h.stepped hzero.slot hoccurs (spares_of_shares hshares) hstep
    have heq' := hstepped.halves h hshares heq
    exact ⟨⟨hstepped.sound h, heq'⟩, heq'⟩
  · exact ⟨⟨_, sound_of_boot hzero hboot⟩, fun d hd => nomatch hd⟩

theorem halvesEqual_first_fault :
    EachStep (PagingCall.exec smallImage.kpgdir 10)
      (fun _ _ r' => HalvesEqual smallImage.kpgdir r')
      [.fault false 0xF8000000, .umapInit] ⟨smallKernel (fun _ => 0) 2, []⟩ := by
  apply halvesEqual_of_shared smallImage_zero
    (smallKernel_boot smallImage_zero.loaded)
  have hnone : pageWalk (smallKernel (fun _ => 0) 2).mem (v2p smallImage.kpgdir)
      0xF8000000 = none := by
    rw [smallKernel_walk (by decide)]
    decide
  refine fun r' _ => ⟨⟨⟨by decide, ?_⟩, by decide, fun _ d hd => nomatch hd⟩,
    fun r'' _ => ⟨⟨trivial, trivial⟩, trivial⟩⟩
  exact congrArg (accessFaults false) hnone

/-- The kernel has the page, the process does not. -/
theorem smallProcess_fault :
    (PagingCall.exec smallImage.kpgdir 10 (.fault false 0xF8000000)
      ⟨smallProcess, [0xC05E0000]⟩).toOption.map (fun r =>
        (pageWalk r.kernel.mem (v2p smallImage.kpgdir) 0xF8000000,
          pageWalk r.kernel.mem (v2p 0xC05E0000) 0xF8000000, r.dirs)) =
            some (some ⟨0x38000000, true, false⟩, none, [0xC05E0000]) := by
  simp only [PagingCall.exec, pageFaultHandler, mmapDoMap, mapEntry,
    memset_eq_fill]
  decide +kernel

/-- A kernel fault after `umap_init` that needs a new table is seen by `kpgdir`
only. -/
theorem late_table_differs :
    ¬ ∀ (image : Image) (ram : Memory) (slots : Int → Nat)
      (bounds : Nat × Nat) (entries : List MmapEntry) (fuel fuel' : Nat)
      (k : Kernel), ZeroMemory image ram slots →
        boot image bounds entries fuel (loadedKernel image ram slots) = .ok k →
      ∀ calls, EachStep (PagingCall.exec image.kpgdir fuel')
          (fun r call _ => call.Occurs r) calls ⟨k, []⟩ →
        EachStep (PagingCall.exec image.kpgdir fuel')
          (fun _ _ r' => HalvesEqual image.kpgdir r') calls ⟨k, []⟩ := by
  intro hall
  have heach := hall _ _ _ _ _ _ 10 _ smallImage_zero
    (smallKernel_boot smallImage_zero.loaded) [.umapInit, .fault false 0xF8000000]
    (by
      rw [eachStep_cons smallProcess_step]
      exact ⟨trivial, fun r _ => ⟨⟨by decide, by decide +kernel⟩, trivial⟩⟩)
  rw [eachStep_cons smallProcess_step] at heach
  have hafter := smallProcess_fault
  rw [Option.map_eq_some_iff] at hafter
  obtain ⟨r, hfault, hafter⟩ := hafter
  simp only [Prod.mk.injEq] at hafter
  obtain ⟨hkernel, hprocess, hdirs⟩ := hafter
  have hequal := (heach.2 r (ok_of_toOption hfault)).1
  have hwalk := hequal 0xC05E0000 (hdirs ▸ List.mem_singleton_self _) 0xF8000000
    (by decide) (by decide)
  rw [hkernel, hprocess] at hwalk
  cases hwalk

end Linda
