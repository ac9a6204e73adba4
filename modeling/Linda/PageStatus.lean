/-
The status of the kernel's pages against kpgdir over whole runs: when VM_MAPPED
says what is mapped.
-/
import Linda.FrameIsolation
import Linda.KernelHalves

namespace Linda

open ByteMemory CallHistory FuelLoop PagingRun

/-- The bit `VM_MAPPED` of every kernel page says whether `kpgdir` maps it, and
no page `kvm_alloc_umapped_page` answers is mapped. -/
structure StatusAgrees (kpgdir : Nat) (r : PagingRun) : Prop where
  mapped : ∀ i < nvmBlocks, (r.kernel.kvmlist i).status &&& vmMapped ≠ 0 ↔
    pageWalk r.kernel.mem (v2p kpgdir) (kernBase + i * pgSize) ≠ none
  unmapped : ∀ page, kvmAllocUmappedPage r.kernel = .ok page →
    pageWalk r.kernel.mem (v2p kpgdir) page = none

/-- `kpgdir` maps nothing behind the direct map. -/
def HighEmpty (kpgdir : Nat) (r : PagingRun) : Prop :=
  ∀ va, kernBase + memNormal ≤ va → va < 4294967296 →
    pageWalk r.kernel.mem (v2p kpgdir) va = none

namespace PagingRun

variable {kpgdir : Nat} {slots : Int → Nat} {first n fuel : Nat}
  {r r' : PagingRun} {s : Paging} {k' : Kernel}

/-- With the direct map and nothing behind it the status is right. -/
theorem Sound.statusAgrees (h : r.Sound kpgdir slots first n s)
    (hempty : HighEmpty kpgdir r) : StatusAgrees kpgdir r := by
  constructor
  · intro i hi
    obtain ⟨-, hstatus⟩ := h.blocks i hi
    simp only [nvmBlocks] at hi
    rw [not_iff_not, hstatus]
    constructor
    · intro hhigh
      refine hempty _ ?_ ?_
      · simp only [kernBase, memNormal, pgSize]
        omega
      · simp only [kernBase, pgSize]
        omega
    · intro hnone
      by_contra hlow
      refine h.direct (kernBase + i * pgSize) (by omega) ?_ hnone
      simp only [kernBase, memNormal, pgSize]
      omega
  · intro page hpage
    rw [unmappedPage_eq h.blocks hpage]
    exact hempty _ le_rfl (by decide)

theorem setRoot_highEmpty (hempty : HighEmpty kpgdir r) (root : Nat)
    (proc : Option Nat) : HighEmpty kpgdir
      ⟨{ r.kernel with cr3 := root, curproc := proc }, r.dirs⟩ := hempty

theorem Stepped.highEmpty {call : PagingCall}
    (hstepped : Stepped kpgdir slots first n r s call r')
    (h : r.Sound kpgdir slots first n s) (huser : call.UserFault)
    (hempty : HighEmpty kpgdir r) : HighEmpty kpgdir r' := by
  have hkernel : ∀ {va}, kernBase + memNormal ≤ va → kernBase ≤ va :=
    fun hlo => (Nat.le_add_right _ _).trans hlo
  cases hstepped with
  | newRoot hnew =>
      intro va hlo hhi
      exact (h.newRoot_walk hnew h.kpgdir_root va).trans (hempty va hlo hhi)
  | filled hd hfilled =>
      intro va hlo hhi
      have hsame := hfilled.walk_kernel h hd h.kpgdir_root (hkernel hlo) hhi
      refine hsame.trans ((hfilled.walk_scratch h).trans ?_)
      split_ifs
      · rfl
      · exact hempty va hlo hhi
  | handled hhandled =>
      intro va hlo hhi
      have hsame := hhandled.mapped.walk_kernel h.plain hhandled.target.small
        (hhandled.target.root h.roots) huser h.kpgdir_root (hkernel hlo) hhi
      exact hsame.trans (hempty va hlo hhi)
  | uvm hd => exact setRoot_highEmpty hempty _ _
  | kvm => exact setRoot_highEmpty hempty _ _

theorem highEmpty_of_boot {image : Image} {ram : Memory} {bounds : Nat × Nat}
    {entries : List MmapEntry} {k : Kernel} (hloaded : Loaded image ram)
    (hboot : boot image bounds entries fuel (loadedKernel image ram slots) =
      .ok k) : HighEmpty image.kpgdir ⟨k, []⟩ := by
  obtain ⟨memMap, rfl, -⟩ := boot_ok hloaded hboot
  intro va hlo hhi
  dsimp only
  rw [bootedKernel_walk hhi, if_neg (by omega)]

end PagingRun

/-- From the boot on the status agrees while faults are at user addresses. -/
theorem statusAgrees_of_userFaults {image : Image} {ram : Memory}
    {slots : Int → Nat} {bounds : Nat × Nat} {entries : List MmapEntry}
    {fuel fuel' : Nat} {k : Kernel} (hzero : ZeroMemory image ram slots)
    (hboot : boot image bounds entries fuel (loadedKernel image ram slots) =
      .ok k) {calls : List PagingCall}
    (hcalls : EachStep (PagingCall.exec image.kpgdir fuel')
      (fun r call _ => call.Occurs r ∧ call.UserFault) calls ⟨k, []⟩) :
    StatusAgrees image.kpgdir ⟨k, []⟩ ∧
      EachStep (PagingCall.exec image.kpgdir fuel')
        (fun _ _ r' => StatusAgrees image.kpgdir r') calls ⟨k, []⟩ := by
  have hsound := sound_of_boot hzero hboot
  have hempty := highEmpty_of_boot hzero.loaded hboot
  refine ⟨hsound.statusAgrees hempty, ?_⟩
  apply hcalls.of_invariant fun r => (∃ s, r.Sound image.kpgdir slots
    (frameBounds image bounds entries).1 (frameCount image bounds entries) s) ∧
      HighEmpty image.kpgdir r
  · rintro r call r' ⟨⟨s, h⟩, hempty⟩ hstep ⟨hoccurs, huser⟩
    have hstepped := h.stepped hzero.slot hoccurs (spares_of_user huser) hstep
    have hempty' := hstepped.highEmpty h huser hempty
    obtain ⟨s', h'⟩ := hstepped.sound h
    exact ⟨⟨⟨s', h'⟩, hempty'⟩, h'.statusAgrees hempty'⟩
  · exact ⟨⟨_, hsound⟩, hempty⟩

theorem statusAgrees_first_fault :
    StatusAgrees smallImage.kpgdir ⟨smallKernel (fun _ => 0) 2, []⟩ ∧
      EachStep (PagingCall.exec smallImage.kpgdir 10)
        (fun _ _ r' => StatusAgrees smallImage.kpgdir r')
        [.umapInit, .switchToUvm 0xC05E0000, .fault true 0x1000]
        ⟨smallKernel (fun _ => 0) 2, []⟩ := by
  refine statusAgrees_of_userFaults smallImage_zero
    (smallKernel_boot smallImage_zero.loaded) ?_
  rw [smallAccess_eachStep]
  refine ⟨⟨trivial, trivial⟩, ⟨List.mem_singleton_self _, trivial⟩,
    fun r' _ => ⟨⟨⟨by decide, ?_⟩, show 0x1000 < kernBase by decide⟩, trivial⟩⟩
  decide +kernel

/-- A kernel fault, and the page it mapped. -/
theorem smallKernel_fault :
    (PagingCall.exec smallImage.kpgdir 10 (.fault false 0xF8000000)
      ⟨smallKernel (fun _ => 0) 2, []⟩).toOption.map (fun r =>
        ((r.kernel.kvmlist 229376).status &&& vmMapped,
          (pageWalk r.kernel.mem (v2p smallImage.kpgdir) 0xF8000000).isSome)) =
            some (0, true) := by
  decide +kernel

/-- The handler maps a kernel page without recording it. -/
theorem kernel_fault_unrecorded :
    ¬ ∀ (image : Image) (ram : Memory) (slots : Int → Nat)
      (bounds : Nat × Nat) (entries : List MmapEntry) (fuel fuel' : Nat)
      (k : Kernel), ZeroMemory image ram slots →
        boot image bounds entries fuel (loadedKernel image ram slots) = .ok k →
      ∀ calls, EachStep (PagingCall.exec image.kpgdir fuel')
          (fun r call _ => call.Occurs r) calls ⟨k, []⟩ →
        EachStep (PagingCall.exec image.kpgdir fuel')
          (fun _ _ r' => StatusAgrees image.kpgdir r') calls ⟨k, []⟩ := by
  intro hall
  have hnone : pageWalk (smallKernel (fun _ => 0) 2).mem (v2p smallImage.kpgdir)
      0xF8000000 = none := by
    rw [smallKernel_walk (by decide)]
    decide
  have heach := hall _ _ _ _ _ _ 10 _ smallImage_zero
    (smallKernel_boot smallImage_zero.loaded) [.fault false 0xF8000000]
    (fun r _ => ⟨⟨by decide, congrArg (accessFaults false) hnone⟩, trivial⟩)
  have hafter := smallKernel_fault
  rw [Option.map_eq_some_iff] at hafter
  obtain ⟨r, hfault, hafter⟩ := hafter
  obtain ⟨hstatus, hwalk⟩ := Prod.mk.inj hafter
  have hagrees := (heach r (ok_of_toOption hfault)).1.mapped 229376 (by decide)
  refine hagrees.mpr ?_ hstatus
  exact Option.isSome_iff_ne_none.mp hwalk

end Linda
