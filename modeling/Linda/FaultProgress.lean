/-
What becomes of the access that raised a page fault, over whole runs: when it
succeeds once the handler has returned.
-/
import Linda.KernelHalves

namespace Linda

open ByteMemory CallHistory FuelLoop PagingRun

namespace PagingCall

/-- Made again, the access that raised the fault succeeds. -/
def Resolved (r' : PagingRun) : PagingCall → Prop
  | .fault user addr => ∃ t,
      pageWalk r'.kernel.mem r'.kernel.cr3 addr = some t ∧
        t.writable = true ∧ (user = true → t.user = true)
  | _ => True

/-- The handler maps the page where the access looks: a user page with the
directory of the process loaded, or a page of the kernel, from kernel mode, with
a table for it in the directory loaded. -/
def Reaches (r : PagingRun) : PagingCall → Prop
  | .fault user addr =>
      (addr < kernBase → ∀ d, r.kernel.curproc = some d → r.kernel.cr3 = v2p d) ∧
        (kernBase ≤ addr → user = false ∧ ∀ d ∈ r.dirs, r.kernel.cr3 = v2p d →
          entry r.kernel.mem d (pdx addr) ≠ 0)
  | _ => True

/-- A process runs, and free frames and kernel pages remain. -/
def Provided (r : PagingRun) : PagingCall → Prop
  | .fault _ _ =>
      (∃ d ∈ r.dirs, r.kernel.curproc = some d ∧ r.kernel.cr3 = v2p d) ∧
        1 ≤ r.kernel.memMap.header ∧ ∃ i j, i < j ∧ j < nvmBlocks ∧
          (r.kernel.kvmlist i).available = true ∧
            (r.kernel.kvmlist j).available = true
  | _ => True

end PagingCall

/-- Every table in the user half of a process is open to the user. -/
def UserTables (r : PagingRun) : Prop :=
  ∀ d ∈ r.dirs, ∀ i < 768, entry r.kernel.mem d i = 0 ∨
    (entry r.kernel.mem d i).testBit 2 = true

namespace PagingRun

variable {kpgdir : Nat} {slots : Int → Nat} {first n fuel : Nat}
  {r r' : PagingRun} {s s' : Paging} {k' : Kernel} {d va pa flags addr : Nat}
  {left : Int}

section UserTables

/-- A table the code makes in the user half has the flag of the page. -/
theorem Sound.userTables_write (h : r.Sound kpgdir slots first n s)
    (htarget : Target kpgdir r.dirs d va flags) {pte : Nat}
    (hwrite : PteWrite r.kernel.mem k'.mem s.roots d va flags pte)
    (htables : UserTables r) : UserTables ⟨k', r.dirs⟩ := by
  intro d' hd' i hi
  dsimp only at hd' ⊢
  rcases hwrite.pde d' (h.dir_root hd') i (by omega) with
    hsame | ⟨⟨rfl, rfl⟩, -, word, hnew⟩
  · rw [hsame]
    exact htables d' hd' i hi
  · cases htarget with
    | kernel _ hlo hhi => exact absurd rfl (h.dir_ne hd')
    | user _ _ hd hva =>
        right
        rw [hnew, pteWord_testBit]
        have hflag : pteU.testBit 2 = true := by decide
        rw [hflag, Bool.or_true]

theorem Sound.userTables_same (h : r.Sound kpgdir slots first n s)
    (hsame : ∀ d ∈ s.roots, ∀ i < 1024,
      entry k'.mem d i = entry r.kernel.mem d i)
    (htables : UserTables r) : UserTables ⟨k', r.dirs⟩ := by
  intro d hd i hi
  dsimp only at hd ⊢
  rw [hsame d (h.dir_root hd) i (by omega)]
  exact htables d hd i hi

theorem setRoot_userTables (htables : UserTables r) (root : Nat)
    (proc : Option Nat) : UserTables
      ⟨{ r.kernel with cr3 := root, curproc := proc }, r.dirs⟩ := htables

theorem Sound.newRoot_userTables {page : Nat} (h : r.Sound kpgdir slots first n s)
    (hnew : NewRoot r.kernel s kpgdir page k') (htables : UserTables r) :
    UserTables ⟨k', page :: r.dirs⟩ := by
  intro d hd i hi
  dsimp only at hd ⊢
  rcases List.mem_cons.mp hd with rfl | hd
  · exact Or.inl (hnew.user i hi)
  · rw [hnew.same.entry (List.mem_append_left _ (h.dir_root hd)) (by omega)]
    exact htables d hd i hi

theorem Filled.userTables {pgdir : Nat} {k₁ k₂ k₃ : Kernel} {s₁ s₂ : Paging}
    (h : r.Sound kpgdir slots first n s) (hpgdir : pgdir ∈ r.dirs)
    (hfilled : Filled kpgdir slots first n r s pgdir pa left k₁ s₁ k₂ k₃ s₂ k' s')
    (htables : UserTables r) : UserTables ⟨k', r.dirs⟩ := by
  have hscratch : Target kpgdir r.dirs kpgdir scratchPage 0 :=
    .kernel _ le_rfl (by decide)
  have huser : Target kpgdir r.dirs pgdir 0 pteU := .user pgdir 0 hpgdir (by decide)
  have htables₁ := (h.setMemMap hfilled.left_ok).userTables_write hscratch
    hfilled.mapped.write htables
  have htables₂ := hfilled.sound₁.userTables_same (fun d hd i hi =>
    hfilled.copied.entry (List.mem_append_left _ hd) hi) htables₁
  have htables₃ := hfilled.sound₂.userTables_same hfilled.unmapped.pde htables₂
  exact hfilled.sound₃.userTables_write huser hfilled.filled.write htables₃

end UserTables

section Resolved

/-- A page mapped for the process whose directory is loaded. -/
theorem Handled.resolved_user {user : Bool} (h : r.Sound kpgdir slots first n s)
    (hhandled : Handled kpgdir slots first n r s addr d flags pa left k' s')
    (haddr : addr < kernBase) (hcr3 : r.kernel.cr3 = v2p d)
    (htables : UserTables ⟨k', r.dirs⟩) :
    (PagingCall.fault user addr).Resolved ⟨k', r.dirs⟩ := by
  have hmapped := hhandled.mapped
  have htarget := hhandled.target
  have hd := htarget.root h.roots
  have hwalk := hmapped.walk_page h.plain htarget.flags_lt htarget.small hd
  have hroot : k'.cr3 = v2p d := hmapped.machine.cr3.trans hcr3
  rw [← hroot] at hwalk
  refine ⟨_, hwalk, rfl, fun _ => ?_⟩
  cases htarget with
  | kernel _ hlo hhi => omega
  | user _ _ hdir hva =>
      have hbit := (htables d hdir _ (pdx_user hva)).resolve_left hmapped.present
      dsimp only at hbit ⊢
      rw [hbit]
      decide

/-- A page of the kernel, where the directory loaded has the table. -/
theorem Handled.resolved_kernel (h : r.Sound kpgdir slots first n s)
    (hhandled : Handled kpgdir slots first n r s addr d flags pa left k' s')
    (haddr : kernBase ≤ addr)
    (htable : ∀ d' ∈ r.dirs, r.kernel.cr3 = v2p d' →
      entry r.kernel.mem d' (pdx addr) ≠ 0) :
    (PagingCall.fault false addr).Resolved ⟨k', r.dirs⟩ := by
  have hmapped := hhandled.mapped
  have htarget := hhandled.target
  have hd := htarget.root h.roots
  have hwalk := hmapped.walk_page h.plain htarget.flags_lt htarget.small hd
  have hdir : d = kpgdir := by
    have hdir := hhandled.dir
    rw [handlerDir, if_pos haddr] at hdir
    exact (Option.some.inj hdir).symm
  subst hdir
  suffices hsame : pageWalk k'.mem k'.cr3 addr = pageWalk k'.mem (v2p d) addr from
    ⟨_, hsame.trans hwalk, rfl, fun huser => by cases huser⟩
  obtain ⟨d', hd', hcr3⟩ := h.cr3
  have hroot : k'.cr3 = v2p d' := hmapped.machine.cr3.trans hcr3
  rw [hroot]
  rcases h.root_iff.mp hd' with hproc | rfl
  · apply hmapped.paging.walk_of_entry (hmapped.roots ▸ hd')
      (hmapped.roots ▸ h.kpgdir_root)
    obtain ⟨hold, hzero | heq⟩ := h.half_write htarget hmapped.write d' hproc _
      (pdx_kernel haddr htarget.va_lt) (pdx_lt addr)
    · exact absurd (hold.symm.trans hzero) (htable d' hproc hcr3)
    · exact heq
  · rfl

/-- Otherwise the access to the kernel's page faults again. -/
theorem Handled.repeats {user : Bool} {d' : Nat} (h : r.Sound kpgdir slots first n s)
    (hhandled : Handled kpgdir slots first n r s addr d flags pa left k' s')
    (haddr : kernBase ≤ addr) (hd' : d' ∈ r.dirs) (hcr3 : r.kernel.cr3 = v2p d')
    (hcause : user = true ∨ entry r.kernel.mem d' (pdx addr) = 0) :
    accessFaults user (pageWalk k'.mem k'.cr3 addr) = true := by
  have hmapped := hhandled.mapped
  have htarget := hhandled.target
  have hroot : k'.cr3 = v2p d' := hmapped.machine.cr3.trans hcr3
  have hd₁ : d' ∈ s'.roots := hmapped.roots ▸ h.dir_root hd'
  obtain ⟨hold, hhalf⟩ := h.half_write htarget hmapped.write d' hd' _
    (pdx_kernel haddr htarget.va_lt) (pdx_lt addr)
  rw [hroot]
  by_cases hzero : entry r.kernel.mem d' (pdx addr) = 0
  · rw [hmapped.paging.walk_empty hd₁ (hold.trans hzero)]
    rfl
  · have huser := hcause.resolve_right hzero
    have heq := hhalf.resolve_left fun hcon => hzero (hold.symm.trans hcon)
    cases htarget with
    | kernel _ hlo hhi =>
        have hwalk := hmapped.walk_page h.plain (by decide) (by decide)
          h.kpgdir_root
        rw [hmapped.paging.walk_of_entry hd₁ (hmapped.roots ▸ h.kpgdir_root) heq,
          hwalk, huser]
        simp [accessFaults]
    | user _ _ hd hva => omega

end Resolved

/-- The direct map is in every directory, so a kernel access that faults and
finds a table is behind it. -/
theorem Sound.reaches_outside {user : Bool} (h : r.Sound kpgdir slots first n s)
    (hoccurs : (PagingCall.fault user addr).Occurs r)
    (hreaches : (PagingCall.fault user addr).Reaches r) :
    ¬ (kernBase ≤ addr ∧ addr < kernBase + memNormal) := by
  rintro ⟨hlo, hhi⟩
  obtain ⟨hlt, hfault⟩ := hoccurs
  obtain ⟨rfl, htable⟩ := hreaches.2 hlo
  have hwalk : pageWalk r.kernel.mem r.kernel.cr3 addr =
      pageWalk r.kernel.mem (v2p kpgdir) addr := by
    obtain ⟨d, hd, hcr3⟩ := h.cr3
    rw [hcr3]
    rcases h.root_iff.mp hd with hproc | rfl
    · apply h.paging.walk_of_entry hd h.kpgdir_root
      exact (h.half d hproc _ (pdx_kernel hlo hlt) (pdx_lt addr)).resolve_left
        (htable d hproc hcr3)
    · rfl
  rw [hwalk] at hfault
  cases ht : pageWalk r.kernel.mem (v2p kpgdir) addr with
  | none => exact h.direct addr hlo hhi ht
  | some t =>
      rw [ht] at hfault
      cases hfault

theorem Sound.spares_of_reaches (h : r.Sound kpgdir slots first n s)
    {call : PagingCall} (hoccurs : call.Occurs r) (hreaches : call.Reaches r) :
    call.SparesDirect := by
  cases call with
  | fault user addr => exact h.reaches_outside hoccurs hreaches
  | _ => trivial

theorem Stepped.userTables {call : PagingCall}
    (hstepped : Stepped kpgdir slots first n r s call r')
    (h : r.Sound kpgdir slots first n s) (htables : UserTables r) :
    UserTables r' := by
  cases hstepped with
  | newRoot hnew => exact h.newRoot_userTables hnew htables
  | filled hd hfilled => exact hfilled.userTables h hd htables
  | handled hhandled =>
      exact (h.setMemMap hhandled.left_ok).userTables_write hhandled.target
        hhandled.mapped.write htables
  | uvm hd => exact setRoot_userTables htables _ _
  | kvm => exact setRoot_userTables htables _ _

theorem Stepped.resolved {call : PagingCall}
    (hstepped : Stepped kpgdir slots first n r s call r')
    (h : r.Sound kpgdir slots first n s) (hreaches : call.Reaches r)
    (htables : UserTables r) : call.Resolved r' := by
  have htables' := hstepped.userTables h htables
  cases hstepped with
  | @handled user addr d flags pa left k' s' hhandled =>
      by_cases haddr : kernBase ≤ addr
      · obtain ⟨rfl, htable⟩ := hreaches.2 haddr
        exact hhandled.resolved_kernel h haddr htable
      · have hdir := hhandled.dir
        rw [handlerDir, if_neg haddr] at hdir
        have hcr3 := hreaches.1 (by omega) d hdir
        exact hhandled.resolved_user h (by omega) hcr3 htables'
  | _ => trivial

end PagingRun

/-- From the boot on the access that raised a fault succeeds afterwards, where
the handler maps the page in the directory the access looks into. -/
theorem faultResolved_of_reaches {image : Image} {ram : Memory}
    {slots : Int → Nat} {bounds : Nat × Nat} {entries : List MmapEntry}
    {fuel fuel' : Nat} {k : Kernel} (hzero : ZeroMemory image ram slots)
    (hboot : boot image bounds entries fuel (loadedKernel image ram slots) =
      .ok k) {calls : List PagingCall}
    (hcalls : EachStep (PagingCall.exec image.kpgdir fuel')
      (fun r call _ => call.Occurs r ∧ call.Reaches r) calls ⟨k, []⟩) :
    EachStep (PagingCall.exec image.kpgdir fuel')
      (fun _ call r' => call.Resolved r') calls ⟨k, []⟩ := by
  apply hcalls.of_invariant fun r => (∃ s, r.Sound image.kpgdir slots
    (frameBounds image bounds entries).1 (frameCount image bounds entries) s) ∧
      UserTables r
  · rintro r call r' ⟨⟨s, h⟩, htables⟩ hstep ⟨hoccurs, hreaches⟩
    have hstepped := h.stepped hzero.slot hoccurs
      (h.spares_of_reaches hoccurs hreaches) hstep
    exact ⟨⟨hstepped.sound h, hstepped.userTables h htables⟩,
      hstepped.resolved h hreaches htables⟩
  · exact ⟨⟨_, sound_of_boot hzero hboot⟩, fun d hd => nomatch hd⟩

theorem faultResolved_first_fault :
    EachStep (PagingCall.exec smallImage.kpgdir 10)
      (fun _ call r' => call.Resolved r')
      [.umapInit, .switchToUvm 0xC05E0000, .fault true 0x1000]
      ⟨smallKernel (fun _ => 0) 2, []⟩ := by
  refine faultResolved_of_reaches smallImage_zero
    (smallKernel_boot smallImage_zero.loaded) ?_
  rw [smallAccess_eachStep]
  refine ⟨⟨trivial, trivial⟩, ⟨List.mem_singleton_self _, trivial⟩,
    fun r' _ => ⟨⟨⟨by decide, ?_⟩, ?_, ?_⟩, trivial⟩⟩
  · decide +kernel
  · rintro - d hd
    obtain rfl := Option.some.inj hd
    rfl
  · exact fun hlo => absurd hlo (by decide)

/-- A kernel access of the process behind the direct map, once handled. -/
theorem smallAccess_repeats :
    (PagingCall.exec smallImage.kpgdir 10 (.fault false 0xF8000000)
      smallAccess).toOption.map (fun r =>
        pageWalk r.kernel.mem r.kernel.cr3 0xF8000000) = some none := by
  simp only [PagingCall.exec, pageFaultHandler, mmapDoMap, mapEntry,
    memset_eq_fill]
  decide +kernel

/-- The handler gives `kpgdir` a table that the running process does not see:
the access faults again. -/
theorem kernel_access_repeats :
    ¬ ∀ (image : Image) (ram : Memory) (slots : Int → Nat)
      (bounds : Nat × Nat) (entries : List MmapEntry) (fuel fuel' : Nat)
      (k : Kernel), ZeroMemory image ram slots →
        boot image bounds entries fuel (loadedKernel image ram slots) = .ok k →
      ∀ calls, EachStep (PagingCall.exec image.kpgdir fuel')
          (fun r call _ => call.Occurs r ∧ call.Provided r) calls ⟨k, []⟩ →
        EachStep (PagingCall.exec image.kpgdir fuel')
          (fun _ call r' => call.Resolved r') calls ⟨k, []⟩ := by
  intro hall
  have heach := hall _ _ _ _ _ _ 10 _ smallImage_zero
    (smallKernel_boot smallImage_zero.loaded)
    [.umapInit, .switchToUvm 0xC05E0000, .fault false 0xF8000000] (by
      rw [smallAccess_eachStep]
      refine ⟨⟨trivial, trivial⟩, ⟨List.mem_singleton_self _, trivial⟩,
        fun r' _ => ⟨⟨⟨by decide, by decide +kernel⟩, ?_⟩, trivial⟩⟩
      refine ⟨⟨0xC05E0000, List.mem_singleton_self _, rfl, rfl⟩, ?_,
        1505, 1506, by decide, by decide, ?_, ?_⟩
      all_goals decide +kernel)
  rw [smallAccess_eachStep] at heach
  have hafter := smallAccess_repeats
  rw [Option.map_eq_some_iff] at hafter
  obtain ⟨r, hfault, hafter⟩ := hafter
  obtain ⟨t, ht, -⟩ := (heach.2.2 r (ok_of_toOption hfault)).1
  rw [hafter] at ht
  cases ht

end Linda
