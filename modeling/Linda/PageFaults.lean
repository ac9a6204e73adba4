/-
Page faults over whole runs: when the handler leaves every present page as it
was.
-/
import Linda.PagingRuns

namespace Linda

open ByteMemory CallHistory FuelLoop PagingRun

section Keeps

variable {k k' : Kernel} {s s' : Paging} {d va pa flags : Nat}

theorem leaf_eq_none {pde pte : Nat} :
    leaf pde pte = none ↔ pte.testBit 0 = false := by
  rw [leaf]
  split_ifs with hbit
  · exact iff_of_false (by simp) (by simp [hbit])
  · exact iff_of_true rfl (by simpa using hbit)

theorem PagingAt.walk_slot (h : PagingAt k s) (hplain : AllPlain k.mem s.roots)
    (hd : d ∈ s.roots) (hne : entry k.mem d (pdx va) ≠ 0) :
    pageWalk k.mem (v2p d) va =
      leaf (entry k.mem d (pdx va)) (load32 k.mem (slotOf k.mem d va)) := by
  rw [pageWalk_root (h.root_page hd),
    ((hplain d hd _ (pdx_lt va)).resolve_left hne).walk]
  rfl

theorem PagingAt.walk_empty (h : PagingAt k s) (hd : d ∈ s.roots)
    (hzero : entry k.mem d (pdx va) = 0) : pageWalk k.mem (v2p d) va = none := by
  rw [pageWalk_root (h.root_page hd), hzero, walkEntry_zero]

/-- Page table entries at one place are in one table. -/
theorem PagingAt.table_of_slot (h : PagingAt k s) {d' va' : Nat}
    (hd : d ∈ s.roots) (hd' : d' ∈ s.roots) (hne : entry k.mem d (pdx va) ≠ 0)
    (hmeets : Meets k.mem d' va' (slotOf k.mem d va)) :
    tableOf (entry k.mem d' (pdx va')) = tableOf (entry k.mem d (pdx va)) := by
  obtain ⟨hne', hslot⟩ := hmeets
  have haligned := (h.table_page (h.forest.table hd (pdx_lt va) hne)).aligned
  have haligned' := (h.table_page (h.forest.table hd' (pdx_lt va') hne')).aligned
  have hptx := ptx_lt va
  have hptx' := ptx_lt va'
  simp only [slotOf] at hslot
  omega

theorem Mapped.absent (h : Mapped k s d va pa flags k' s') (hpaging : PagingAt k s)
    (hplain : AllPlain k.mem s.roots) (hd : d ∈ s.roots)
    (hnone : pageWalk k.mem (v2p d) va = none) {d' va' : Nat} (hd' : d' ∈ s.roots)
    (hmeets : Meets k'.mem d' va' (slotOf k'.mem d va)) :
    pageWalk k.mem (v2p d') va' = none := by
  by_cases hzero' : entry k.mem d' (pdx va') = 0
  · exact hpaging.walk_empty hd' hzero'
  have hsame' := h.write.pde_of_ne hd' (pdx_lt va') hzero'
  by_cases hzero : entry k.mem d (pdx va) = 0
  · -- the entry is in a new table, which no other directory has
    have htable := h.paging.table_of_slot (h.roots ▸ hd) (h.roots ▸ hd') h.present
      hmeets
    rw [hsame'] at htable
    exact absurd (htable ▸ hpaging.forest.table hd' (pdx_lt va') hzero')
      (h.fresh hzero)
  · have hsame := h.write.pde_of_ne hd (pdx_lt va) hzero
    have hslot := ((meets_slot_congr hsame hsame').mp hmeets).2
    rw [hpaging.walk_slot hplain hd hzero, leaf_eq_none] at hnone
    rw [hpaging.walk_slot hplain hd' hzero', hslot, leaf_eq_none]
    exact hnone

theorem Mapped.keeps (h : Mapped k s d va pa flags k' s') (hpaging : PagingAt k s)
    (hplain : AllPlain k.mem s.roots) (hsmall : flags.testBit 7 = false)
    (hd : d ∈ s.roots) (hnone : pageWalk k.mem (v2p d) va = none) {d' va' : Nat}
    (hd' : d' ∈ s.roots) {t : Translation}
    (ht : pageWalk k.mem (v2p d') va' = some t) :
    pageWalk k'.mem (v2p d') va' = some t := by
  rw [h.write.walk hplain hsmall d' hd' va', if_neg]
  · exact ht
  · intro hmeets
    rw [h.absent hpaging hplain hd hnone hd' hmeets] at ht
    cases ht

end Keeps

/-- The fault is on a page that the directory the handler uses does not map. -/
def PagingCall.FindsAbsent (kpgdir : Nat) (r : PagingRun) : PagingCall → Prop
  | .fault _ addr => ∀ d, handlerDir kpgdir r.kernel addr = some d →
      pageWalk r.kernel.mem (v2p d) addr = none
  | _ => True

/-- Every page that was present is translated as before, in the kernel and in
every process. -/
def KeepsPresent (kpgdir : Nat) (r r' : PagingRun) : Prop :=
  ∀ d, d = kpgdir ∨ d ∈ r.dirs → ∀ va t,
    pageWalk r.kernel.mem (v2p d) va = some t →
      pageWalk r'.kernel.mem (v2p d) va = some t

/-- A page fault damages no mapping. -/
def FaultKeeps (kpgdir : Nat) (r : PagingRun) (call : PagingCall)
    (r' : PagingRun) : Prop :=
  match call with
  | .fault _ _ => KeepsPresent kpgdir r r'
  | _ => True

section Runs

variable {kpgdir : Nat} {slots : Int → Nat} {first n fuel : Nat}
  {r r' : PagingRun} {s : Paging}

/-- The direct map is there, so a fault on an absent page is not in it. -/
theorem PagingRun.Sound.spares (h : r.Sound kpgdir slots first n s)
    {call : PagingCall} (habsent : call.FindsAbsent kpgdir r) :
    call.SparesDirect := by
  cases call with
  | fault user addr =>
      intro hin
      exact h.direct addr hin.1 hin.2 (habsent kpgdir (if_pos hin.1))
  | _ => trivial

/-- A fault on a page that is not there, or another call. -/
theorem PagingRun.Stepped.keeps {call : PagingCall}
    (hstepped : Stepped kpgdir slots first n r s call r')
    (h : r.Sound kpgdir slots first n s)
    (habsent : call.FindsAbsent kpgdir r) : FaultKeeps kpgdir r call r' := by
  cases hstepped with
  | handled hhandled =>
      intro d' hd' va t ht
      have hroot : d' ∈ s.roots := h.root_iff.mpr hd'.symm
      have hpaging := (h.setMemMap (hhandled.left_ok)).paging
      exact hhandled.mapped.keeps hpaging h.plain hhandled.target.small
        (hhandled.target.root h.roots) (habsent _ hhandled.dir) hroot ht
  | _ => trivial

end Runs

/-- From the boot on no fault on an absent page damages a mapping. -/
theorem faultKeeps_of_absent {image : Image} {ram : Memory} {slots : Int → Nat}
    {bounds : Nat × Nat} {entries : List MmapEntry} {fuel fuel' : Nat} {k : Kernel}
    (hzero : ZeroMemory image ram slots)
    (hboot : boot image bounds entries fuel (loadedKernel image ram slots) =
      .ok k) {calls : List PagingCall}
    (hcalls : EachStep (PagingCall.exec image.kpgdir fuel')
      (fun r call _ => call.Occurs r ∧ call.FindsAbsent image.kpgdir r) calls
      ⟨k, []⟩) :
    EachStep (PagingCall.exec image.kpgdir fuel') (FaultKeeps image.kpgdir) calls
      ⟨k, []⟩ := by
  apply hcalls.of_invariant fun r => ∃ s, r.Sound image.kpgdir slots
    (frameBounds image bounds entries).1 (frameCount image bounds entries) s
  · rintro r call r' ⟨s, h⟩ hstep ⟨hoccurs, habsent⟩
    have hstepped := h.stepped hzero.slot hoccurs (h.spares habsent) hstep
    exact ⟨hstepped.sound h, hstepped.keeps h habsent⟩
  · exact ⟨_, sound_of_boot hzero hboot⟩

theorem smallKernel_walk {ram : Memory} {left : Int} {va : Nat}
    (hva : va < 4294967296) :
    pageWalk (smallKernel ram left).mem (v2p smallImage.kpgdir) va =
      if kernBase ≤ va ∧ va < kernBase + memNormal then
        some ⟨(va - kernBase) &&& pgMask, true, false⟩
      else none := bootedKernel_walk hva

theorem faultKeeps_first_fault :
    EachStep (PagingCall.exec smallImage.kpgdir 10) (FaultKeeps smallImage.kpgdir)
      [.fault false 0xF8000000] ⟨smallKernel (fun _ => 0) 2, []⟩ := by
  apply faultKeeps_of_absent smallImage_zero
    (smallKernel_boot smallImage_zero.loaded)
  have hnone : pageWalk (smallKernel (fun _ => 0) 2).mem (v2p smallImage.kpgdir)
      0xF8000000 = none := by
    rw [smallKernel_walk (by decide)]
    decide
  refine fun r' _ => ⟨⟨⟨by decide, ?_⟩, ?_⟩, trivial⟩
  · exact congrArg (accessFaults false) hnone
  · intro d hd
    obtain rfl : smallImage.kpgdir = d := Option.some.inj hd
    exact hnone

/-- The small image with its process running. -/
def smallAccess : PagingRun :=
  ⟨smallProcess.switchToUvm 0xC05E0000, [0xC05E0000]⟩

/-- The calls before the process touches a page. -/
theorem smallAccess_eachStep {P : PagingRun → PagingCall → PagingRun → Prop}
    {calls : List PagingCall} :
    EachStep (PagingCall.exec smallImage.kpgdir 10) P
        (.umapInit :: .switchToUvm 0xC05E0000 :: calls)
        ⟨smallKernel (fun _ => 0) 2, []⟩ ↔
      P ⟨smallKernel (fun _ => 0) 2, []⟩ .umapInit ⟨smallProcess, [0xC05E0000]⟩ ∧
        P ⟨smallProcess, [0xC05E0000]⟩ (.switchToUvm 0xC05E0000) smallAccess ∧
          EachStep (PagingCall.exec smallImage.kpgdir 10) P calls smallAccess := by
  have hswitch : (PagingCall.switchToUvm 0xC05E0000).exec smallImage.kpgdir 10
      ⟨smallProcess, [0xC05E0000]⟩ = .ok smallAccess := rfl
  rw [eachStep_cons smallProcess_step, eachStep_cons hswitch]

/-- The frame of the kernel's page before and after. -/
theorem smallAccess_fault :
    pageWalk smallAccess.kernel.mem (v2p smallImage.kpgdir) 0xF7000000 =
        some ⟨0x37000000, true, false⟩ ∧
      (PagingCall.exec smallImage.kpgdir 10 (.fault true 0xF7000000)
        smallAccess).toOption.map (fun r =>
          pageWalk r.kernel.mem (v2p smallImage.kpgdir) 0xF7000000) =
            some (some ⟨0x38000000, true, false⟩) := by
  constructor <;> decide +kernel

/-- A user access to a page of the direct map gives the kernel another frame
there. -/
theorem user_access_remaps :
    ¬ ∀ (image : Image) (ram : Memory) (slots : Int → Nat)
      (bounds : Nat × Nat) (entries : List MmapEntry) (fuel fuel' : Nat)
      (k : Kernel), ZeroMemory image ram slots →
        boot image bounds entries fuel (loadedKernel image ram slots) = .ok k →
      ∀ calls, EachStep (PagingCall.exec image.kpgdir fuel')
          (fun r call _ => call.Occurs r) calls ⟨k, []⟩ →
        EachStep (PagingCall.exec image.kpgdir fuel') (FaultKeeps image.kpgdir)
          calls ⟨k, []⟩ := by
  intro hall
  have heach := hall _ _ _ _ _ _ 10 _ smallImage_zero
    (smallKernel_boot smallImage_zero.loaded)
    [.umapInit, .switchToUvm 0xC05E0000, .fault true 0xF7000000] (by
      rw [smallAccess_eachStep]
      exact ⟨trivial, List.mem_singleton_self _, fun r' _ =>
        ⟨⟨by decide, by decide +kernel⟩, trivial⟩⟩)
  rw [smallAccess_eachStep] at heach
  obtain ⟨hbefore, hafter⟩ := smallAccess_fault
  rw [Option.map_eq_some_iff] at hafter
  obtain ⟨r, hfault, hafter⟩ := hafter
  have hkeeps := (heach.2.2 r (ok_of_toOption hfault)).1
  rw [hkeeps smallImage.kpgdir (Or.inl rfl) _ _ hbefore] at hafter
  exact absurd hafter (by decide)

end Linda
