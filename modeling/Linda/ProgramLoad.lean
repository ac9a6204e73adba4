/-
uvm_init: the program is copied into a frame through a page of the kernel that
is mapped for the time, and the frame becomes the first page of the process.
-/
import Linda.KernelEntries
import Linda.KernelHalves

namespace Linda

open ByteMemory CallHistory FuelLoop PagingRun

/-- `mmap_do_map` gets the page and the node it asks for. -/
def MapServed (k : Kernel) (d va pa flags : Nat) : Prop :=
  ∃ fuel node, mapNode fuel k d va pa flags = .ok node ∧ node ≠ 0

/-- The frame `uvm_init` takes. -/
def Kernel.nextFrame (k : Kernel) : Nat := (phyMemAlloc k.memMap).1

/-- The kernel once it has taken it. -/
def Kernel.frameTaken (k : Kernel) : Kernel :=
  { k with memMap := (phyMemAlloc k.memMap).2 }

/-- The requests of `uvm_init` succeed, where `virtMem` is its page of the
kernel. -/
structure UvmServed (kpgdir : Nat) (k : Kernel) (virtMem pgdir init sz : Nat) :
    Prop where
  frame : k.nextFrame ≠ 0
  window : MapServed k.frameTaken kpgdir virtMem k.nextFrame 0
  user : ∀ k₁ k₂ k₃, Settles (fun fuel =>
      mmapDoMap fuel k.frameTaken kpgdir virtMem k.nextFrame 0) (.ok k₁) →
    memmove k₁ virtMem init sz = .ok k₂ →
    Settles (fun fuel => mmapDoUnmap fuel k₂ kpgdir virtMem) (.ok k₃) →
      MapServed k₃ pgdir 0 k.nextFrame pteU

/-- The program is below the end of the kernel, beside the kernel's directory
and tables. -/
structure Image.Holds (image : Image) (init sz : Nat) : Prop where
  lo : kernBase ≤ init
  hi : init + sz ≤ image.kernEnd
  kpgdir : init + sz ≤ image.kpgdir ∨ image.kpgdir + 4096 ≤ init
  kpgtbl : init + sz ≤ image.kpgtbl ∨ image.kpgtbl + 4194304 ≤ init

/-- What `uvm_init` made of `k`: the program is in the first page of the
process, and of the page it went through nothing is left. -/
structure ProgramLoaded (kpgdir : Nat) (k : Kernel) (pgdir init sz : Nat)
    (k' : Kernel) : Prop where
  page : ∀ va < pgSize,
    pageWalk k'.mem (v2p pgdir) va = some ⟨k.nextFrame, true, true⟩
  program : ∀ i < sz, k'.mem (kernBase + k.nextFrame + i) = k.mem (init + i)
  kernel : ∀ va, kernBase ≤ va → va < 4294967296 →
    pageWalk k'.mem (v2p kpgdir) va = pageWalk k.mem (v2p kpgdir) va
  entries : ∃ E, MapEntries k E ∧ MapEntries k' (E ++ [(0, k.nextFrame)])

section Calls

variable {k k' : Kernel} {s s' : Paging} {d va va' pa flags : Nat}

/-- Out of zeroed memory a call of which the requests succeed puts its mapping
behind the entries left. -/
theorem MapServed.settles (hserved : MapServed k d va pa flags)
    (h : PagingAt k s) (hz : Zeroed k s.chunks) (hd : d ∈ s.roots)
    (hflags : flags < 4096) :
    ∃ k' s', Settles (fun fuel => mmapDoMap fuel k d va pa flags) (.ok k') ∧
      Mapped k s d va pa flags k' s' ∧ Framed k s k' s' ∧
      s'.entries k' =
        s.leftEntries k d va ++ [(va &&& pgMask, pa &&& pgMask)] := by
  obtain ⟨fuel, node, hnode, hne⟩ := hserved
  obtain ⟨k₁, s₁, k₂, tables', k₃, hun, hunmapped, hentry, hplaced, halloc⟩ :=
    mapNode_parts h hd hflags hnode
  replace hun := (mmapDoUnmap_stable k d va).settles hun (by simp)
  replace halloc := (kmalloc_stable k₂ mmapBlockSize).settles halloc (by simp)
  have hblank := blank_of_zeroed hplaced.paging.toPooled
    (hplaced.zeroed (hunmapped.zeroed hz)) halloc hne
  obtain ⟨k', s', hcall, -, hmapped, hframed, hnodes, hkept, hnew⟩ :=
    mapped_framed h hd hflags hun hentry halloc hne hblank
  refine ⟨k', s', hcall, hmapped, hframed, ?_⟩
  rw [Paging.entries, hnodes, List.map_append, List.map_congr_left hkept,
    List.map_singleton, hnew]
  rfl

/-- No page of the kernel's is in a frame behind the direct map. -/
theorem Pooled.managed_direct (h : Pooled k s) {x : Nat}
    (hx : kernBase + memNormal ≤ x) : OffHeap (s.managed k) x := by
  intro page hpage hin
  have hkernel := h.pool.kernel page (by
    simpa only [Paging.managed, List.append_assoc] using hpage)
  have hhi := hkernel.hi
  rw [pageExtent_iff] at hin
  simp only [pgSize] at hhi
  omega

theorem GoodFrame.page (h : GoodFrame pa) : pa &&& pgMask = pa := by
  have haligned := h.aligned
  rw [and_pgMask h.lt]
  omega

theorem page_offset {i : Nat} (hva : va % 4096 = 0) (hi : i < pgSize) :
    va &&& pgMask = (va + i) &&& pgMask := by
  simp only [pgSize] at hi
  rw [and_pgMask_eq, and_pgMask_eq]
  omega

/-- The walk looks at the page of the address only. -/
theorem PagingAt.walk_page (h : PagingAt k s) (hplain : AllPlain k.mem s.roots)
    (hd : d ∈ s.roots) (hpage : va &&& pgMask = va' &&& pgMask) :
    pageWalk k.mem (v2p d) va = pageWalk k.mem (v2p d) va' := by
  obtain ⟨hpdx, hptx⟩ := (and_pgMask_eq_iff va va').mp hpage
  rw [pageWalk_root (h.root_page hd), pageWalk_root (h.root_page hd), hpdx]
  rcases hplain d hd _ (pdx_lt va') with hzero | hentry
  · rw [hzero, walkEntry_zero, walkEntry_zero]
  · rw [hentry.walk, hentry.walk, hptx]

end Calls

section Window

variable {k : Kernel} {s : Paging} {t : Translation} {src count : Nat}

/-- A store through a page whose frame is behind the direct map. -/
theorem storeByte_window {i : Nat} (hi : i < pgSize)
    (hwalk : pageWalk k.mem k.cr3 (scratchPage + i) = some t) (b : UInt8) :
    storeByte k (u32 (scratchPage + i)) b =
      .ok (k.setMem (store8 k.mem (kernBase + t.frame + i) b)) := by
  have hscratch : scratchPage = 4160749568 := rfl
  simp only [pgSize] at hi
  have hu : u32 (scratchPage + i) = scratchPage + i := u32_of_lt (by omega)
  have hout : ¬ (kernBase ≤ scratchPage + i ∧
      scratchPage + i < kernBase + memNormal) := by
    simp only [kernBase, memNormal]
    omega
  have hmod : (scratchPage + i) % pgSize = i := by
    simp only [pgSize]
    omega
  rw [hu, storeByte, resolve, if_neg hout, hwalk, Option.map_some, hmod]

/-- Without a translation the loop of `memmove` faults at its first store. -/
theorem copyDown_fault {n : Nat} (hn : n < pgSize)
    (hwalk : pageWalk k.mem k.cr3 (scratchPage + n) = none)
    (hsrc : Direct src (n + 1)) :
    copyDown scratchPage src (n + 1) k = .error (.fault (scratchPage + n)) := by
  have hload := loadByte_direct (hsrc.byte n (Nat.lt_succ_self n)) k
  have hscratch : scratchPage = 4160749568 := rfl
  simp only [pgSize] at hn
  have hu : u32 (scratchPage + n) = scratchPage + n := u32_of_lt (by omega)
  have hout : ¬ (kernBase ≤ scratchPage + n ∧
      scratchPage + n < kernBase + memNormal) := by
    simp only [kernBase, memNormal]
    omega
  have hstore : storeByte k (u32 (scratchPage + n)) (k.mem (src + n)) =
      .error (.fault (scratchPage + n)) := by
    rw [hu, storeByte, resolve, if_neg hout, hwalk]
    rfl
  rw [copyDown, hload, ok_bind, hstore]
  rfl

/-- The loop of `memmove` copies into the frame behind the page. -/
theorem copyDown_window (h : PagingAt k s) (hroot : ∃ d ∈ s.roots, k.cr3 = v2p d)
    (hwalk : ∀ i < pgSize,
      pageWalk k.mem k.cr3 (scratchPage + i) = some t)
    (hframe : memNormal ≤ t.frame) (hcount : count ≤ pgSize)
    (hsrc : Direct src count) :
    copyDown scratchPage src count k =
      .ok (k.setMem (copied k.mem (kernBase + t.frame) src count)) := by
  induction count generalizing k with
  | zero =>
      rw [copyDown, copied_zero]
      rfl
  | succ n ih =>
      have hhi := hsrc.2
      have hload := loadByte_direct (hsrc.byte n (by omega)) k
      have hstore := storeByte_window (Nat.lt_of_succ_le hcount)
        (hwalk n (Nat.lt_of_succ_le hcount)) (k.mem (src + n))
      -- the store is behind the direct map, so no walk changes
      have hoff : OffDirect k.mem
          (store8 k.mem (kernBase + t.frame + n) (k.mem (src + n))) :=
        fun x hlo hx => store8_of_ne _ _ (by omega)
      obtain ⟨hpaging, hbeside⟩ := h.offDirect hoff
      obtain ⟨d, hd, hcr3⟩ := hroot
      have hrest := ih hpaging ⟨d, hd, hcr3⟩ (fun i hi => by
        rw [Kernel.setMem_mem, ← hwalk i hi]
        exact hcr3 ▸ h.forest.walk_congr h.pool hbeside.same hd _)
        (by omega) ⟨hsrc.1, by omega⟩
      rw [copyDown, hload, ok_bind, hstore, ok_bind, hrest, Kernel.setMem_mem,
        Kernel.setMem_setMem, copied_store8 (by omega)]

end Window

/-- The directory in use has the table of the scratch page, if a process runs
in it. -/
def HasWindow (r : PagingRun) : Prop :=
  ∀ d ∈ r.dirs, r.kernel.cr3 = v2p d →
    entry r.kernel.mem d (pdx scratchPage) ≠ 0

/-- The program is in the frame, and the page it went through is unmapped
again. -/
structure Carried (kpgdir : Nat) (k : Kernel) (s : Paging) (init sz : Nat)
    (k' : Kernel) (s' : Paging) : Prop where
  paging : PagingAt k' s'
  plain : AllPlain k'.mem s'.roots
  zeroed : Zeroed k' s'.chunks
  roots : s'.roots = s.roots
  entries : s'.entries k' = s.entries k
  walk : ∀ va, pageWalk k'.mem (v2p kpgdir) va = pageWalk k.mem (v2p kpgdir) va
  bottom : ∀ d ∈ s.roots, entry k'.mem d 0 = entry k.mem d 0
  program : ∀ i < sz, k'.mem (kernBase + k.nextFrame + i) = k.mem (init + i)

/-- The scratch page was mapped: it has the last entry of the list. -/
structure ScratchMapped (kpgdir : Nat) (k : Kernel) (s : Paging) (k₁ : Kernel)
    (s₁ : Paging) : Prop where
  call : Settles (fun fuel => mmapDoMap fuel k.frameTaken kpgdir scratchPage
    k.nextFrame 0) (.ok k₁)
  mapped : Mapped k.frameTaken s kpgdir scratchPage k.nextFrame 0 k₁ s₁
  framed : Framed k.frameTaken s k₁ s₁
  entries : s₁.entries k₁ = s.entries k ++ [(scratchPage, k.nextFrame)]

/-- The directory in use sees it. -/
structure Opened (kpgdir : Nat) (k : Kernel) (s : Paging) (k₁ : Kernel)
    (s₁ : Paging) : Prop extends ScratchMapped kpgdir k s k₁ s₁ where
  walk : ∀ i < pgSize, pageWalk k₁.mem k₁.cr3 (scratchPage + i) =
    some ⟨k.nextFrame, true, false⟩

/-- A process runs in a directory that has no table for the scratch page. -/
def LacksWindow (r : PagingRun) (d : Nat) : Prop :=
  d ∈ r.dirs ∧ r.kernel.cr3 = v2p d ∧ entry r.kernel.mem d (pdx scratchPage) = 0

theorem not_hasWindow_iff {r : PagingRun} :
    ¬ HasWindow r ↔ ∃ d, LacksWindow r d := by
  simp only [HasWindow, LacksWindow, not_forall, not_not, exists_prop]

namespace PagingRun

section Load

variable {kpgdir : Nat} {slots : Int → Nat} {first n : Nat} {managed : List Nat}
  {r : PagingRun} {s s₁ : Paging} {k₁ : Kernel} {pa : Nat}

theorem scratch_page : scratchPage &&& pgMask = scratchPage := by decide

/-- The scratch page is in no entry while nothing is mapped there. -/
theorem Tidy.scratch_absent (h : r.Tidy kpgdir slots first n managed s)
    (hscratch : pageWalk r.kernel.mem (v2p kpgdir) scratchPage = none) :
    ∀ e ∈ s.entries r.kernel, e.1 ≠ scratchPage := by
  intro e he heq
  refine h.entries.mapped e he (heq ▸ by decide) ?_
  rw [heq]
  exact hscratch

/-- What the kernel finds in the scratch page once it is mapped. -/
theorem Sound.window_walk (h : r.Sound kpgdir slots first n s)
    (hmapped : Mapped r.kernel s kpgdir scratchPage pa 0 k₁ s₁)
    (hsound : Sound kpgdir slots first n ⟨k₁, r.dirs⟩ s₁) (hpa : GoodFrame pa)
    (hwindow : HasWindow r) : ∀ i < pgSize,
      pageWalk k₁.mem k₁.cr3 (scratchPage + i) = some ⟨pa, true, false⟩ := by
  intro i hi
  have hpage : scratchPage &&& pgMask = (scratchPage + i) &&& pgMask :=
    page_offset (by decide) hi
  have hkernel : pageWalk k₁.mem (v2p kpgdir) (scratchPage + i) =
      some ⟨pa, true, false⟩ := by
    rw [hmapped.walk_eq h.plain h.kpgdir_root, if_pos hpage, hpa.page]
  obtain ⟨d, hd, hcr3⟩ := h.cr3
  rw [hmapped.machine.cr3, hcr3, ← hkernel]
  rcases h.root_iff.mp hd with hproc | rfl
  · -- the process shares the table
    have hpdx : pdx (scratchPage + i) = pdx scratchPage :=
      ((and_pgMask_eq_iff _ _).mp hpage).1.symm
    obtain ⟨hsame, hhalf⟩ := h.half_write scratch_target hmapped.write d hproc
      (pdx scratchPage) (by decide) (by decide)
    apply hsound.paging.walk_of_entry (hmapped.roots.symm ▸ hd)
      hsound.kpgdir_root
    rw [hpdx]
    exact hhalf.resolve_left (hsame ▸ hwindow d hproc hcr3)
  · rfl

theorem Sound.taken (hslot : slots 0 = 0) (h : r.Sound kpgdir slots first n s) :
    GoodFrame r.kernel.nextFrame ∧ ∃ left, FramesLeft first n left ∧
      r.kernel.frameTaken =
        { r.kernel with memMap := frameMap slots first n left } := by
  obtain ⟨pa, left, halloc, hgood, hframes⟩ := h.alloc hslot
  simp only [Kernel.nextFrame, Kernel.frameTaken, halloc]
  exact ⟨hgood, left, hframes, rfl⟩

theorem Tidy.scratchMapped (hslot : slots 0 = 0)
    (h : r.Tidy kpgdir slots first n managed s)
    (hscratch : pageWalk r.kernel.mem (v2p kpgdir) scratchPage = none)
    (hserved : MapServed r.kernel.frameTaken kpgdir scratchPage
      r.kernel.nextFrame 0) :
    ∃ k₁ s₁, ScratchMapped kpgdir r.kernel s k₁ s₁ ∧
      Sound kpgdir slots first n ⟨k₁, r.dirs⟩ s₁ := by
  obtain ⟨hgood, left, hframes, htaken⟩ := h.toSound.taken hslot
  have h₀ : Tidy kpgdir slots first n managed
      ⟨r.kernel.frameTaken, r.dirs⟩ s := htaken ▸ h.setMemMap hframes
  obtain ⟨k₁, s₁, hcall, hmapped, hframed, hentries⟩ :=
    hserved.settles h₀.paging h₀.zeroed h₀.kpgdir_root (by decide)
  have htarget : Target kpgdir r.dirs kpgdir scratchPage 0 := scratch_target
  have hsound := h₀.of_write htarget hmapped.paging hmapped.roots
    hmapped.zeroed hmapped.machine hmapped.write (htarget.leaf_away hgood)
  have hleft : s.leftEntries r.kernel.frameTaken kpgdir scratchPage =
      s.entries r.kernel := by
    rw [Paging.leftEntries_eq, scratch_page]
    split_ifs
    · rfl
    · exact unlinkEntries_of_ne (h.scratch_absent hscratch)
  rw [hleft, scratch_page, hgood.page] at hentries
  exact ⟨k₁, s₁, ⟨hcall, hmapped, hframed, hentries⟩, hsound⟩

theorem Tidy.opened (hslot : slots 0 = 0)
    (h : r.Tidy kpgdir slots first n managed s)
    (hscratch : pageWalk r.kernel.mem (v2p kpgdir) scratchPage = none)
    (hwindow : HasWindow r)
    (hserved : MapServed r.kernel.frameTaken kpgdir scratchPage
      r.kernel.nextFrame 0) :
    ∃ k₁ s₁, Opened kpgdir r.kernel s k₁ s₁ ∧
      Sound kpgdir slots first n ⟨k₁, r.dirs⟩ s₁ := by
  obtain ⟨hgood, left, hframes, htaken⟩ := h.toSound.taken hslot
  have h₀ : Sound kpgdir slots first n ⟨r.kernel.frameTaken, r.dirs⟩ s :=
    htaken ▸ h.toSound.setMemMap hframes
  obtain ⟨k₁, s₁, hmapped, hsound⟩ := h.scratchMapped hslot hscratch hserved
  exact ⟨k₁, s₁,
    ⟨hmapped, h₀.window_walk hmapped.mapped hsound hgood hwindow⟩, hsound⟩

section Missing

variable {d : Nat}

/-- The table that `mmap_do_map` makes does not come into the directory of the
process. -/
theorem Sound.lacksWindow (hslot : slots 0 = 0)
    (h : r.Sound kpgdir slots first n s) (hlacks : LacksWindow r d)
    (hmapped : ScratchMapped kpgdir r.kernel s k₁ s₁) :
    LacksWindow ⟨k₁, r.dirs⟩ d := by
  obtain ⟨hd, hcr3, hzero⟩ := hlacks
  obtain ⟨-, left, hframes, htaken⟩ := h.taken hslot
  have h₀ : Sound kpgdir slots first n ⟨r.kernel.frameTaken, r.dirs⟩ s :=
    htaken ▸ h.setMemMap hframes
  have hhalf := h₀.half_write scratch_target hmapped.mapped.write d hd
    (pdx scratchPage) (by decide) (by decide)
  exact ⟨hd, hmapped.mapped.machine.cr3.trans hcr3, hhalf.1.trans hzero⟩

/-- No access finds the scratch page. -/
theorem Sound.window_none (h : r.Sound kpgdir slots first n s)
    (hlacks : LacksWindow r d) {i : Nat} (hi : i < pgSize) :
    pageWalk r.kernel.mem r.kernel.cr3 (scratchPage + i) = none := by
  obtain ⟨hd, hcr3, hzero⟩ := hlacks
  have hpage : scratchPage &&& pgMask = (scratchPage + i) &&& pgMask :=
    page_offset (by decide) hi
  have hpdx : pdx (scratchPage + i) = pdx scratchPage :=
    ((and_pgMask_eq_iff _ _).mp hpage).1.symm
  rw [hcr3]
  exact h.paging.walk_empty (h.dir_root hd) (hpdx ▸ hzero)

/-- Nor does it however often the handler has returned. -/
theorem Sound.window_faults (hslot : slots 0 = 0)
    (h : r.Sound kpgdir slots first n s) (hlacks : LacksWindow r d) {i : Nat}
    (hi : i < pgSize) {fuel times : Nat} {r' : PagingRun}
    (hrun : run (PagingCall.exec kpgdir fuel)
      (List.replicate times (.fault false (scratchPage + i))) r = .ok r') :
    pageWalk r'.kernel.mem r'.kernel.cr3 (scratchPage + i) = none := by
  induction times generalizing r s with
  | zero =>
      obtain rfl := Except.ok.inj hrun
      exact h.window_none hlacks hi
  | succ times ih =>
      obtain ⟨r₁, hstep, hrest⟩ := ok_of_bind hrun
      have hscratch : scratchPage = 4160749568 := rfl
      have hi' : i < 4096 := hi
      have hoccurs : (PagingCall.fault false (scratchPage + i)).Occurs r := by
        refine ⟨by omega, ?_⟩
        rw [h.window_none hlacks hi]
        rfl
      have hspares : (PagingCall.fault false (scratchPage + i)).SparesDirect := by
        simp only [PagingCall.SparesDirect, kernBase, memNormal]
        omega
      cases h.stepped hslot hoccurs hspares hstep with
      | handled hhandled =>
          obtain ⟨hd, hcr3, hzero⟩ := hlacks
          have hhalf := h.half_write hhandled.target hhandled.mapped.write d hd
            (pdx scratchPage) (by decide) (by decide)
          exact ih hhandled.sound ⟨hd, hhandled.mapped.machine.cr3.trans hcr3,
            hhalf.1.trans hzero⟩ hrest

end Missing

end Load

end PagingRun

section Carry

variable {kpgdir : Nat} {slots : Int → Nat} {first n : Nat} {r : PagingRun}
  {s s₁ : Paging} {k k₁ : Kernel} {init sz : Nat}

section Closing

variable {m : Memory} {k₃ : Kernel} {s₃ : Paging}
  (h : r.Sound kpgdir slots first n s) (hopened : Opened kpgdir r.kernel s k₁ s₁)
  (hsound : Sound kpgdir slots first n ⟨k₁, r.dirs⟩ s₁)
  (hoff : OffDirect k₁.mem m)
  (hunmapped : Unmapped (k₁.setMem m) s₁ kpgdir scratchPage k₃ s₃)

include hopened hsound hoff

/-- Stores through the scratch page leave the directories alone. -/
theorem Opened.stored_entry {d i : Nat} (hd : d ∈ s.roots) (hi : i < 1024) :
    entry m d i = entry k₁.mem d i :=
  (hsound.stores ⟨m, hoff, rfl⟩).2.entry
    (List.mem_append_left _ (hopened.mapped.roots ▸ hd)) hi

include hunmapped

/-- The tables of the bottom of a process are others. -/
theorem Opened.closed_bottom {d : Nat} (hd : d ∈ s.roots) :
    entry k₃.mem d 0 = entry r.kernel.mem d 0 := by
  rw [hunmapped.pde d (hopened.mapped.roots ▸ hd) 0 (by decide)]
  refine (hopened.stored_entry hsound hoff hd (by decide)).trans ?_
  rcases hopened.mapped.write.pde d hd 0 (by decide) with hsame | ⟨⟨-, hpdx⟩, -⟩
  · exact hsame
  · exact absurd hpdx (by decide)

include h

/-- The entry of the scratch page was the last one; it is taken out again. -/
theorem Opened.closed_entries
    (habsent : ∀ e ∈ s.entries r.kernel, e.1 ≠ scratchPage) :
    s₃.entries k₃ = s.entries r.kernel := by
  have hkept : s₁.entries (k₁.setMem m) = s₁.entries k₁ :=
    List.map_congr_left fun c hc =>
      (hsound.paging.offDirect_node hoff c hc).entry
  have hpresent : entry m kpgdir (pdx scratchPage) ≠ 0 := by
    rw [hopened.stored_entry hsound hoff h.kpgdir_root (pdx_lt _)]
    exact hopened.mapped.present
  rw [hunmapped.entries_eq, Paging.leftEntries_eq, Kernel.setMem_mem,
    if_neg hpresent, scratch_page, hkept, hopened.entries,
    unlinkEntries_snoc habsent]

/-- Nothing is mapped there again. -/
theorem Opened.closed_walk
    (hscratch : pageWalk r.kernel.mem (v2p kpgdir) scratchPage = none)
    (va : Nat) : pageWalk k₃.mem (v2p kpgdir) va =
      pageWalk r.kernel.mem (v2p kpgdir) va := by
  obtain ⟨hsound₂, hsame⟩ := hsound.stores ⟨m, hoff, rfl⟩
  have hroot : kpgdir ∈ s₁.roots := hopened.mapped.roots.symm ▸ h.kpgdir_root
  rw [hunmapped.walk_eq hsound₂.plain hroot va]
  split_ifs with hpage
  · rw [← h.paging.walk_page h.plain h.kpgdir_root hpage, hscratch]
  · have hwalk :=
      hsound.paging.forest.walk_congr hsound.paging.pool hsame hroot va
    refine hwalk.trans ?_
    rw [hopened.mapped.walk_eq h.plain h.kpgdir_root va, if_neg hpage]
    rfl

end Closing

/-- The copy goes into the frame, and the scratch page is unmapped. -/
theorem Opened.carried (h : r.Sound kpgdir slots first n s)
    (hopened : Opened kpgdir r.kernel s k₁ s₁)
    (hsound : Sound kpgdir slots first n ⟨k₁, r.dirs⟩ s₁)
    (hscratch : pageWalk r.kernel.mem (v2p kpgdir) scratchPage = none)
    (habsent : ∀ e ∈ s.entries r.kernel, e.1 ≠ scratchPage)
    (hframe : memNormal ≤ r.kernel.nextFrame) (hsz : sz ≤ pgSize)
    (hdirect : Direct init sz) (hbelow : init < scratchPage)
    (hsrc : ∀ i < sz, OffHeap (s.managed r.kernel) (init + i)) :
    ∃ k₂ k₃ s₃, memmove k₁ scratchPage init sz = .ok k₂ ∧
      Settles (fun fuel => mmapDoUnmap fuel k₂ kpgdir scratchPage) (.ok k₃) ∧
      Carried kpgdir r.kernel s init sz k₃ s₃ := by
  let m := copied k₁.mem (kernBase + r.kernel.nextFrame) init sz
  have hmove : memmove k₁ scratchPage init sz = .ok (k₁.setMem m) := by
    rw [memmove, if_neg (by omega)]
    exact copyDown_window hsound.paging hsound.cr3 hopened.walk hframe hsz
      hdirect
  have hoff : OffDirect k₁.mem m := fun x _ hx =>
    copied_of_outside _ _ (Or.inl (by omega))
  obtain ⟨hsound₂, -⟩ := hsound.stores ⟨m, hoff, rfl⟩
  obtain ⟨k₃, s₃, hun, hunmapped, hframed⟩ :=
    unmapped_framed hsound₂.paging hsound₂.kpgdir_root scratchPage
  refine ⟨k₁.setMem m, k₃, s₃, hmove, hun, hunmapped.paging, ?_,
    hunmapped.zeroed hsound₂.zeroed,
    hunmapped.roots.trans hopened.mapped.roots,
    hopened.closed_entries h hsound hoff hunmapped habsent,
    hopened.closed_walk h hsound hoff hunmapped hscratch,
    fun d hd => hopened.closed_bottom hsound hoff hunmapped hd, ?_⟩
  · exact hunmapped.roots ▸
      (hunmapped.write 0).allPlain hsound₂.plain (by decide)
  · intro i hi
    rw [hframed.outside _ (hsound₂.paging.managed_direct (by omega))]
    have hat : kernBase + r.kernel.nextFrame + i -
        (kernBase + r.kernel.nextFrame) = i := by omega
    refine (if_pos (by omega)).trans ?_
    rw [hat]
    exact hopened.framed.outside _ (hsrc i hi)

/-- The frame becomes the first page of the process. -/
theorem Carried.loaded {k₃ : Kernel} {s₃ : Paging} {pgdir : Nat}
    (h : PagingAt k s) (hcarried : Carried kpgdir k s init sz k₃ s₃)
    (hkpgdir : kpgdir ∈ s.roots) (hd : pgdir ∈ s.roots)
    (hempty : entry k.mem pgdir 0 = 0) (hgood : GoodFrame k.nextFrame)
    (hframe : memNormal ≤ k.nextFrame)
    (hserved : MapServed k₃ pgdir 0 k.nextFrame pteU) :
    ∃ k', Settles (fun fuel => mmapDoMap fuel k₃ pgdir 0 k.nextFrame pteU)
        (.ok k') ∧ ProgramLoaded kpgdir k pgdir init sz k' := by
  have hroot : pgdir ∈ s₃.roots := hcarried.roots.symm ▸ hd
  obtain ⟨k', s', hcall, hmapped, hframed, hentries⟩ :=
    hserved.settles hcarried.paging hcarried.zeroed hroot (by decide)
  have hzero : entry k₃.mem pgdir (pdx 0) = 0 :=
    (hcarried.bottom pgdir hd).trans hempty
  have hpa : k.nextFrame &&& pgMask = k.nextFrame := hgood.page
  refine ⟨k', hcall, ?_, ?_, ?_, ?_⟩
  · intro va hva
    have hpage : 0 &&& pgMask = va &&& pgMask := by
      simpa using page_offset (Nat.zero_mod 4096) hva
    have huser : (entry k'.mem pgdir (pdx 0)).testBit 2 = true := by
      rcases hmapped.write.pde pgdir hroot (pdx 0) (by decide) with hsame |
        ⟨-, -, addr, hpde⟩
      · exact absurd (hsame.trans hzero) hmapped.present
      · have hbit : pteU.testBit 2 = true := by decide
        rw [hpde, pteWord_testBit, hbit, Bool.or_true]
    rw [hmapped.walk_flags hcarried.plain (by decide) (by decide) hroot,
      if_pos hpage, hpa, huser]
    rfl
  · intro i hi
    rw [hframed.outside _ (hcarried.paging.managed_direct (by omega))]
    exact hcarried.program i hi
  · intro va hlo hhi
    have hkernel : kpgdir ∈ s₃.roots := hcarried.roots.symm ▸ hkpgdir
    rw [hmapped.walk_kernel hcarried.plain (by decide) hroot (by decide) hkernel
      hlo hhi]
    exact hcarried.walk va
  · refine ⟨s.entries k, h.mapEntries_iff.mpr rfl,
      hmapped.paging.mapEntries_iff.mpr ?_⟩
    change s'.entries k' = _
    rw [hentries, Paging.leftEntries_eq, if_pos hzero, hcarried.entries, hpa,
      Nat.zero_and]

/-- Once the scratch page is mapped, the rest of `uvm_init` decides. -/
theorem uvmInit_mapped {page pgdir : Nat} {answer : Except Halt Kernel}
    (hpage : kvmAllocUmappedPage k = .ok page) (hsz : sz ≤ pgSize)
    (hframe : k.nextFrame ≠ 0)
    (hmap : Settles (fun fuel => mmapDoMap fuel k.frameTaken kpgdir page
      k.nextFrame 0) (.ok k₁))
    (hrest : Settles (fun fuel => do
      let k₂ ← memmove k₁ page init sz
      let k₃ ← mmapDoUnmap fuel k₂ kpgdir page
      mmapDoMap fuel k₃ pgdir 0 k.nextFrame pteU) answer) :
    Settles (fun fuel => uvmInit kpgdir fuel k pgdir init sz) answer := by
  simp only [uvmInit, hpage, ok_bind, if_neg (not_lt.mpr hsz)]
  change Settles (fun fuel => if k.nextFrame = 0 then _ else _) _
  simp only [if_neg hframe]
  exact hmap.bind hrest

theorem uvmInit_settles {k₂ k₃ k' : Kernel} {page pgdir : Nat}
    (hpage : kvmAllocUmappedPage k = .ok page) (hsz : sz ≤ pgSize)
    (hframe : k.nextFrame ≠ 0)
    (hmap : Settles (fun fuel => mmapDoMap fuel k.frameTaken kpgdir page
      k.nextFrame 0) (.ok k₁))
    (hmove : memmove k₁ page init sz = .ok k₂)
    (hun : Settles (fun fuel => mmapDoUnmap fuel k₂ kpgdir page) (.ok k₃))
    (hfill : Settles (fun fuel => mmapDoMap fuel k₃ pgdir 0 k.nextFrame pteU)
      (.ok k')) :
    Settles (fun fuel => uvmInit kpgdir fuel k pgdir init sz) (.ok k') := by
  refine uvmInit_mapped hpage hsz hframe hmap ?_
  simp only [hmove, ok_bind]
  exact hun.bind hfill

end Carry

section Boot

variable {image : Image} {ram : Memory} {slots : Int → Nat}
  {bounds : Nat × Nat} {entries : List MmapEntry} {fuel fuel' : Nat} {k : Kernel}
  {r : PagingRun} {virtMem pgdir init sz : Nat}

theorem Image.Holds.direct (h : image.Holds init sz) : Direct init sz := by
  have hend := image.kernEnd_hi
  have hhi := h.hi
  refine ⟨h.lo, ?_⟩
  simp only [memNormal]
  omega

/-- The kernel manages no page of the program. -/
theorem Image.Holds.offHeap (h : image.Holds init sz) {memMap : MemMap}
    (hcount : memMap.pageCount ≤ 1048576) : ∀ i < sz,
      OffHeap ((bootPaging image).managed (bootedKernel image ram memMap))
        (init + i) := by
  intro i hi page hpage hin
  obtain ⟨-, hhi, hdir, htbl⟩ := h
  rw [pageExtent_iff] at hin
  rcases List.mem_append.mp hpage with hfixed | hfresh
  · rcases List.mem_append.mp hfixed with hfixed | hheap
    · rcases List.mem_append.mp hfixed with hroot | htable
      · obtain rfl := List.mem_singleton.mp hroot
        omega
      · obtain ⟨j, hj, rfl⟩ := mem_bootTables.mp htable
        simp only [Image.table] at hin
        omega
    · cases hheap
  · have hbehind := (bootedKernel_page hcount hfresh).2
    omega

/-- In every state the paging code reaches, `uvm_init` loads the program and
leaves no trace of the page it goes through. -/
theorem uvmInit_loads (hzero : ZeroMemory image ram slots)
    (hboot : boot image bounds entries fuel (loadedKernel image ram slots) =
      .ok k) {calls : List PagingCall}
    (hcalls : EachStep (PagingCall.exec image.kpgdir fuel')
      (fun r call _ => call.Occurs r ∧ call.SparesDirect) calls ⟨k, []⟩)
    (hrun : run (PagingCall.exec image.kpgdir fuel') calls ⟨k, []⟩ = .ok r)
    (hvirt : kvmAllocUmappedPage r.kernel = .ok virtMem)
    (hscratch : pageWalk r.kernel.mem (v2p image.kpgdir) virtMem = none)
    (hwindow : HasWindow r) (hd : pgdir ∈ image.kpgdir :: r.dirs)
    (hempty : ∀ i < 768, entry r.kernel.mem pgdir i = 0) (hsz : sz ≤ pgSize)
    (himage : image.Holds init sz)
    (hserved : UvmServed image.kpgdir r.kernel virtMem pgdir init sz) :
    ∃ k', Settles (fun fuel => uvmInit image.kpgdir fuel r.kernel pgdir init sz)
        (.ok k') ∧ ProgramLoaded image.kpgdir r.kernel pgdir init sz k' := by
  obtain ⟨s, h⟩ := (tidy_of_boot hzero hboot).run hzero.slot hcalls hrun
  obtain ⟨memMap, rfl, hcount⟩ := boot_ok hzero.loaded hboot
  obtain rfl := unmappedPage_eq h.blocks hvirt
  obtain ⟨hgood, -⟩ := h.toSound.taken hzero.slot
  have hframe := hgood.away.resolve_left hserved.frame
  have hdirect := himage.direct
  have hbelow : init < scratchPage := by
    have hend := image.kernEnd_hi
    have hhi := himage.hi
    simp only [scratchPage, memNormal]
    omega
  have hroot : pgdir ∈ s.roots := by
    rw [h.root_iff]
    exact (List.mem_cons.mp hd).symm
  obtain ⟨k₁, s₁, hopened, hsound⟩ :=
    h.opened hzero.slot hscratch hwindow hserved.window
  obtain ⟨k₂, k₃, s₃, hmove, hun, hcarried⟩ := hopened.carried h.toSound hsound
    hscratch (h.scratch_absent hscratch) hframe hsz hdirect hbelow
    fun i hi page hpage => himage.offHeap hcount i hi page (h.pages hpage)
  obtain ⟨k', hfill, hloaded⟩ := hcarried.loaded h.paging h.kpgdir_root hroot
    (hempty 0 (by decide)) hgood hframe
    (hserved.user k₁ k₂ k₃ hopened.call hmove hun)
  exact ⟨k', uvmInit_settles hvirt hsz hserved.frame hopened.call hmove hun hfill,
    hloaded⟩

/-- The copy faults at its first store, and again however often the handler has
returned. -/
def CopyFaults (kpgdir : Nat) (r : PagingRun) (init sz : Nat) : Prop :=
  ∃ k₁, Settles (fun fuel => mmapDoMap fuel r.kernel.frameTaken kpgdir scratchPage
      r.kernel.nextFrame 0) (.ok k₁) ∧
    memmove k₁ scratchPage init sz = .error (.fault (scratchPage + (sz - 1))) ∧
    ∀ fuel times r', run (PagingCall.exec kpgdir fuel)
        (List.replicate times (.fault false (scratchPage + (sz - 1))))
        ⟨k₁, r.dirs⟩ = .ok r' →
      pageWalk r'.kernel.mem r'.kernel.cr3 (scratchPage + (sz - 1)) = none

theorem CopyFaults.uvmInit {kpgdir : Nat} (h : CopyFaults kpgdir r init sz)
    (hvirt : kvmAllocUmappedPage r.kernel = .ok scratchPage) (hsz : sz ≤ pgSize)
    (hframe : r.kernel.nextFrame ≠ 0) :
    Settles (fun fuel => Linda.uvmInit kpgdir fuel r.kernel pgdir init sz)
      (.error (.fault (scratchPage + (sz - 1)))) := by
  obtain ⟨k₁, hmap, hmove, -⟩ := h
  refine uvmInit_mapped hvirt hsz hframe hmap ?_
  simp only [hmove]
  exact settles_const _

/-- Where a process runs in a directory without the table of the scratch page,
`uvm_init` does not come back. -/
theorem copyFaults_of_not_hasWindow (hzero : ZeroMemory image ram slots)
    (hboot : boot image bounds entries fuel (loadedKernel image ram slots) =
      .ok k) {calls : List PagingCall}
    (hcalls : EachStep (PagingCall.exec image.kpgdir fuel')
      (fun r call _ => call.Occurs r ∧ call.SparesDirect) calls ⟨k, []⟩)
    (hrun : run (PagingCall.exec image.kpgdir fuel') calls ⟨k, []⟩ = .ok r)
    (hscratch : pageWalk r.kernel.mem (v2p image.kpgdir) scratchPage = none)
    (hwindow : ¬ HasWindow r) (hpos : 0 < sz) (hsz : sz ≤ pgSize)
    (himage : image.Holds init sz)
    (hserved : MapServed r.kernel.frameTaken image.kpgdir scratchPage
      r.kernel.nextFrame 0) : CopyFaults image.kpgdir r init sz := by
  obtain ⟨d, hlacks⟩ := not_hasWindow_iff.mp hwindow
  obtain ⟨s, h⟩ := (tidy_of_boot hzero hboot).run hzero.slot hcalls hrun
  have hbelow : init < scratchPage := by
    have hend := image.kernEnd_hi
    have hhi := himage.hi
    simp only [scratchPage, memNormal]
    omega
  obtain ⟨k₁, s₁, hmapped, hsound⟩ :=
    h.scratchMapped hzero.slot hscratch hserved
  have hlacks₁ := h.toSound.lacksWindow hzero.slot hlacks hmapped
  have hlast : sz - 1 < pgSize := by omega
  refine ⟨k₁, hmapped.call, ?_,
    fun _ _ _ => hsound.window_faults hzero.slot hlacks₁ hlast⟩
  obtain ⟨n, rfl⟩ := Nat.exists_eq_add_of_lt hpos
  rw [Nat.zero_add] at himage hlast ⊢
  rw [memmove, if_neg (by omega)]
  exact copyDown_fault hlast (hsound.window_none hlacks₁ hlast) himage.direct

end Boot

/-- There is always a page `kmap_init` left unmapped. -/
theorem unmappedPage_ok {k : Kernel} (h : MappedBlocks k.kvmlist) :
    kvmAllocUmappedPage k = .ok scratchPage := by
  cases hcall : kvmAllocUmappedPage k with
  | ok page => exact congrArg Except.ok (@unmappedPage_eq ⟨k, []⟩ h page hcall)
  | error e =>
      rw [kvmAllocUmappedPage] at hcall
      cases hscan : kvmScan k.kvmlist
          (fun block => block.status &&& vmMapped == 0) nvmBlocks 0 with
      | some i => rw [hscan] at hcall; cases hcall
      | none =>
          have hmapped := kvmScan_none hscan 229376 (by decide) (by decide)
          have hzero := (h 229376 (by decide)).2.mpr le_rfl
          simp [hzero] at hmapped

/-- A program of four bytes in the memory below the kernel. -/
def programRam : Memory := store32 (fun _ => 0) 0xC0007C00 0x04030201

def programProcess : Kernel :=
  let k := smallKernel programRam 2
  (k.setKvmlist (setBlock k.kvmlist 1504 (k.kvmlist 1504).use)).setMem
    (directoryMemory k.mem smallImage.kpgdir 0xC05E0000)

theorem programRam_zero : ZeroMemory smallImage programRam fun _ => 0 := by
  have hout : ∀ x, 0xC0007C04 ≤ x → programRam x = 0 := fun x hx =>
    store32_of_outside _ _ (Or.inr hx)
  have hdir : smallImage.kpgdir = 0xC0100000 := rfl
  have htbl : smallImage.kpgtbl = 0xC0101000 := rfl
  have hend : smallImage.kernEnd = 0xC0501000 := rfl
  refine ⟨⟨fun x hx => hout x ?_, fun x hx _ => hout x ?_⟩,
    fun x hx => hout x ?_, rfl⟩
  · have hlo := (pageExtent_iff.mp hx).1
    omega
  · omega
  · omega

theorem programProcess_window :
    (mapNode 10 programProcess.frameTaken smallImage.kpgdir scratchPage
      programProcess.nextFrame 0).toOption = some 0xC05E2010 := by
  simp only [mapNode, mapEntry, memset_eq_fill]
  decide +kernel

theorem programProcess_user : (do
    let k ← mmapDoMap 10 programProcess.frameTaken smallImage.kpgdir scratchPage
      programProcess.nextFrame 0
    let k ← memmove k scratchPage 0xC0007C00 4
    let k ← mmapDoUnmap 10 k smallImage.kpgdir scratchPage
    mapNode 10 k 0xC05E0000 0 programProcess.nextFrame pteU).toOption =
      some 0xC05E2010 := by
  -- a fill is read in one step, `memset` in one for every byte
  unfold mmapDoMap mapNode mmapDoUnmap unlinkBody kmfree chunkGlue
  delta kmfreeBody glueBody
  simp only [mapEntry, memset_eq_fill]
  decide +kernel

theorem programProcess_served : UvmServed smallImage.kpgdir programProcess
    scratchPage 0xC05E0000 0xC0007C00 4 where
  frame := by decide +kernel
  window := ⟨10, _, ok_of_toOption programProcess_window, by decide⟩
  user := by
    intro k₁ k₂ k₃ hmap hmove hun
    obtain ⟨k₁', hmap', hrest⟩ := ok_of_bind (ok_of_toOption programProcess_user)
    obtain ⟨k₂', hmove', hrest'⟩ := ok_of_bind hrest
    obtain ⟨k₃', hun', huser⟩ := ok_of_bind hrest'
    obtain rfl := Except.ok.inj ((mmapDoMap_stable _ _ _ _ _).eq_of_settles hmap'
      (by simp) hmap)
    rw [hmove] at hmove'
    obtain rfl := Except.ok.inj hmove'
    obtain rfl := Except.ok.inj ((mmapDoUnmap_stable _ _ _).eq_of_settles hun'
      (by simp) hun)
    exact ⟨10, _, huser, by decide⟩

theorem programProcess_step : run (PagingCall.exec smallImage.kpgdir 10)
    [.umapInit] ⟨smallKernel programRam 2, []⟩ =
      .ok ⟨programProcess, [0xC05E0000]⟩ := by
  simp only [run, PagingCall.exec, smallKernel_umapInit, ok_bind]
  rfl

theorem uvmInit_loads_first :
    ∃ k', Settles (fun fuel => uvmInit smallImage.kpgdir fuel programProcess
        0xC05E0000 0xC0007C00 4) (.ok k') ∧
      ProgramLoaded smallImage.kpgdir programProcess 0xC05E0000 0xC0007C00 4
        k' := by
  have hboot := smallKernel_boot programRam_zero.loaded
  have hcalls : EachStep (PagingCall.exec smallImage.kpgdir 10)
      (fun r call _ => call.Occurs r ∧ call.SparesDirect) [.umapInit]
      ⟨smallKernel programRam 2, []⟩ :=
    fun _ _ => ⟨⟨trivial, trivial⟩, trivial⟩
  obtain ⟨s, h⟩ := (tidy_of_boot programRam_zero hboot).run rfl hcalls
    programProcess_step
  have hvirt : kvmAllocUmappedPage programProcess = .ok scratchPage :=
    unmappedPage_ok h.blocks
  have hscratch : pageWalk programProcess.mem (v2p smallImage.kpgdir)
      scratchPage = none := by decide +kernel
  have hwindow : HasWindow ⟨programProcess, [0xC05E0000]⟩ := by
    intro d hd hcr3
    obtain rfl := List.mem_singleton.mp hd
    exact absurd hcr3 (by decide)
  have hempty : ∀ i < 768, entry programProcess.mem 0xC05E0000 i = 0 := by
    decide +kernel
  have hloads := uvmInit_loads programRam_zero hboot hcalls programProcess_step
    hvirt hscratch hwindow (List.mem_cons_of_mem _ List.mem_cons_self) hempty
    (by decide) ⟨by decide, by decide, by decide, by decide⟩
    programProcess_served
  exact hloads

/-- The process runs when the program is loaded. -/
def programUser : Kernel := programProcess.switchToUvm 0xC05E0000

theorem programUser_step : run (PagingCall.exec smallImage.kpgdir 10)
    [.umapInit, .switchToUvm 0xC05E0000] ⟨smallKernel programRam 2, []⟩ =
      .ok ⟨programUser, [0xC05E0000]⟩ := by
  simp only [run, PagingCall.exec, smallKernel_umapInit, ok_bind]
  rfl

theorem programUser_window :
    (mapNode 10 programUser.frameTaken smallImage.kpgdir scratchPage
      programUser.nextFrame 0).toOption = some 0xC05E2010 := by
  simp only [mapNode, mapEntry, memset_eq_fill]
  decide +kernel

theorem programUser_calls : EachStep (PagingCall.exec smallImage.kpgdir 10)
    (fun r call _ => call.Occurs r ∧ call.SparesDirect)
    [.umapInit, .switchToUvm 0xC05E0000] ⟨smallKernel programRam 2, []⟩ := by
  refine fun r hr => ⟨⟨trivial, trivial⟩, fun _ _ => ⟨⟨?_, trivial⟩, trivial⟩⟩
  simp only [PagingCall.exec, smallKernel_umapInit, ok_bind] at hr
  obtain rfl := Except.ok.inj hr
  exact List.mem_singleton_self _

theorem programUser_scratch : pageWalk programUser.mem (v2p smallImage.kpgdir)
    scratchPage = none := by
  decide +kernel

theorem smallImage_program : smallImage.Holds 0xC0007C00 4 :=
  ⟨by decide, by decide, by decide, by decide⟩

theorem programUser_faults : CopyFaults smallImage.kpgdir
    ⟨programUser, [0xC05E0000]⟩ 0xC0007C00 4 := by
  have hlacks : ¬ HasWindow ⟨programUser, [0xC05E0000]⟩ :=
    not_hasWindow_iff.mpr
      ⟨0xC05E0000, List.mem_singleton_self _, rfl, by decide +kernel⟩
  exact copyFaults_of_not_hasWindow programRam_zero
    (smallKernel_boot programRam_zero.loaded) programUser_calls programUser_step
    programUser_scratch hlacks (by decide) (by decide) smallImage_program
    ⟨10, _, ok_of_toOption programUser_window, by decide⟩

/-- `uvm_init` with the new process running: its directory has no table for the
page that the copy goes through. -/
theorem uvmInit_faults_under_process :
    ¬ ∀ (image : Image) (ram : Memory) (slots : Int → Nat)
      (bounds : Nat × Nat) (entries : List MmapEntry) (fuel fuel' : Nat)
      (k : Kernel), ZeroMemory image ram slots →
        boot image bounds entries fuel (loadedKernel image ram slots) = .ok k →
      ∀ (calls : List PagingCall) (r : PagingRun),
        EachStep (PagingCall.exec image.kpgdir fuel')
          (fun r call _ => call.Occurs r ∧ call.SparesDirect) calls ⟨k, []⟩ →
        run (PagingCall.exec image.kpgdir fuel') calls ⟨k, []⟩ = .ok r →
      ∀ virtMem pgdir init sz, kvmAllocUmappedPage r.kernel = .ok virtMem →
        pageWalk r.kernel.mem (v2p image.kpgdir) virtMem = none →
        pgdir ∈ image.kpgdir :: r.dirs →
        (∀ i < 768, entry r.kernel.mem pgdir i = 0) → sz ≤ pgSize →
        image.Holds init sz →
        UvmServed image.kpgdir r.kernel virtMem pgdir init sz →
      ∃ k', Settles (fun fuel =>
          uvmInit image.kpgdir fuel r.kernel pgdir init sz) (.ok k') ∧
        ProgramLoaded image.kpgdir r.kernel pgdir init sz k' := by
  intro hall
  have hboot := smallKernel_boot programRam_zero.loaded
  obtain ⟨s, h⟩ := (tidy_of_boot programRam_zero hboot).run rfl programUser_calls
    programUser_step
  have hvirt : kvmAllocUmappedPage programUser = .ok scratchPage :=
    unmappedPage_ok h.blocks
  have hframe : programUser.nextFrame ≠ 0 := by decide +kernel
  have hserved : UvmServed smallImage.kpgdir programUser scratchPage 0xC05E0000
      0xC0007C00 4 := by
    refine ⟨hframe, ⟨10, _, ok_of_toOption programUser_window, by decide⟩, ?_⟩
    -- the copy does not return
    intro k₁ k₂ k₃ hmap hmove _
    obtain ⟨k₁', hmap', hmove', -⟩ := programUser_faults
    obtain rfl := Except.ok.inj (hmap.unique hmap')
    rw [hmove'] at hmove
    cases hmove
  obtain ⟨k', hloads, -⟩ := hall smallImage programRam _ _ _ _ 10 _
    programRam_zero hboot _ _ programUser_calls programUser_step scratchPage
    0xC05E0000 0xC0007C00 4 hvirt programUser_scratch
    (List.mem_cons_of_mem _ List.mem_cons_self) (by decide +kernel) (by decide)
    smallImage_program hserved
  cases hloads.unique (programUser_faults.uvmInit hvirt (by decide) hframe)

end Linda
