/-
What mmaplist says of the kernel half over runs of the paging code: a page of
the kernel has one entry at most, and only while kpgdir maps it.
-/
import Linda.PageFaults
import Linda.PageUpdates
import Linda.PagingRuns

namespace Linda

open ByteMemory CallHistory FuelLoop

/-- No page of the kernel half has two entries, and `kpgdir` maps each that
has one. -/
structure KernelEntries (kpgdir : Nat) (m : Memory) (E : List (Nat × Nat)) :
    Prop where
  apart : E.Pairwise fun e e' => kernBase ≤ e.1 → e.1 ≠ e'.1
  mapped : ∀ e ∈ E, kernBase ≤ e.1 → pageWalk m (v2p kpgdir) e.1 ≠ none

/-- The entries `mmap_do_unmap` leaves. -/
def Paging.leftEntries (s : Paging) (k : Kernel) (d va : Nat) :
    List (Nat × Nat) :=
  (leftNodes k.mem d va s.nodes).map (nodeEntry k.mem)

section Entries

variable {E : List (Nat × Nat)} {page frame kpgdir : Nat} {m : Memory}

theorem unlinkEntries_sublist (page : Nat) (E : List (Nat × Nat)) :
    (unlinkEntries page E).Sublist E := by
  cases E with
  | nil => exact List.Sublist.refl _
  | cons e rest =>
      rw [unlinkEntries]
      split_ifs
      · exact List.nil_sublist _
      · exact List.Sublist.cons_cons e List.eraseP_sublist

theorem unlinkEntries_of_ne (h : ∀ e ∈ E, e.1 ≠ page) :
    unlinkEntries page E = E := by
  cases E with
  | nil => rfl
  | cons e rest =>
      rw [List.forall_mem_cons] at h
      rw [unlinkEntries, if_neg h.1, List.eraseP_of_forall_not]
      exact fun c hc => by simpa using h.2 c hc

/-- The entry that came last is found behind entries of other pages. -/
theorem unlinkEntries_snoc (h : ∀ e ∈ E, e.1 ≠ page) (frame : Nat) :
    unlinkEntries page (E ++ [(page, frame)]) = E := by
  cases E with
  | nil => exact if_pos rfl
  | cons e rest =>
      rw [List.forall_mem_cons] at h
      have hnone : ∀ c ∈ rest, ¬ decide (c.1 = page) = true :=
        fun c hc => by simpa using h.2 c hc
      rw [List.cons_append, unlinkEntries, if_neg h.1,
        List.eraseP_append_right _ hnone, List.eraseP_cons_of_pos (by simp),
        List.append_nil]

/-- One entry of a page of the kernel goes, and there is no other. -/
theorem eraseP_ne (h : E.Pairwise fun e e' => kernBase ≤ e.1 → e.1 ≠ e'.1)
    (hlo : kernBase ≤ page) : ∀ e ∈ E.eraseP (fun e => e.1 = page),
      e.1 ≠ page := by
  induction E with
  | nil => simp
  | cons c rest ih =>
      obtain ⟨hc, hrest⟩ := List.pairwise_cons.mp h
      by_cases hpage : c.1 = page
      · rw [List.eraseP_cons_of_pos (by simpa using hpage)]
        intro e he heq
        exact hc e he (hpage ▸ hlo) (hpage.trans heq.symm)
      · rw [List.eraseP_cons_of_neg (by simpa using hpage), List.forall_mem_cons]
        exact ⟨hpage, ih hrest⟩

theorem KernelEntries.unlink_ne (h : KernelEntries kpgdir m E)
    (hlo : kernBase ≤ page) : ∀ e ∈ unlinkEntries page E, e.1 ≠ page := by
  cases E with
  | nil => simp [unlinkEntries]
  | cons e rest =>
      rw [unlinkEntries]
      split_ifs with hpage
      · simp
      · rw [List.forall_mem_cons]
        exact ⟨hpage, eraseP_ne (List.pairwise_cons.mp h.apart).2 hlo⟩

/-- A mapping of its page comes to the list. -/
theorem KernelEntries.snoc (h : KernelEntries kpgdir m E)
    (hne : kernBase ≤ page → ∀ e ∈ E, e.1 ≠ page)
    (hmapped : kernBase ≤ page → pageWalk m (v2p kpgdir) page ≠ none) :
    KernelEntries kpgdir m (E ++ [(page, frame)]) where
  apart := by
    refine List.pairwise_append.mpr ⟨h.apart, List.pairwise_singleton _ _, ?_⟩
    intro e he e' he' hlo heq
    obtain rfl := List.mem_singleton.mp he'
    replace heq : e.1 = page := heq
    exact hne (heq ▸ hlo) e he heq
  mapped e he hlo := by
    rcases List.mem_append.mp he with he | he
    · exact h.mapped e he hlo
    · obtain rfl := List.mem_singleton.mp he
      exact hmapped hlo

end Entries

section Left

variable {k k' : Kernel} {s s' : Paging} {kpgdir d va flags : Nat}
  {dirs : List Nat}

theorem Paging.leftEntries_eq : s.leftEntries k d va =
    if entry k.mem d (pdx va) = 0 then s.entries k
    else unlinkEntries (va &&& pgMask) (s.entries k) :=
  leftNodes_entries k.mem s.nodes

theorem Paging.leftEntries_sublist :
    (s.leftEntries k d va).Sublist (s.entries k) := by
  rw [leftEntries_eq]
  split_ifs
  · exact List.Sublist.refl _
  · exact unlinkEntries_sublist _ _

theorem Paging.entries_page {e : Nat × Nat} (he : e ∈ s.entries k) :
    e.1 &&& pgMask = e.1 := by
  obtain ⟨n, -, rfl⟩ := List.mem_map.mp he
  exact and_pgMask_self _

theorem pdx_page (va : Nat) : pdx (va &&& pgMask) = pdx va :=
  ((and_pgMask_eq_iff _ _).mp (and_pgMask_self va)).1

theorem Unmapped.entries_eq (h : Unmapped k s d va k' s') :
    s'.entries k' = s.leftEntries k d va := by
  rw [Paging.entries, Paging.leftEntries, ← h.nodes]
  exact List.map_congr_left fun n hn => h.entries n hn

/-- None of them is of the page, if that is one of the kernel. -/
theorem PagingAt.leftEntries_ne (h : PagingAt k s) (hd : kpgdir ∈ s.roots)
    (hE : KernelEntries kpgdir k.mem (s.entries k))
    (hlo : kernBase ≤ va &&& pgMask) :
    ∀ e ∈ s.leftEntries k kpgdir va, e.1 ≠ va &&& pgMask := by
  rw [Paging.leftEntries_eq]
  split_ifs with hzero
  · intro e he heq
    refine hE.mapped e he (heq ▸ hlo) (heq ▸ h.walk_empty hd ?_)
    rw [pdx_page]
    exact hzero
  · exact hE.unlink_ne hlo

/-- A page of the kernel half is mapped in `kpgdir`. -/
theorem Target.page_kernel (htarget : Target kpgdir dirs d va flags)
    (hlo : kernBase ≤ va &&& pgMask) : d = kpgdir ∧ flags = 0 := by
  cases htarget with
  | kernel _ hva hlt => exact ⟨rfl, rfl⟩
  | user _ _ hdir hva =>
      have hle : va &&& pgMask ≤ va := Nat.and_le_left
      omega

end Left

/-- A sound state whose list says of the kernel what `kpgdir` does, and whose
pages are among `managed`. -/
structure PagingRun.Tidy (kpgdir : Nat) (slots : Int → Nat) (first n : Nat)
    (managed : List Nat) (r : PagingRun) (s : Paging) : Prop
    extends PagingRun.Sound kpgdir slots first n r s where
  entries : KernelEntries kpgdir r.kernel.mem (s.entries r.kernel)
  pages : s.managed r.kernel ⊆ managed

namespace PagingRun

section Steps

variable {kpgdir : Nat} {slots : Int → Nat} {first n : Nat} {managed : List Nat}
  {r r' : PagingRun} {s s' : Paging} {k' : Kernel} {d va pa flags fuel : Nat}

/-- Writing an entry changes the walk of no kernel page left in the list. -/
theorem Tidy.left_walk (h : r.Tidy kpgdir slots first n managed s)
    (htarget : Target kpgdir r.dirs d va flags) {pte : Nat}
    (hpaging : PagingAt k' s') (hroots : s'.roots = s.roots)
    (hwrite : PteWrite r.kernel.mem k'.mem s.roots d va flags pte) :
    ∀ e ∈ s.leftEntries r.kernel d va, kernBase ≤ e.1 →
      pageWalk k'.mem (v2p kpgdir) e.1 =
        pageWalk r.kernel.mem (v2p kpgdir) e.1 := by
  intro e he hlo
  have hd := htarget.root h.roots
  have hpage := Paging.entries_page (Paging.leftEntries_sublist.subset he)
  rw [hwrite.walk h.plain htarget.small kpgdir h.kpgdir_root e.1, if_neg]
  intro hmeets
  have hne : entry k'.mem d (pdx va) ≠ 0 := fun hzero =>
    hpaging.forest.not_meets_empty hpaging.pool (hroots ▸ h.kpgdir_root) hzero
      hmeets
  have hsame := (hpaging.meets_page (hroots ▸ hd) (hroots ▸ h.kpgdir_root) hne
    hmeets).1
  rw [hpage] at hsame
  cases htarget with
  | kernel _ hva hlt =>
      exact h.paging.leftEntries_ne hd h.entries (hsame ▸ hlo) e he hsame
  | user _ _ hdir hva =>
      have hle : va &&& pgMask ≤ va := Nat.and_le_left
      omega

theorem Tidy.left_entries (h : r.Tidy kpgdir slots first n managed s)
    (htarget : Target kpgdir r.dirs d va flags) {pte : Nat}
    (hpaging : PagingAt k' s') (hroots : s'.roots = s.roots)
    (hwrite : PteWrite r.kernel.mem k'.mem s.roots d va flags pte) :
    KernelEntries kpgdir k'.mem (s.leftEntries r.kernel d va) where
  apart := h.entries.apart.sublist Paging.leftEntries_sublist
  mapped e he hlo := by
    rw [h.left_walk htarget hpaging hroots hwrite e he hlo]
    exact h.entries.mapped e (Paging.leftEntries_sublist.subset he) hlo

/-- A mapping gives its page an entry, or none where the heap has no node. -/
theorem Tidy.map (h : r.Tidy kpgdir slots first n managed s)
    (htarget : Target kpgdir r.dirs d va flags) (hpa : GoodFrame pa)
    (hcall : mmapDoMap fuel r.kernel d va pa flags = .ok k') :
    ∃ s', Tidy kpgdir slots first n managed ⟨k', r.dirs⟩ s' := by
  obtain ⟨s', hsound, hmapped, hlisted⟩ := h.toSound.map htarget hpa hcall
  have hleft := h.left_entries htarget hmapped.paging hmapped.roots hmapped.write
  refine ⟨s', hsound, ?_, fun page hpage => h.pages (hlisted.pages hpage)⟩
  rcases hlisted.entries with hsame | hsnoc
  · rw [hsame]
    exact hleft
  · rw [hsnoc]
    refine hleft.snoc (fun hlo => ?_) fun hlo => ?_
    · obtain ⟨rfl, rfl⟩ := htarget.page_kernel hlo
      exact h.paging.leftEntries_ne h.kpgdir_root h.entries hlo
    · obtain ⟨rfl, rfl⟩ := htarget.page_kernel hlo
      rw [hmapped.walk_eq h.plain h.kpgdir_root, if_pos (and_pgMask_self va).symm]
      simp

theorem Tidy.unmap (h : r.Tidy kpgdir slots first n managed s)
    (htarget : Target kpgdir r.dirs d va flags)
    (hcall : mmapDoUnmap fuel r.kernel d va = .ok k') :
    ∃ s', Tidy kpgdir slots first n managed ⟨k', r.dirs⟩ s' := by
  obtain ⟨s', hsound, hunmapped, hframed⟩ := h.toSound.unmap htarget hcall
  refine ⟨s', hsound, ?_, fun page hpage => h.pages (hframed.pages hpage)⟩
  rw [hunmapped.entries_eq]
  exact h.left_entries htarget hunmapped.paging hunmapped.roots
    (hunmapped.write flags)

theorem Tidy.stores (h : r.Tidy kpgdir slots first n managed s)
    (hstores : NullStores r.kernel k') :
    Tidy kpgdir slots first n managed ⟨k', r.dirs⟩ s := by
  obtain ⟨hsound, hsame⟩ := h.toSound.stores hstores
  obtain ⟨m', hoff, rfl⟩ := hstores
  have hentries : s.entries (r.kernel.setMem m') = s.entries r.kernel :=
    List.map_congr_left fun n hn => (h.paging.offDirect_node hoff n hn).entry
  refine ⟨hsound, ?_, h.pages⟩
  rw [hentries]
  refine ⟨h.entries.apart, fun e he hlo => ?_⟩
  have hwalk := h.paging.forest.walk_congr h.paging.pool hsame h.kpgdir_root e.1
  exact hwalk.symm ▸ h.entries.mapped e he hlo

theorem Tidy.setMemMap (h : r.Tidy kpgdir slots first n managed s) {left : Int}
    (hframes : FramesLeft first n left) :
    Tidy kpgdir slots first n managed
      ⟨{ r.kernel with memMap := frameMap slots first n left }, r.dirs⟩ s :=
  ⟨h.toSound.setMemMap hframes, h.entries, h.pages⟩

theorem Tidy.setRoot (h : r.Tidy kpgdir slots first n managed s) {root : Nat}
    {proc : Option Nat} (hroot : ∃ d ∈ s.roots, root = v2p d)
    (hproc : ∀ d, proc = some d → d ∈ r.dirs) :
    Tidy kpgdir slots first n managed
      ⟨{ r.kernel with cr3 := root, curproc := proc }, r.dirs⟩ s :=
  ⟨h.toSound.setRoot hroot hproc, h.entries, h.pages⟩

/-- `umap_init` writes into the page it takes. -/
theorem Tidy.newRoot (h : r.Tidy kpgdir slots first n managed s) {page : Nat}
    (hcall : Linda.umapInit kpgdir r.kernel = .ok (page, k')) :
    Tidy kpgdir slots first n managed ⟨k', page :: r.dirs⟩
      { s with roots := page :: s.roots } := by
  have hnew := newRoot_of_umapInit h.paging h.zeroed h.kpgdir_root hcall
  have hsound := h.toSound.newRoot hnew
  rcases kvmAllocPage_spec r.kernel with ⟨-, hnone⟩ |
    ⟨page', kvmlist', halloc, havail, -⟩
  · rw [Linda.umapInit, hnone] at hcall
    cases hcall
  · rw [umapInit_eq h.paging h.kpgdir_root halloc havail] at hcall
    obtain ⟨rfl, rfl⟩ := Prod.mk.inj (Except.ok.inj hcall)
    have hpool := h.paging.pool
    rw [havail] at hpool
    have hheap : SamePages r.kernel.mem
        (directoryMemory r.kernel.mem kpgdir page') s.pages := by
      refine directoryMemory_same (hpool.fresh_page List.mem_cons_self) ?_
      exact fun q hq => hpool.take.other List.mem_cons_self q
        (List.mem_append_left _ hq)
    have hnodes := h.paging.list.sameNode h.paging.heap.tiling hheap
    refine ⟨hsound, ?_, fun q hq => h.pages ?_⟩
    · have hentries : s.nodes.map (nodeEntry
          (directoryMemory r.kernel.mem kpgdir page')) = s.entries r.kernel :=
        List.map_congr_left fun n hn => (hnodes n hn).entry
      change KernelEntries kpgdir _ (s.nodes.map (nodeEntry
        (directoryMemory r.kernel.mem kpgdir page')))
      rw [hentries]
      refine ⟨h.entries.apart, fun e he hlo => ?_⟩
      rw [h.newRoot_walk hnew h.kpgdir_root]
      exact h.entries.mapped e he hlo
    · simp only [Paging.managed, Paging.fixed, havail, Kernel.setMem_kvmlist,
        Kernel.setKvmlist_kvmlist, List.cons_append, List.mem_append,
        List.mem_cons] at hq ⊢
      tauto

theorem Tidy.uvmInit (hslot : slots 0 = 0)
    (h : r.Tidy kpgdir slots first n managed s) {pgdir init sz : Nat}
    (hd : pgdir ∈ r.dirs)
    (hcall : Linda.uvmInit kpgdir fuel r.kernel pgdir init sz = .ok k') :
    ∃ s', Tidy kpgdir slots first n managed ⟨k', r.dirs⟩ s' := by
  obtain ⟨pa, left, halloc, hgood, hframes⟩ := h.alloc hslot
  obtain ⟨page, k₁, k₂, k₃, hpage, hsz, hnull, hmap, hmove, hunmap, hfill⟩ :=
    uvmInit_parts hcall halloc
  obtain rfl := unmappedPage_eq h.blocks hpage
  obtain ⟨s₁, h₁⟩ := (h.setMemMap hframes).map scratch_target hgood hmap
  have h₂ := h₁.stores (memmove_away h₁.paging h₁.away h₁.cr3
    (le_refl scratchPage) (scratch_fits hsz) hmove)
  obtain ⟨s₂, h₃⟩ := h₂.unmap scratch_target hunmap
  exact h₃.map (.user pgdir 0 hd (by decide)) hgood hfill

theorem Tidy.fault (hslot : slots 0 = 0)
    (h : r.Tidy kpgdir slots first n managed s) {addr : Nat}
    (hlt : addr < 4294967296)
    (hout : ¬ (kernBase ≤ addr ∧ addr < kernBase + memNormal))
    (hcall : pageFaultHandler kpgdir fuel r.kernel addr = .ok k') :
    ∃ s', Tidy kpgdir slots first n managed ⟨k', r.dirs⟩ s' := by
  obtain ⟨pa, left, halloc, hgood, hframes⟩ := h.alloc hslot
  obtain ⟨d, hdir, hmap⟩ := pageFaultHandler_parts hcall halloc
  exact (h.setMemMap hframes).map (h.handler_target hlt hout hdir) hgood hmap

theorem Tidy.step (hslot : slots 0 = 0)
    (h : r.Tidy kpgdir slots first n managed s) {call : PagingCall}
    (hoccurs : call.Occurs r) (hspares : call.SparesDirect)
    (hstep : call.exec kpgdir fuel r = .ok r') :
    ∃ s', r'.Tidy kpgdir slots first n managed s' := by
  cases call with
  | umapInit =>
      obtain ⟨⟨page, k'⟩, hcall, hr'⟩ := ok_of_bind hstep
      obtain rfl := Except.ok.inj hr'
      exact ⟨_, h.newRoot hcall⟩
  | uvmInit pgdir init sz =>
      obtain ⟨k', hcall, hr'⟩ := ok_of_bind hstep
      obtain rfl := Except.ok.inj hr'
      exact h.uvmInit hslot hoccurs hcall
  | fault user addr =>
      obtain ⟨k', hcall, hr'⟩ := ok_of_bind hstep
      obtain rfl := Except.ok.inj hr'
      exact h.fault hslot hoccurs.1 hspares hcall
  | switchToUvm pgdir =>
      obtain rfl := Except.ok.inj hstep
      exact ⟨s, h.setRoot ⟨pgdir, h.dir_root hoccurs, rfl⟩ fun _ hd =>
        Option.some.inj hd ▸ hoccurs⟩
  | switchToKvm =>
      obtain rfl := Except.ok.inj hstep
      exact ⟨s, h.setRoot ⟨kpgdir, h.kpgdir_root, rfl⟩ h.curproc⟩

theorem Tidy.run (hslot : slots 0 = 0)
    (h : r.Tidy kpgdir slots first n managed s) {calls : List PagingCall}
    (hcalls : EachStep (PagingCall.exec kpgdir fuel)
      (fun r call _ => call.Occurs r ∧ call.SparesDirect) calls r)
    (hrun : run (PagingCall.exec kpgdir fuel) calls r = .ok r') :
    ∃ s', r'.Tidy kpgdir slots first n managed s' := by
  induction calls generalizing r s with
  | nil =>
      obtain rfl := Except.ok.inj hrun
      exact ⟨s, h⟩
  | cons call calls ih =>
      obtain ⟨r₁, hstep, hrun⟩ := ok_of_bind hrun
      obtain ⟨⟨hoccurs, hspares⟩, hrest⟩ := hcalls r₁ hstep
      obtain ⟨s₁, h₁⟩ := h.step hslot hoccurs hspares hstep
      exact ih h₁ hrest hrun

end Steps

/-- The boot leaves an empty list. -/
theorem tidy_of_boot {image : Image} {ram : Memory} {slots : Int → Nat}
    {bounds : Nat × Nat} {entries : List MmapEntry} {fuel : Nat} {k : Kernel}
    (hzero : ZeroMemory image ram slots)
    (hboot : boot image bounds entries fuel (loadedKernel image ram slots) =
      .ok k) :
    Tidy image.kpgdir slots (frameBounds image bounds entries).1
      (frameCount image bounds entries) ((bootPaging image).managed k) ⟨k, []⟩
      (bootPaging image) where
  toSound := sound_of_boot hzero hboot
  entries := ⟨List.Pairwise.nil, by simp [Paging.entries, bootPaging]⟩
  pages := fun _ hpage => hpage

end PagingRun

end Linda
