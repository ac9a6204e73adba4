/-
What a block holds when `kmalloc` returns it.  Splitting writes headers into
free memory, gluing and freeing clear what they leave behind: as long as the
pages of the heap arrive zeroed, every byte of a free payload stays zero.
-/
import Linda.HeapClients
import Linda.HeapRequests

namespace Linda

open ByteMemory IntervalCover FuelLoop

/-- Every byte of the page is zero. -/
def PageZeroed (m : Memory) (page : Nat) : Prop :=
  ∀ x ∈ pageExtent page, m x = 0

/-- A step in which `kvm_alloc_page` hands the heap zeroed pages only. -/
structure ZeroStep (r r' : HeapRun) : Prop where
  step : HeapStep r r'
  zeroed : ∀ page ∈ r'.pages, page ∉ r.pages → PageZeroed r.kernel.mem page

section Steps

variable {r r' : HeapRun} {chunks : List Chunk} {k' : Kernel}
  {fuel size addr : Nat}

theorem HeapRun.Valid.alloc_zeroed (h : r.Valid chunks)
    (hzero : FreeZeroed r.kernel.mem chunks)
    (hcall : kmalloc fuel r.kernel size = .ok (addr, k'))
    (hpages : ∀ page ∈ takenPages r.kernel k', PageZeroed r.kernel.mem page) :
    ∃ chunks', ChunkList k'.mem k'.kmemList chunks' ∧
      FreeZeroed k'.mem chunks' ∧
      (addr ≠ 0 → ∀ x ∈ Block.bytes ⟨addr, size⟩, k'.mem x = 0) := by
  have hsettles : Settles (fun fuel => kmalloc fuel r.kernel size)
      (.ok (addr, k')) := (kmalloc_stable r.kernel size).settles hcall (by simp)
  by_cases hnull : addr = 0
  · subst hnull
    obtain ⟨chunks', fresh, hmove, -, hfree⟩ := kmalloc_refused h.ready hsettles
    rw [hmove.takenPages h.ready] at hpages
    exact ⟨chunks', hmove.ready.heap.list, hfree hzero hpages,
      fun hne => absurd rfl hne⟩
  · obtain ⟨chunks', fresh, hmove, hgrant⟩ :=
      kmalloc_granted h.ready hsettles hnull
    rw [hmove.takenPages h.ready] at hpages
    obtain ⟨hfree, hblock⟩ := hgrant.zeroed hzero hpages
    exact ⟨chunks', hmove.ready.heap.list, hfree, fun _ => hblock⟩

theorem HeapRun.Valid.write_zeroed (h : r.Valid chunks)
    (hzero : FreeZeroed r.kernel.mem chunks) {x : Nat} (byte : UInt8)
    (hx : (∃ b ∈ r.live, x ∈ b.bytes) ∨
      ∀ page ∈ r.pages, x ∉ pageExtent page) :
    FreeZeroed (store8 r.kernel.mem x byte) chunks := by
  rcases hx with ⟨b, hb, hin⟩ | hout
  · refine hzero.write_block h.ready.heap.tiling (h.held b hb) fun y hy => ?_
    apply store8_of_ne
    rintro rfl
    exact hy hin
  · intro c hc hfree y hy
    have hne : y ≠ x := by
      rintro rfl
      have hbytes := Chunk.mem_block.mp hy
      have hextent : y ∈ c.extent := Chunk.mem_extent.mpr (by omega)
      obtain ⟨page, hpage, hin⟩ := h.ready.heap.tiling.onHeap hc hextent
      exact hout page hpage hin
    rw [store8_of_ne _ _ hne]
    exact hzero c hc hfree y hy

theorem HeapRun.Valid.step_zeroed (h : r.Valid chunks)
    (hzero : FreeZeroed r.kernel.mem chunks) (hstep : ZeroStep r r') :
    ∃ chunks', r'.Valid chunks' ∧ FreeZeroed r'.kernel.mem chunks' := by
  obtain ⟨hstep, hpages⟩ := hstep
  cases hstep with
  | @alloc _ _ _ k' hcall =>
      obtain ⟨chunks', hvalid⟩ := h.alloc hcall
      have htaken : ∀ page ∈ takenPages r.kernel k',
          PageZeroed r.kernel.mem page := by
        intro page hpage
        refine hpages page (List.mem_append_right _ hpage) fun hin => ?_
        have hfresh := (List.mem_filter.mp hpage).1
        exact (List.nodup_append.mp h.ready.supply.nodup).2.2 page hin page
          hfresh rfl
      obtain ⟨chunks'', hlist, hfree, -⟩ := h.alloc_zeroed hzero hcall htaken
      obtain rfl := hlist.unique hvalid.ready.heap.list
      exact ⟨chunks'', hvalid, hfree⟩
  | free hcall =>
      exact ⟨_, h.free hcall, (kmfree_ok h.ready hcall).zeroed hzero⟩
  | write hx => exact ⟨chunks, h.write hx, h.write_zeroed hzero _ hx⟩
  | supply hsupply =>
      exact ⟨chunks, ⟨⟨h.ready.heap, hsupply⟩, h.held, h.nodup⟩, hzero⟩

/-- At every moment of such a history the free payloads are zero. -/
theorem HeapRun.zeroed_of_run {r₀ : HeapRun} (hstart : r₀.Initial)
    (hrun : Relation.ReflTransGen ZeroStep r₀ r) :
    ∃ chunks, r.Valid chunks ∧ FreeZeroed r.kernel.mem chunks := by
  induction hrun with
  | refl => exact ⟨[], hstart.valid, fun c hc => absurd hc (by simp)⟩
  | tail _ hstep ih =>
      obtain ⟨chunks, hvalid, hzero⟩ := ih
      exact hvalid.step_zeroed hzero hstep

end Steps

/-- Every byte of a block is zero at the moment `kmalloc` returns it. -/
theorem kmalloc_zeroed_of_run {r₀ r : HeapRun} (hstart : r₀.Initial)
    (hrun : Relation.ReflTransGen ZeroStep r₀ r) {fuel size addr : Nat}
    {k' : Kernel} (hcall : kmalloc fuel r.kernel size = .ok (addr, k'))
    (hpages : ∀ page ∈ takenPages r.kernel k', PageZeroed r.kernel.mem page)
    (hne : addr ≠ 0) :
    ∀ x, addr ≤ x → x < addr + size → k'.mem x = 0 := by
  obtain ⟨chunks, hvalid, hzero⟩ := HeapRun.zeroed_of_run hstart hrun
  obtain ⟨-, -, -, hblock⟩ := hvalid.alloc_zeroed hzero hcall hpages
  exact fun x hlo hhi => hblock hne x ⟨hlo, hhi⟩

theorem ZeroStep.of_pages {r r' : HeapRun} (hstep : HeapStep r r')
    (hpages : r'.pages = r.pages) : ZeroStep r r' :=
  ⟨hstep, fun _ hin hnot => absurd (hpages ▸ hin) hnot⟩

/-- A block is given back with a byte written in it, and handed out again. -/
theorem kmalloc_zeroed_again : ∃ r fuel k',
    Relation.ReflTransGen ZeroStep ⟨openKernel, [], []⟩ r ∧
      kmalloc fuel r.kernel 100 = .ok (kernBase + 16, k') ∧
        ∀ x, kernBase + 16 ≤ x → x < kernBase + 16 + 100 → k'.mem x = 0 := by
  obtain ⟨k₁, pages, halloc, hvalid, left, havail₁⟩ := oneBlock_reached
  have hin : ∃ b ∈ [(⟨kernBase + 16, 100⟩ : Block)], kernBase + 20 ∈ b.bytes :=
    ⟨_, List.mem_singleton_self _, by decide, by decide⟩
  have hready : HeapReady (k₁.setMem (store8 k₁.mem (kernBase + 20) 7)) oneBlock
      pages := (hvalid.write (Or.inl hin)).ready
  have hwrite : HeapStep ⟨k₁, pages, [⟨kernBase + 16, 100⟩]⟩
      ⟨k₁.setMem (store8 k₁.mem (kernBase + 20) 7), pages,
        [⟨kernBase + 16, 100⟩]⟩ := .write (Or.inl hin)
  obtain ⟨k₂, ⟨bound, hcall₂⟩, hfree⟩ := kmfree_settles hready (kernBase + 16)
  have hrelease := HeapStep.free (hcall₂ bound le_rfl)
    (r := ⟨_, pages, [⟨kernBase + 16, 100⟩]⟩)
  have hrun := ((Relation.ReflTransGen.single
    (ZeroStep.mk halloc fun _ _ _ _ _ => rfl)).tail
      (ZeroStep.of_pages hwrite rfl)).tail (ZeroStep.of_pages hrelease rfl)
  have havail₂ : availablePages k₂.kvmlist = (kernBase + pgSize) :: left := by
    obtain ⟨m, rfl⟩ := hfree.same
    exact havail₁
  have hgrant : kmallocAnswer 100 (availablePages k₂.kvmlist)
      [.ofPage kernBase] =
        .grant oneBlock (kernBase + 16) ((kernBase + pgSize) :: left) := by
    rw [havail₂]
    rfl
  obtain ⟨fuel, k', fresh, hcall, havail, -⟩ :=
    kmalloc_of_grant hfree.ready hgrant
  have htaken : ∀ page ∈ takenPages k₂ k', PageZeroed k₂.mem page := by
    intro page hpage
    obtain ⟨hbefore, hafter⟩ := List.mem_filter.mp hpage
    rw [havail₂, ← havail] at hbefore
    exact absurd hbefore (of_decide_eq_true hafter)
  exact ⟨_, fuel, k', hrun, hcall,
    kmalloc_zeroed_of_run openKernel_initial hrun hcall htaken (by decide)⟩

end Linda
