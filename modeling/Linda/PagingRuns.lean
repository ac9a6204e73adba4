/-
Runs of the paging code from the boot on: process directories are made and
filled, the kernel switches between them, and page faults are handled.
-/
import Linda.BootPaging
import Linda.CallHistory
import Linda.MmapHistory
import Linda.ProcessPages

namespace Linda

open ByteMemory CallHistory FuelLoop

/-- What the kernel does with its page directories. -/
inductive PagingCall where
  | umapInit
  | uvmInit (pgdir init sz : Nat)
  /-- an access to `addr`, from user mode or not, that raises a page fault -/
  | fault (user : Bool) (addr : Nat)
  | switchToUvm (pgdir : Nat)
  | switchToKvm

/-- The kernel and the directories `umap_init` made. -/
structure PagingRun where
  kernel : Kernel
  dirs : List Nat

namespace PagingCall

def exec (kpgdir fuel : Nat) (call : PagingCall) (r : PagingRun) :
    Except Halt PagingRun :=
  match call with
  | .umapInit => do
      let (pgdir, k) ← Linda.umapInit kpgdir r.kernel
      .ok ⟨k, pgdir :: r.dirs⟩
  | .uvmInit pgdir init sz => do
      let k ← Linda.uvmInit kpgdir fuel r.kernel pgdir init sz
      .ok ⟨k, r.dirs⟩
  | .fault _ addr => do
      let k ← pageFaultHandler kpgdir fuel r.kernel addr
      .ok ⟨k, r.dirs⟩
  | .switchToUvm pgdir => .ok ⟨r.kernel.switchToUvm pgdir, r.dirs⟩
  | .switchToKvm => .ok ⟨r.kernel.switchToKvm kpgdir, r.dirs⟩

/-- The call is one the kernel makes, the access one that faults. -/
def Occurs (r : PagingRun) : PagingCall → Prop
  | .umapInit => True
  | .uvmInit pgdir _ _ => pgdir ∈ r.dirs
  | .fault user addr => addr < 4294967296 ∧
      accessFaults user (pageWalk r.kernel.mem r.kernel.cr3 addr) = true
  | .switchToUvm pgdir => pgdir ∈ r.dirs
  | .switchToKvm => True

/-- The call is not a fault in the direct map. -/
def SparesDirect : PagingCall → Prop
  | .fault _ addr => ¬ (kernBase ≤ addr ∧ addr < kernBase + memNormal)
  | _ => True

end PagingCall

/-- Which pages of the kernel `kmap_init` left mapped. -/
def MappedBlocks (kvmlist : Nat → VmBlock) : Prop :=
  ∀ i < nvmBlocks, (kvmlist i).address = kernBase + i * pgSize ∧
    ((kvmlist i).status &&& vmMapped = 0 ↔ 229376 ≤ i)

/-- The state of a run: `slots`, `first` and `n` are those of the allocator. -/
structure PagingRun.Sound (kpgdir : Nat) (slots : Int → Nat) (first n : Nat)
    (r : PagingRun) (s : Paging) : Prop where
  paging : PagingAt r.kernel s
  plain : AllPlain r.kernel.mem s.roots
  zeroed : Zeroed r.kernel s.chunks
  roots : s.roots = r.dirs ++ [kpgdir]
  cr3 : ∃ d ∈ s.roots, r.kernel.cr3 = v2p d
  curproc : ∀ d, r.kernel.curproc = some d → d ∈ r.dirs
  away : Away r.kernel.mem s.roots
  half : ∀ d ∈ r.dirs, ∀ i, 768 ≤ i → i < 1024 →
    entry r.kernel.mem d i = 0 ∨
      entry r.kernel.mem d i = entry r.kernel.mem kpgdir i
  direct : ∀ va, kernBase ≤ va → va < kernBase + memNormal →
    pageWalk r.kernel.mem (v2p kpgdir) va ≠ none
  blocks : MappedBlocks r.kernel.kvmlist
  frames : ∃ left, r.kernel.memMap = frameMap slots first n left ∧
    FramesLeft first n left

/-- The mappings the code makes: of the kernel behind the direct map, and of a
process in its own half. -/
inductive Target (kpgdir : Nat) (dirs : List Nat) : Nat → Nat → Nat → Prop
  | kernel (va : Nat) (hlo : kernBase + memNormal ≤ va) (hhi : va < 4294967296) :
      Target kpgdir dirs kpgdir va 0
  | user (d va : Nat) (hd : d ∈ dirs) (hva : va < kernBase) :
      Target kpgdir dirs d va pteU

/-- What the allocator answers is mapped as it is. -/
structure GoodFrame (pa : Nat) : Prop where
  aligned : pa % 4096 = 0
  lt : pa < 4294967296
  away : pa = 0 ∨ memNormal ≤ pa

section Frames

variable {slots : Int → Nat} {first n : Nat} {left : Int}

theorem FramesLeft.good (h : FramesLeft first n left) (hlo : 1 ≤ left) :
    GoodFrame (lowestFrame first n left) := by
  have haligned := h.aligned
  have htop := h.top
  have hhi := h.hi
  constructor
  · simp only [lowestFrame]
    omega
  · simp only [lowestFrame]
    omega
  · exact Or.inr (h.above hlo)

theorem lowestFrame_le (first n : Nat) (left : Int) :
    lowestFrame first n left ≤ lowestFrame first n (left - 1) := by
  simp only [lowestFrame]
  omega

theorem FramesLeft.next (h : FramesLeft first n left) :
    FramesLeft first n (left - 1) := by
  have hhi := h.hi
  exact ⟨h.aligned, h.top, by omega, fun hlo =>
    (h.above (by omega)).trans (lowestFrame_le first n left)⟩

/-- The allocator answers the lowest frame left, or `NULL`. -/
theorem FramesLeft.alloc (hslot : slots 0 = 0) (h : FramesLeft first n left) :
    ∃ left', FramesLeft first n left' ∧
      (phyMemAlloc (frameMap slots first n left)).2 =
        frameMap slots first n left' ∧
      (left ≤ 0 ∧ left' ≤ 0 ∧
          (phyMemAlloc (frameMap slots first n left)).1 = 0 ∨
        1 ≤ left ∧ left' = left - 1 ∧
          (phyMemAlloc (frameMap slots first n left)).1 =
            lowestFrame first n left) := by
  by_cases hlo : 1 ≤ left
  · rw [frameMap_alloc hlo h.hi]
    exact ⟨left - 1, h.next, rfl, Or.inr ⟨hlo, rfl, rfl⟩⟩
  · obtain ⟨left', hleft', halloc⟩ :=
      @frameMap_alloc_empty slots first n left hslot (by omega)
    rw [halloc]
    exact ⟨left', ⟨h.aligned, h.top, by omega, fun hcon => by omega⟩, rfl,
      Or.inl ⟨by omega, hleft', rfl⟩⟩

theorem goodFrame_zero : GoodFrame 0 := ⟨rfl, by decide, Or.inl rfl⟩

/-- Every answer may be mapped. -/
theorem FramesLeft.alloc_good (hslot : slots 0 = 0) (h : FramesLeft first n left) :
    GoodFrame (phyMemAlloc (frameMap slots first n left)).1 := by
  obtain ⟨left', -, -, ⟨-, -, hnull⟩ | ⟨hlo, -, hframe⟩⟩ := h.alloc hslot
  · rw [hnull]
    exact goodFrame_zero
  · rw [hframe]
    exact h.good hlo

end Frames

section Writes

variable {k k' : Kernel} {s s' : Paging} {m m' : Memory} {roots : List Nat}
  {kpgdir d d' va va' pa flags pte : Nat} {dirs : List Nat}

/-- A write that puts nothing of the kernel's pages outside the direct map. -/
theorem Away.write (h : Away m roots) (hplain : AllPlain m roots)
    (hwrite : PteWrite m m' roots d va flags pte)
    (hsmall : flags.testBit 7 = false)
    (hpte : ∀ pde t, leaf pde pte = some t → t.frame = 0 ∨ memNormal ≤ t.frame) :
    Away m' roots := by
  intro d' hd' va' hout hva' t ht
  rw [hwrite.walk hplain hsmall d' hd' va'] at ht
  split_ifs at ht
  · exact hpte _ t ht
  · exact h d' hd' va' hout hva' t ht

theorem leaf_frame {pde : Nat} (hpa : GoodFrame pa) (hflags : flags < 4096)
    {t : Translation} (ht : leaf pde (pteWord pa flags) = some t) :
    t.frame = pa := by
  have hmask : pteWord pa flags &&& pgMask = pa := by
    have hlt := hpa.lt
    have haligned := hpa.aligned
    rw [pteWord_mask hflags, and_pgMask hlt]
    omega
  rw [leaf] at ht
  split_ifs at ht
  obtain rfl := Option.some.inj ht
  exact hmask

/-- The page table entry of a page is read by the walks of the page only. -/
theorem PagingAt.meets_page (h : PagingAt k s) (hd : d ∈ s.roots)
    (hd' : d' ∈ s.roots) (hne : entry k.mem d (pdx va) ≠ 0)
    (hmeets : Meets k.mem d' va' (slotOf k.mem d va)) :
    va' &&& pgMask = va &&& pgMask ∧ (d' = d ∨ 768 ≤ pdx va') := by
  have hhalf : pdx kernBase = 768 := by decide
  obtain ⟨hpdx, hptx, hdir⟩ :=
    h.forest.meets_same h.pool hd' hd hmeets ⟨hne, rfl⟩
  rw [hhalf] at hdir
  exact ⟨(and_pgMask_eq_iff va' va).mpr ⟨hpdx, hptx⟩, hdir⟩

theorem pdx_user (hva : va < kernBase) : pdx va < 768 := by
  simp only [kernBase] at hva
  rw [pdx_eq]
  omega

theorem pdx_kernel (hlo : kernBase ≤ va) (hhi : va < 4294967296) :
    768 ≤ pdx va := by
  simp only [kernBase] at hlo
  rw [pdx_eq]
  omega

namespace Target

variable (h : Target kpgdir dirs d va flags)

include h

theorem flags_lt : flags < 4096 := by
  cases h <;> decide

theorem small : flags.testBit 7 = false := by
  cases h <;> decide

theorem root (hroots : s.roots = dirs ++ [kpgdir]) : d ∈ s.roots := by
  rw [hroots]
  cases h with
  | kernel _ hlo hhi => simp
  | user _ _ hd hva => simp [hd]

theorem va_lt : va < 4294967296 := by
  cases h with
  | kernel _ hlo hhi => exact hhi
  | user _ _ hd hva =>
      simp only [kernBase] at hva
      omega

theorem outside : ¬ (kernBase ≤ va ∧ va < kernBase + memNormal) := by
  cases h with
  | kernel _ hlo hhi => omega
  | user _ _ hd hva => omega

theorem leaf_away (hpa : GoodFrame pa) :
    ∀ pde t, leaf pde (pteWord pa flags) = some t →
      t.frame = 0 ∨ memNormal ≤ t.frame := fun _ _ ht =>
  (leaf_frame hpa h.flags_lt ht).symm ▸ hpa.away

end Target

theorem leaf_zero_away : ∀ pde t, leaf pde 0 = some t →
    t.frame = 0 ∨ memNormal ≤ t.frame := by
  intro pde t ht
  rw [leaf_zero] at ht
  cases ht

end Writes

theorem MappedBlocks.same {kvmlist kvmlist' : Nat → VmBlock}
    (h : MappedBlocks kvmlist) (hsame : SameMapped kvmlist kvmlist') :
    MappedBlocks kvmlist' := by
  intro i hi
  obtain ⟨haddr, hstatus⟩ := hsame i
  rw [haddr, hstatus]
  exact h i hi

namespace PagingRun

section Steps

variable {kpgdir : Nat} {slots : Int → Nat} {first n : Nat} {r : PagingRun}
  {s s' : Paging} {k' : Kernel} {d va pa flags fuel : Nat}

theorem Sound.kpgdir_root (h : r.Sound kpgdir slots first n s) :
    kpgdir ∈ s.roots := by
  rw [h.roots]
  simp

theorem Sound.dir_root (h : r.Sound kpgdir slots first n s) (hd : d ∈ r.dirs) :
    d ∈ s.roots := by
  rw [h.roots]
  simp [hd]

theorem Sound.root_iff (h : r.Sound kpgdir slots first n s) :
    d ∈ s.roots ↔ d ∈ r.dirs ∨ d = kpgdir := by
  rw [h.roots]
  simp

/-- No process has the directory of the kernel. -/
theorem Sound.dir_ne (h : r.Sound kpgdir slots first n s) (hd : d ∈ r.dirs) :
    d ≠ kpgdir := by
  have hnodup := (List.nodup_append.mp h.paging.pool.nodup).1
  have hroots := (List.nodup_append.mp hnodup).1
  rw [h.roots] at hroots
  exact (List.nodup_append.mp hroots).2.2 d hd kpgdir (List.mem_singleton_self _)

/-- The entries a mapping may change. -/
theorem Sound.half_write (h : r.Sound kpgdir slots first n s)
    (htarget : Target kpgdir r.dirs d va flags) {m : Memory} {pte : Nat}
    (hwrite : PteWrite r.kernel.mem m s.roots d va flags pte) :
    ∀ d' ∈ r.dirs, ∀ i, 768 ≤ i → i < 1024 →
      entry m d' i = entry r.kernel.mem d' i ∧
        (entry m d' i = 0 ∨ entry m d' i = entry m kpgdir i) := by
  intro d' hd' i hlo hhi
  have hsame : entry m d' i = entry r.kernel.mem d' i := by
    rcases hwrite.pde d' (h.dir_root hd') i hhi with hsame | ⟨⟨rfl, rfl⟩, -, -⟩
    · exact hsame
    · cases htarget with
      | kernel _ hva hlt => exact absurd rfl (h.dir_ne hd')
      | user _ _ _ hva =>
          have hpdx := pdx_user hva
          omega
  refine ⟨hsame, ?_⟩
  rw [hsame]
  rcases h.half d' hd' i hlo hhi with hzero | heq
  · exact Or.inl hzero
  · by_cases hzero : entry r.kernel.mem kpgdir i = 0
    · exact Or.inl (heq.trans hzero)
    · rw [hwrite.pde_of_ne h.kpgdir_root hhi hzero]
      exact Or.inr heq

/-- The walks a mapping may change are those of its page. -/
theorem Sound.direct_write (h : r.Sound kpgdir slots first n s)
    (htarget : Target kpgdir r.dirs d va flags) {m : Memory} {pte : Nat}
    (hwrite : PteWrite r.kernel.mem m s.roots d va flags pte)
    (hmeets : ∀ va', Meets m kpgdir va' (slotOf m d va) →
      va' &&& pgMask = va &&& pgMask) :
    ∀ va', kernBase ≤ va' → va' < kernBase + memNormal →
      pageWalk m (v2p kpgdir) va' ≠ none := by
  intro va' hlo hhi
  rw [hwrite.walk h.plain htarget.small kpgdir h.kpgdir_root va', if_neg]
  · exact h.direct va' hlo hhi
  · intro hmeet
    have hpage := hmeets va' hmeet
    have hlt := htarget.va_lt
    have hout := htarget.outside
    rw [and_pgMask_eq, and_pgMask_eq] at hpage
    simp only [kernBase, memNormal] at hlo hhi hout
    omega

/-- The state after one page table entry was written. -/
theorem Sound.of_write (h : r.Sound kpgdir slots first n s)
    (htarget : Target kpgdir r.dirs d va flags) {pte : Nat}
    (hpaging : PagingAt k' s') (hroots : s'.roots = s.roots)
    (hzeroed : Zeroed r.kernel s.chunks → Zeroed k' s'.chunks)
    (hmachine : SameMachine r.kernel k')
    (hwrite : PteWrite r.kernel.mem k'.mem s.roots d va flags pte)
    (hpte : ∀ pde t, leaf pde pte = some t →
      t.frame = 0 ∨ memNormal ≤ t.frame) :
    Sound kpgdir slots first n ⟨k', r.dirs⟩ s' := by
  have hd := htarget.root h.roots
  constructor
  · exact hpaging
  · exact hroots ▸ hwrite.allPlain h.plain htarget.small
  · exact hzeroed h.zeroed
  · exact hroots.trans h.roots
  · obtain ⟨d', hd', hcr3⟩ := h.cr3
    exact ⟨d', hroots.symm ▸ hd', hmachine.cr3.trans hcr3⟩
  · exact fun d' hd' => h.curproc d' (hmachine.curproc ▸ hd')
  · exact hroots.symm ▸ h.away.write h.plain hwrite htarget.small hpte
  · exact fun d' hd' i hlo hhi => (h.half_write htarget hwrite d' hd' i hlo hhi).2
  · refine h.direct_write htarget hwrite fun va' hmeets => ?_
    refine (hpaging.meets_page (hroots ▸ hd) (hroots ▸ h.kpgdir_root) ?_ hmeets).1
    intro hzero
    exact hpaging.forest.not_meets_empty hpaging.pool (hroots ▸ h.kpgdir_root)
      hzero hmeets
  · exact h.blocks.same hmachine.mapped
  · obtain ⟨left, hmap, hframes⟩ := h.frames
    exact ⟨left, hmachine.memMap.trans hmap, hframes⟩

/-- A call of `mmap_do_map` the code makes. -/
theorem Sound.map (h : r.Sound kpgdir slots first n s)
    (htarget : Target kpgdir r.dirs d va flags) (hpa : GoodFrame pa)
    (hcall : mmapDoMap fuel r.kernel d va pa flags = .ok k') :
    ∃ s', Sound kpgdir slots first n ⟨k', r.dirs⟩ s' ∧
      Mapped r.kernel s d va pa flags k' s' ∧
      Listed ((leftNodes r.kernel.mem d va s.nodes).map
        (nodeEntry r.kernel.mem)) (s.managed r.kernel) va pa k' s' := by
  have hd := htarget.root h.roots
  have hsmall := htarget.small
  -- should `kmalloc` answer `NULL`, the stores through it do no harm
  have hnull : ∀ k₁ s₁ k₂ tables', Unmapped r.kernel s d va k₁ s₁ →
      Placed k₁ s₁ d va pa flags k₂ tables' →
        NullAway k₂ { s₁ with tables := tables' } := by
    intro k₁ s₁ k₂ tables' hun hplaced
    have hclear := hun.write flags
    have hset := hplaced.write
    rw [hun.roots] at hset
    have haway := h.away.write h.plain hclear hsmall leaf_zero_away
    have haway' := haway.write (hclear.allPlain h.plain hsmall) hset hsmall
      (htarget.leaf_away hpa)
    obtain ⟨d', hd', hcr3⟩ := h.cr3
    refine Away.nullAway (s := { s₁ with tables := tables' }) ?_ ⟨d', ?_, ?_⟩
    · exact hun.roots.symm ▸ haway'
    · exact hun.roots.symm ▸ hd'
    · rw [hplaced.machine.cr3, hun.machine.cr3]
      exact hcr3
  obtain ⟨s', hmapped, hlisted⟩ := (mmapDoMap_ends h.paging hd htarget.flags_lt
    h.zeroed hnull).elim ((mmapDoMap_stable _ _ _ _ _).settles hcall (by simp))
  exact ⟨s', h.of_write htarget hmapped.paging hmapped.roots hmapped.zeroed
    hmapped.machine hmapped.write (htarget.leaf_away hpa), hmapped, hlisted⟩

/-- One of `mmap_do_unmap`. -/
theorem Sound.unmap (h : r.Sound kpgdir slots first n s)
    (htarget : Target kpgdir r.dirs d va flags)
    (hcall : mmapDoUnmap fuel r.kernel d va = .ok k') :
    ∃ s', Sound kpgdir slots first n ⟨k', r.dirs⟩ s' ∧
      Unmapped r.kernel s d va k' s' ∧ Framed r.kernel s k' s' := by
  obtain ⟨k₁, s', hsettles, hun, hframed⟩ :=
    unmapped_framed h.paging (htarget.root h.roots) va
  obtain rfl := Except.ok.inj
    ((mmapDoUnmap_stable _ _ _).eq_of_settles hcall (by simp) hsettles)
  exact ⟨s', h.of_write htarget hun.paging hun.roots hun.zeroed hun.machine
    (hun.write flags) leaf_zero_away, hun, hframed⟩

/-- Stores through pages outside the direct map. -/
theorem Sound.stores (h : r.Sound kpgdir slots first n s)
    (hstores : NullStores r.kernel k') :
    Sound kpgdir slots first n ⟨k', r.dirs⟩ s ∧
      SamePages r.kernel.mem k'.mem s.fixed := by
  obtain ⟨m', hoff, rfl⟩ := hstores
  obtain ⟨hpaging, hbeside⟩ := h.paging.offDirect hoff
  have hentry : ∀ d ∈ s.roots, ∀ i < 1024, entry m' d i =
      entry r.kernel.mem d i :=
    fun d hd i hi => hbeside.same.entry (List.mem_append_left _ hd) hi
  refine ⟨⟨hpaging, ?_, hbeside.zeroed h.zeroed, h.roots, h.cr3, h.curproc,
    h.away.offDirect h.paging hoff, ?_, ?_, h.blocks, h.frames⟩, hbeside.same⟩
  · intro d hd i hi
    rw [Kernel.setMem_mem, hentry d hd i hi]
    exact h.plain d hd i hi
  · intro d hd i hlo hhi
    rw [Kernel.setMem_mem, hentry d (h.dir_root hd) i hhi,
      hentry kpgdir h.kpgdir_root i hhi]
    exact h.half d hd i hlo hhi
  · intro va hlo hhi
    have hwalk := h.paging.forest.walk_congr h.paging.pool hbeside.same
      h.kpgdir_root va
    exact hwalk.symm ▸ h.direct va hlo hhi

/-- Another list of frames. -/
theorem Sound.setMemMap (h : r.Sound kpgdir slots first n s) {left : Int}
    (hframes : FramesLeft first n left) :
    Sound kpgdir slots first n
      ⟨{ r.kernel with memMap := frameMap slots first n left }, r.dirs⟩ s where
  paging := ⟨⟨h.paging.heap, h.paging.pool⟩, h.paging.forest, h.paging.list⟩
  plain := h.plain
  zeroed := h.zeroed
  roots := h.roots
  cr3 := h.cr3
  curproc := h.curproc
  away := h.away
  half := h.half
  direct := h.direct
  blocks := h.blocks
  frames := ⟨left, rfl, hframes⟩

/-- Another directory or process in use. -/
theorem Sound.setRoot (h : r.Sound kpgdir slots first n s) {root : Nat}
    {proc : Option Nat} (hroot : ∃ d ∈ s.roots, root = v2p d)
    (hproc : ∀ d, proc = some d → d ∈ r.dirs) :
    Sound kpgdir slots first n
      ⟨{ r.kernel with cr3 := root, curproc := proc }, r.dirs⟩ s where
  paging := ⟨⟨h.paging.heap, h.paging.pool⟩, h.paging.forest, h.paging.list⟩
  plain := h.plain
  zeroed := h.zeroed
  roots := h.roots
  cr3 := hroot
  curproc := hproc
  away := h.away
  half := h.half
  direct := h.direct
  blocks := h.blocks
  frames := h.frames

theorem Sound.switchToUvm (h : r.Sound kpgdir slots first n s)
    (hd : d ∈ r.dirs) :
    Sound kpgdir slots first n ⟨r.kernel.switchToUvm d, r.dirs⟩ s :=
  h.setRoot ⟨d, h.dir_root hd, rfl⟩ fun _ hd' => Option.some.inj hd' ▸ hd

theorem Sound.switchToKvm (h : r.Sound kpgdir slots first n s) :
    Sound kpgdir slots first n ⟨r.kernel.switchToKvm kpgdir, r.dirs⟩ s :=
  h.setRoot ⟨kpgdir, h.kpgdir_root, rfl⟩ h.curproc

section NewRoot

variable {page : Nat} (h : r.Sound kpgdir slots first n s)
  (hnew : NewRoot r.kernel s kpgdir page k')

include hnew

theorem newRoot_user (hva : va < kernBase) :
    pageWalk k'.mem (v2p page) va = none := by
  rw [pageWalk_root (hnew.paging.root_page List.mem_cons_self),
    hnew.user _ (pdx_user hva), walkEntry_zero]

include h

theorem Sound.newRoot_walk (hd : d ∈ s.roots) (va : Nat) :
    pageWalk k'.mem (v2p d) va = pageWalk r.kernel.mem (v2p d) va :=
  h.paging.forest.walk_congr h.paging.pool hnew.same hd va

theorem Sound.newRoot_kernel (hlo : kernBase ≤ va) (hhi : va < 4294967296) :
    pageWalk k'.mem (v2p page) va = pageWalk k'.mem (v2p kpgdir) va := by
  have hroot := hnew.paging.root_page List.mem_cons_self
  have hentry := hnew.same.entry (List.mem_append_left _ h.kpgdir_root) (pdx_lt va)
  rw [pageWalk_root hroot, pageWalk_root (h.paging.root_page h.kpgdir_root),
    hnew.kernel _ (pdx_kernel hlo hhi) (pdx_lt va), hentry]

/-- A new process directory. -/
theorem Sound.newRoot :
    Sound kpgdir slots first n ⟨k', page :: r.dirs⟩
      { s with roots := page :: s.roots } := by
  have hentry : ∀ d ∈ s.roots, ∀ i < 1024, entry k'.mem d i =
      entry r.kernel.mem d i :=
    fun d hd i hi => hnew.same.entry (List.mem_append_left _ hd) hi
  refine ⟨hnew.paging, ?_, hnew.zeroed, ?_, ?_, ?_, ?_, ?_, ?_,
    h.blocks.same hnew.machine.mapped, ?_⟩
  · intro d hd i hi
    rcases List.mem_cons.mp hd with rfl | hd
    · by_cases hlow : i < 768
      · exact Or.inl (hnew.user i hlow)
      · rw [hnew.kernel i (by omega) hi]
        exact h.plain kpgdir h.kpgdir_root i hi
    · rw [hentry d hd i hi]
      exact h.plain d hd i hi
  · rw [h.roots]
    rfl
  · obtain ⟨d, hd, hcr3⟩ := h.cr3
    exact ⟨d, List.mem_cons_of_mem _ hd, hnew.machine.cr3.trans hcr3⟩
  · intro d hd
    rw [hnew.machine.curproc] at hd
    exact List.mem_cons_of_mem _ (h.curproc d hd)
  · intro d hd va hout hva t ht
    rcases List.mem_cons.mp hd with rfl | hd
    · by_cases hlow : va < kernBase
      · rw [newRoot_user hnew hlow] at ht
        cases ht
      · rw [h.newRoot_kernel hnew (by omega) hva,
          h.newRoot_walk hnew h.kpgdir_root] at ht
        exact h.away kpgdir h.kpgdir_root va hout hva t ht
    · rw [h.newRoot_walk hnew hd] at ht
      exact h.away d hd va hout hva t ht
  · intro d hd i hlo hhi
    rw [hentry kpgdir h.kpgdir_root i hhi]
    rcases List.mem_cons.mp hd with rfl | hd
    · exact Or.inr (hnew.kernel i hlo hhi)
    · rw [hentry d (h.dir_root hd) i hhi]
      exact h.half d hd i hlo hhi
  · intro va hlo hhi
    rw [h.newRoot_walk hnew h.kpgdir_root]
    exact h.direct va hlo hhi
  · obtain ⟨left, hmap, hframes⟩ := h.frames
    exact ⟨left, hnew.machine.memMap.trans hmap, hframes⟩

end NewRoot

/-- The page `uvm_init` maps for a while. -/
def scratchPage : Nat := kernBase + memNormal

theorem unmappedPage_eq (h : MappedBlocks r.kernel.kvmlist) {page : Nat}
    (hcall : kvmAllocUmappedPage r.kernel = .ok page) : page = scratchPage := by
  rw [kvmAllocUmappedPage] at hcall
  cases hscan : kvmScan r.kernel.kvmlist
      (fun block => block.status &&& vmMapped == 0) nvmBlocks 0 with
  | none => rw [hscan] at hcall; cases hcall
  | some i =>
      rw [hscan] at hcall
      obtain rfl := Except.ok.inj hcall
      obtain ⟨-, hi, hfound, hbefore⟩ := kvmScan_some hscan
      rw [Nat.zero_add] at hi
      obtain ⟨haddr, hstatus⟩ := h i hi
      have hlo : 229376 ≤ i := hstatus.mp (by simpa using hfound)
      have hhi : ¬ 229376 < i := by
        intro hlt
        have hfirst := hbefore 229376 (Nat.zero_le _) hlt
        have hzero := (h 229376 (by decide)).2.mpr le_rfl
        simp [hzero] at hfirst
      obtain rfl : i = 229376 := by omega
      exact haddr

/-- The directory the handler maps a page into. -/
def handlerDir (kpgdir : Nat) (k : Kernel) (addr : Nat) : Option Nat :=
  if kernBase ≤ addr then some kpgdir else k.curproc

/-- The handler returned: it mapped `pa`, what the allocator answered. -/
structure Handled (kpgdir : Nat) (slots : Int → Nat) (first n : Nat)
    (r : PagingRun) (s : Paging) (addr d flags pa : Nat) (left : Int)
    (k' : Kernel) (s' : Paging) : Prop where
  dir : handlerDir kpgdir r.kernel addr = some d
  target : Target kpgdir r.dirs d addr flags
  frame : phyMemAlloc r.kernel.memMap = (pa, frameMap slots first n left)
  good : GoodFrame pa
  left_ok : FramesLeft first n left
  mapped : Mapped { r.kernel with memMap := frameMap slots first n left } s d
    addr pa flags k' s'
  sound : Sound kpgdir slots first n ⟨k', r.dirs⟩ s'

theorem Sound.alloc (hslot : slots 0 = 0) (h : r.Sound kpgdir slots first n s) :
    ∃ pa left, phyMemAlloc r.kernel.memMap = (pa, frameMap slots first n left) ∧
      GoodFrame pa ∧ FramesLeft first n left := by
  obtain ⟨left, hmap, hframes⟩ := h.frames
  obtain ⟨left', hframes', hnext, -⟩ := hframes.alloc hslot
  have hgood := hframes.alloc_good hslot
  rw [← hmap] at hnext hgood
  exact ⟨_, left', Prod.ext rfl hnext, hgood, hframes'⟩

/-- The one call of `mmap_do_map` in the handler. -/
theorem pageFaultHandler_parts {k : Kernel} {memMap : MemMap} {addr : Nat}
    (hcall : pageFaultHandler kpgdir fuel k addr = .ok k')
    (halloc : phyMemAlloc k.memMap = (pa, memMap)) :
    ∃ d, handlerDir kpgdir k addr = some d ∧
      mmapDoMap fuel { k with memMap := memMap } d addr pa
        (if kernBase ≤ addr then 0 else pteU) = .ok k' := by
  rw [pageFaultHandler, halloc] at hcall
  dsimp only at hcall
  rw [handlerDir]
  split_ifs at hcall ⊢
  · exact ⟨kpgdir, rfl, hcall⟩
  · split at hcall
    · rename_i d hproc
      exact ⟨d, hproc, hcall⟩
    · cases hcall

theorem Sound.handler_target (h : r.Sound kpgdir slots first n s) {addr : Nat}
    (hlt : addr < 4294967296)
    (hout : ¬ (kernBase ≤ addr ∧ addr < kernBase + memNormal))
    (hdir : handlerDir kpgdir r.kernel addr = some d) :
    Target kpgdir r.dirs d addr (if kernBase ≤ addr then 0 else pteU) := by
  rw [handlerDir] at hdir
  split_ifs at hdir ⊢ with hkernel
  · obtain rfl := Option.some.inj hdir
    exact .kernel addr (by omega) hlt
  · exact .user d addr (h.curproc d hdir) (by omega)

theorem Sound.fault (hslot : slots 0 = 0) (h : r.Sound kpgdir slots first n s)
    {addr : Nat} (hlt : addr < 4294967296)
    (hout : ¬ (kernBase ≤ addr ∧ addr < kernBase + memNormal))
    (hcall : pageFaultHandler kpgdir fuel r.kernel addr = .ok k') :
    ∃ d flags pa left s',
      Handled kpgdir slots first n r s addr d flags pa left k' s' := by
  obtain ⟨pa, left, halloc, hgood, hframes⟩ := h.alloc hslot
  have hsound := h.setMemMap hframes
  obtain ⟨d, hdir, hmap⟩ := pageFaultHandler_parts hcall halloc
  have htarget := h.handler_target hlt hout hdir
  obtain ⟨s', hsound', hmapped, -⟩ := hsound.map htarget hgood hmap
  exact ⟨d, _, pa, left, s', hdir, htarget, halloc, hgood, hframes, hmapped,
    hsound'⟩

/-- `uvm_init` returned: the frame was in the kernel for a while and is at the
bottom of the process now. -/
structure Filled (kpgdir : Nat) (slots : Int → Nat) (first n : Nat)
    (r : PagingRun) (s : Paging) (pgdir pa : Nat) (left : Int)
    (k₁ : Kernel) (s₁ : Paging) (k₂ k₃ : Kernel) (s₂ : Paging)
    (k' : Kernel) (s' : Paging) : Prop where
  frame : phyMemAlloc r.kernel.memMap = (pa, frameMap slots first n left)
  good : GoodFrame pa
  left_ok : FramesLeft first n left
  ne_zero : pa ≠ 0
  mapped : Mapped { r.kernel with memMap := frameMap slots first n left } s kpgdir
    scratchPage pa 0 k₁ s₁
  copied : SamePages k₁.mem k₂.mem s₁.fixed
  kept : k₂.memMap = k₁.memMap
  unmapped : Unmapped k₂ s₁ kpgdir scratchPage k₃ s₂
  filled : Mapped k₃ s₂ pgdir 0 pa pteU k' s'
  sound₁ : Sound kpgdir slots first n ⟨k₁, r.dirs⟩ s₁
  sound₂ : Sound kpgdir slots first n ⟨k₂, r.dirs⟩ s₁
  sound₃ : Sound kpgdir slots first n ⟨k₃, r.dirs⟩ s₂
  sound : Sound kpgdir slots first n ⟨k', r.dirs⟩ s'

/-- The calls of `uvm_init`. -/
theorem uvmInit_parts {k : Kernel} {memMap : MemMap} {pgdir init sz : Nat}
    (hcall : Linda.uvmInit kpgdir fuel k pgdir init sz = .ok k')
    (halloc : phyMemAlloc k.memMap = (pa, memMap)) :
    ∃ page k₁ k₂ k₃, kvmAllocUmappedPage k = .ok page ∧ sz ≤ pgSize ∧ pa ≠ 0 ∧
      mmapDoMap fuel { k with memMap := memMap } kpgdir page pa 0 = .ok k₁ ∧
      memmove k₁ page init sz = .ok k₂ ∧
      mmapDoUnmap fuel k₂ kpgdir page = .ok k₃ ∧
      mmapDoMap fuel k₃ pgdir 0 pa pteU = .ok k' := by
  rw [Linda.uvmInit, halloc] at hcall
  obtain ⟨page, hpage, hcall⟩ := ok_of_bind hcall
  by_cases hsz : pgSize < sz
  · rw [if_pos hsz] at hcall
    cases hcall
  by_cases hnull : pa = 0
  · rw [if_neg hsz, if_pos hnull] at hcall
    cases hcall
  rw [if_neg hsz, if_neg hnull] at hcall
  obtain ⟨k₁, hmap, hcall⟩ := ok_of_bind hcall
  obtain ⟨k₂, hmove, hcall⟩ := ok_of_bind hcall
  obtain ⟨k₃, hunmap, hcall⟩ := ok_of_bind hcall
  exact ⟨page, k₁, k₂, k₃, hpage, not_lt.mp hsz, hnull, hmap, hmove, hunmap,
    hcall⟩

/-- What is copied fits into the page. -/
theorem scratch_fits {sz : Nat} (hsz : sz ≤ pgSize) :
    scratchPage + sz ≤ 4294967296 := by
  simp only [pgSize] at hsz
  simp only [scratchPage, kernBase, memNormal]
  omega

theorem scratch_target : Target kpgdir r.dirs kpgdir scratchPage 0 :=
  .kernel _ le_rfl (by decide)

theorem Sound.uvmInit (hslot : slots 0 = 0) (h : r.Sound kpgdir slots first n s)
    {pgdir init sz : Nat} (hd : pgdir ∈ r.dirs)
    (hcall : Linda.uvmInit kpgdir fuel r.kernel pgdir init sz = .ok k') :
    ∃ pa left k₁ s₁ k₂ k₃ s₂ s',
      Filled kpgdir slots first n r s pgdir pa left k₁ s₁ k₂ k₃ s₂ k' s' := by
  obtain ⟨pa, left, halloc, hgood, hframes⟩ := h.alloc hslot
  have hsound := h.setMemMap hframes
  obtain ⟨page, k₁, k₂, k₃, hpage, hsz, hnull, hmap, hmove, hunmap, hfill⟩ :=
    uvmInit_parts hcall halloc
  obtain rfl := unmappedPage_eq h.blocks hpage
  obtain ⟨s₁, hsound₁, hmapped, -⟩ := hsound.map scratch_target hgood hmap
  have hstores := memmove_away hsound₁.paging hsound₁.away hsound₁.cr3
    (le_refl scratchPage) (scratch_fits hsz) hmove
  obtain ⟨hsound₂, hcopied⟩ := hsound₁.stores hstores
  obtain ⟨s₂, hsound₃, hunmapped, -⟩ := hsound₂.unmap scratch_target hunmap
  obtain ⟨s', hsound', hfilled, -⟩ :=
    hsound₃.map (.user pgdir 0 hd (by decide)) hgood hfill
  exact ⟨pa, left, k₁, s₁, k₂, k₃, s₂, s', halloc, hgood, hframes, hnull,
    hmapped, hcopied, hstores.memMap, hunmapped, hfilled, hsound₁, hsound₂,
    hsound₃, hsound'⟩

/-- What a call that returned did to a sound state. -/
inductive Stepped (kpgdir : Nat) (slots : Int → Nat) (first n : Nat)
    (r : PagingRun) (s : Paging) : PagingCall → PagingRun → Prop where
  | newRoot {page : Nat} {k' : Kernel}
      (hnew : NewRoot r.kernel s kpgdir page k') :
      Stepped kpgdir slots first n r s .umapInit ⟨k', page :: r.dirs⟩
  | filled {pgdir init sz pa : Nat} {left : Int} {k₁ k₂ k₃ k' : Kernel}
      {s₁ s₂ s' : Paging} (hd : pgdir ∈ r.dirs)
      (hfilled : Filled kpgdir slots first n r s pgdir pa left k₁ s₁ k₂ k₃ s₂
        k' s') :
      Stepped kpgdir slots first n r s (.uvmInit pgdir init sz) ⟨k', r.dirs⟩
  | handled {user : Bool} {addr d flags pa : Nat} {left : Int} {k' : Kernel}
      {s' : Paging}
      (hhandled : Handled kpgdir slots first n r s addr d flags pa left k' s') :
      Stepped kpgdir slots first n r s (.fault user addr) ⟨k', r.dirs⟩
  | uvm {pgdir : Nat} (hd : pgdir ∈ r.dirs) :
      Stepped kpgdir slots first n r s (.switchToUvm pgdir)
        ⟨r.kernel.switchToUvm pgdir, r.dirs⟩
  | kvm : Stepped kpgdir slots first n r s .switchToKvm
      ⟨r.kernel.switchToKvm kpgdir, r.dirs⟩

theorem Sound.stepped (hslot : slots 0 = 0) (h : r.Sound kpgdir slots first n s)
    {call : PagingCall} {r' : PagingRun} (hoccurs : call.Occurs r)
    (hspares : call.SparesDirect) (hstep : call.exec kpgdir fuel r = .ok r') :
    Stepped kpgdir slots first n r s call r' := by
  cases call with
  | umapInit =>
      obtain ⟨⟨page, k'⟩, hcall, hr'⟩ := ok_of_bind hstep
      obtain rfl := Except.ok.inj hr'
      exact .newRoot (newRoot_of_umapInit h.paging h.zeroed h.kpgdir_root hcall)
  | uvmInit pgdir init sz =>
      obtain ⟨k', hcall, hr'⟩ := ok_of_bind hstep
      obtain rfl := Except.ok.inj hr'
      obtain ⟨pa, left, k₁, s₁, k₂, k₃, s₂, s', hfilled⟩ :=
        h.uvmInit hslot hoccurs hcall
      exact .filled hoccurs hfilled
  | fault user addr =>
      obtain ⟨k', hcall, hr'⟩ := ok_of_bind hstep
      obtain rfl := Except.ok.inj hr'
      obtain ⟨d, flags, pa, left, s', hhandled⟩ :=
        h.fault hslot hoccurs.1 hspares hcall
      exact .handled hhandled
  | switchToUvm pgdir =>
      obtain rfl := Except.ok.inj hstep
      exact .uvm hoccurs
  | switchToKvm =>
      obtain rfl := Except.ok.inj hstep
      exact .kvm

theorem Stepped.sound {call : PagingCall} {r' : PagingRun}
    (hstepped : Stepped kpgdir slots first n r s call r')
    (h : r.Sound kpgdir slots first n s) :
    ∃ s', r'.Sound kpgdir slots first n s' := by
  cases hstepped with
  | newRoot hnew => exact ⟨_, h.newRoot hnew⟩
  | filled hd hfilled => exact ⟨_, hfilled.sound⟩
  | handled hhandled => exact ⟨_, hhandled.sound⟩
  | uvm hd => exact ⟨s, h.switchToUvm hd⟩
  | kvm => exact ⟨s, h.switchToKvm⟩

end Steps

section Boot

variable {image : Image} {ram : Memory} {slots : Int → Nat}
  {bounds : Nat × Nat} {entries : List MmapEntry} {fuel : Nat} {k : Kernel}

theorem bootedKernel_blocks {memMap : MemMap}
    (hcount : memMap.pageCount ≤ 1048576) :
    MappedBlocks (bootedKernel image ram memMap).kvmlist := by
  intro i hi
  obtain ⟨-, hlo, -, hhi, hend⟩ := image.bounds
  have hkern : virtKernAddr image memMap =
      image.kernEnd + memMap.pageCount * 4 := u32_of_lt (by omega)
  simp only [bootedKernel, kvmInit, Kernel.setKvmlist_kvmlist, if_pos hi, hkern]
  simp only [nvmBlocks] at hi
  have haddr : u32 (kernBase + i * pgSize) = kernBase + i * pgSize := by
    simp only [kernBase, pgSize]
    exact u32_of_lt (by omega)
  have hvirt : p2v (i * pgSize) = 3221225472 + i * 4096 := by
    rw [p2v, Nat.add_comm]
    exact haddr
  refine ⟨haddr, ?_⟩
  rw [hvirt]
  by_cases hdirect : i < 229376
  · rw [if_pos hdirect]
    dsimp only
    split_ifs
    · exact iff_of_false (by decide) (by omega)
    · exact iff_of_false (by decide) (by omega)
  · rw [if_neg hdirect, if_neg (by omega)]
    exact iff_of_true (by decide) (by omega)

/-- The run starts with the directory of the kernel alone. -/
theorem sound_of_boot (hzero : ZeroMemory image ram slots)
    (hboot : boot image bounds entries fuel (loadedKernel image ram slots) =
      .ok k) :
    Sound image.kpgdir slots (frameBounds image bounds entries).1
      (frameCount image bounds entries) ⟨k, []⟩ (bootPaging image) := by
  obtain ⟨hloaded, hbehind, hslot⟩ := hzero
  obtain ⟨left, hmap, hframes, -⟩ := boot_frames hslot hloaded hboot
  obtain ⟨memMap, rfl, hcount⟩ := boot_ok hloaded hboot
  have hroot : image.kpgdir ∈ (bootPaging image).roots :=
    List.mem_singleton_self _
  constructor
  · exact bootedKernel_paging hcount
  · exact bootedKernel_plain
  · exact bootedKernel_zeroed hcount hbehind
  · rfl
  · exact ⟨image.kpgdir, hroot, rfl⟩
  · intro d hd
    cases hd
  · intro d hd va hout hva t ht
    obtain rfl := List.mem_singleton.mp hd
    dsimp only at ht
    rw [bootedKernel_walk hva, if_neg hout] at ht
    cases ht
  · intro d hd
    cases hd
  · intro va hlo hhi
    have hva : va < 4294967296 := by
      simp only [kernBase, memNormal] at hhi
      omega
    dsimp only
    rw [bootedKernel_walk hva, if_pos ⟨hlo, hhi⟩]
    simp
  · exact bootedKernel_blocks hcount
  · exact ⟨left, hmap, hframes⟩

end Boot

end PagingRun

/-- The first process of the small image, whatever was in memory. -/
theorem smallKernel_umapInit (ram : Memory) :
    umapInit smallImage.kpgdir (smallKernel ram 2) = .ok (0xC05E0000,
      ((smallKernel ram 2).setKvmlist (setBlock (smallKernel ram 2).kvmlist 1504
        ((smallKernel ram 2).kvmlist 1504).use)).setMem
          (directoryMemory (smallKernel ram 2).mem smallImage.kpgdir
            0xC05E0000)) := by
  have hscan : kvmScan (smallKernel (fun _ => 0) 2).kvmlist VmBlock.available
      nvmBlocks 0 = some 1504 := by decide +kernel
  have haddr : ((smallKernel (fun _ => 0) 2).kvmlist 1504).address =
      0xC05E0000 := by decide +kernel
  have hsame : (smallKernel (fun _ => 0) 2).kvmlist = (smallKernel ram 2).kvmlist :=
    rfl
  rw [hsame] at hscan haddr
  obtain ⟨-, hi, havail, hfirst⟩ := kvmScan_some hscan
  have hpages := availablePages_use (by omega) havail
    fun j hj => hfirst j (Nat.zero_le j) hj
  rw [haddr] at hpages
  have hpaging : PagingAt (smallKernel ram 2) (bootPaging smallImage) :=
    bootedKernel_paging (by decide)
  refine umapInit_eq hpaging (List.mem_singleton_self _) ?_ hpages
  simp only [kvmAllocPage, hscan, haddr]

/-- The small image with one process. -/
def smallProcess : Kernel :=
  let k := smallKernel (fun _ => 0) 2
  (k.setKvmlist (setBlock k.kvmlist 1504 (k.kvmlist 1504).use)).setMem
    (directoryMemory k.mem smallImage.kpgdir 0xC05E0000)

theorem smallProcess_eq : umapInit smallImage.kpgdir (smallKernel (fun _ => 0) 2) =
    .ok (0xC05E0000, smallProcess) := smallKernel_umapInit _

theorem smallProcess_step : PagingCall.umapInit.exec smallImage.kpgdir 10
    ⟨smallKernel (fun _ => 0) 2, []⟩ = .ok ⟨smallProcess, [0xC05E0000]⟩ := by
  simp only [PagingCall.exec, smallProcess_eq, ok_bind]

end Linda
