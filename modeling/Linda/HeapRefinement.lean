/-
The loops of kmalloc.c compute what the chunk list says they do: a glue pass
is `glue`, `kmfree` is `freeBlock` and a glue pass, `kmalloc` is `request`.
-/
import Linda.HeapSteps

namespace Linda

open ByteMemory IntervalCover LinkedSegment FuelLoop

/-- A chunk that a glue pass merged away has a zero header. -/
def Swallowed (m : Memory) (chunks chunks' : List Chunk) : Prop :=
  ∀ c ∈ chunks, c.base ∉ chunks'.map Chunk.base →
    chunkStatus m c.base = kmemUsed ∧ chunkNext m c.base = 0

section Glue

variable {m : Memory} {head : Nat} {pages : List Nat}

/-- The walk of `chunk_glue` from the first chunk of `suf` on. -/
theorem glueBody_runs {pre suf : List Chunk}
    (h : HeapAt m head (pre ++ suf) pages) :
    ∃ m', Runs .spin (fun _ => glueBody) (m, headPointer suf) (.ok m') ∧
      HeapAt m' head (pre ++ glue suf) pages ∧
      HeapUpdate m (pre ++ suf) m' (pre ++ glue suf) [] ∧
      Swallowed m' suf (glue suf) := by
  match suf with
  | [] =>
      refine ⟨m, Runs.exit (settles_const _), h, .refl _ _, ?_⟩
      intro c hc
      simp at hc
  | [c] =>
      have hc0 : c.base ≠ 0 :=
        h.list.linked.ne_null (List.mem_map_of_mem (by simp))
      have hnext : chunkNext m c.base = 0 := h.list.next_eq
      have hbody : glueBody (m, c.base) = .ok (.inr m) := by
        simp [glueBody, hc0, hnext]
      refine ⟨m, Runs.exit ?_, h, .refl _ _, ?_⟩
      · simp only [headPointer, List.map_cons, List.headD_cons, hbody]
        exact settles_const _
      · intro d hd hnot
        obtain rfl := List.mem_singleton.mp hd
        simp [glue] at hnot
  | c :: d :: rest =>
      have hcat : ChunkAt m c := h.list.stored c (by simp)
      have hdat : ChunkAt m d := h.list.stored d (by simp)
      have hrc : c.InRange := h.tiling.inRange c (by simp)
      have hrd : d.InRange := h.tiling.inRange d (by simp)
      have hd0 : d.base ≠ 0 := by
        have hbounds := hrd.bounds
        omega
      have hnext : chunkNext m c.base = d.base := h.list.next_eq
      have hpair := glueBody_pair hcat hdat hrc hrd hnext
      by_cases hm : c.Mergeable d
      · -- the round after a merge reads the header it has just cleared
        rw [if_pos hm] at hpair
        have h' : HeapAt m head (pre ++ [c, d] ++ rest) pages := by
          simpa using h
        obtain ⟨hat, hupd⟩ := h'.merge hm
        have hstop : c.base + 16 + c.size = d.base := hm.2.2
        have hzero : ∀ x, d.base ≤ x → x < d.base + 16 →
            mergeMemory m c d x = 0 := fun x hlo hhi =>
          mergeMemory_zero (by omega) (by omega)
        have hlink : chunkNext (mergeMemory m c d) d.base = 0 :=
          load32_eq_zero fun x hlo hhi => hzero x hlo (by omega)
        have hbody : glueBody (mergeMemory m c d, d.base) =
            .ok (.inr (mergeMemory m c d)) := by
          simp [glueBody, hd0, hlink]
        refine ⟨mergeMemory m c d, ?_, ?_, ?_, ?_⟩
        · refine Runs.next ?_ (Runs.exit (s := (mergeMemory m c d, d.base)) ?_)
          · simp only [headPointer, List.map_cons, List.headD_cons, hpair]
            exact settles_const _
          · simp only [hbody]
            exact settles_const _
        · simpa [glue, hm] using hat
        · simpa [glue, hm] using hupd
        · intro e he hnot
          simp only [glue, hm, ↓reduceIte, List.map_cons, List.mem_cons,
            not_or, List.mem_map, not_exists, not_and] at hnot he
          rcases he with rfl | rfl | he
          · exact absurd rfl hnot.1
          · exact ⟨hzero _ (by omega) (by omega), hlink⟩
          · exact absurd rfl (hnot.2 e he)
      · rw [if_neg hm] at hpair
        have h' : HeapAt m head ((pre ++ [c]) ++ d :: rest) pages := by
          simpa using h
        obtain ⟨m', hrun, hat, hupd, hswal⟩ := glueBody_runs h'
        refine ⟨m', ?_, ?_, ?_, ?_⟩
        · refine Runs.next ?_ hrun
          simp only [headPointer, List.map_cons, List.headD_cons, hpair]
          exact settles_const _
        · simpa [glue, hm] using hat
        · simpa [glue, hm] using hupd
        · intro e he hnot
          simp only [glue, hm, ↓reduceIte, List.map_cons, List.mem_cons,
            not_or] at hnot he
          rcases he with rfl | he
          · exact absurd rfl hnot.1
          · exact hswal e (by simpa using he) hnot.2
termination_by suf.length

/-- One glue pass over a list that is not empty. -/
theorem chunkGlue_settles {chunks : List Chunk} (h : HeapAt m head chunks pages)
    (hne : chunks ≠ []) :
    ∃ m', Settles (fun fuel => chunkGlue fuel head m) (.ok m') ∧
      HeapAt m' head (glue chunks) pages ∧
      HeapUpdate m chunks m' (glue chunks) [] ∧
      Swallowed m' chunks (glue chunks) := by
  have hhead : head ≠ 0 := fun h0 => hne (h.list.nil_iff.mpr h0)
  have h₀ : HeapAt m head ([] ++ chunks) pages := h
  obtain ⟨m', hrun, hat, hupd, hswal⟩ := glueBody_runs h₀
  refine ⟨m', ?_, hat, hupd, hswal⟩
  have hsettles := hrun.settles
  rw [← h.list.head_eq] at hsettles
  simpa only [chunkGlue, hhead, ↓reduceIte] using hsettles

end Glue

/-- The heap of a kernel state and the pages it may still take. -/
structure HeapReady (k : Kernel) (chunks : List Chunk) (pages : List Nat) :
    Prop where
  heap : HeapAt k.mem k.kmemList chunks pages
  supply : Supply pages (availablePages k.kvmlist)

/-- A heap operation that took the pages `fresh`; nothing but the heap and the
use of pages changed. -/
structure HeapMove (k : Kernel) (chunks : List Chunk) (pages : List Nat)
    (k' : Kernel) (chunks' : List Chunk) (fresh : List Nat) : Prop where
  ready : HeapReady k' chunks' (pages ++ fresh)
  taken : availablePages k.kvmlist = fresh ++ availablePages k'.kvmlist
  update : HeapUpdate k.mem chunks k'.mem chunks' fresh
  mapped : SameMapped k.kvmlist k'.kvmlist
  memMap : k'.memMap = k.memMap
  mmaplist : k'.mmaplist = k.mmaplist
  cr3 : k'.cr3 = k.cr3
  curproc : k'.curproc = k.curproc

section Moves

variable {k k₁ k₂ : Kernel} {chunks chunks₁ chunks₂ : List Chunk}
  {pages fresh₁ fresh₂ : List Nat}

/-- A step that takes no page. -/
theorem HeapMove.of_update (h : HeapReady k chunks pages) {m' : Memory}
    (hat : HeapAt m' k.kmemList chunks₁ pages)
    (hupd : HeapUpdate k.mem chunks m' chunks₁ []) :
    HeapMove k chunks pages (k.setMem m') chunks₁ [] where
  ready := ⟨by simpa using hat, by simpa using h.supply⟩
  taken := (List.nil_append _).symm
  update := hupd
  mapped := .refl _
  memMap := rfl
  mmaplist := rfl
  cr3 := rfl
  curproc := rfl

theorem HeapMove.refl (h : HeapReady k chunks pages) :
    HeapMove k chunks pages k chunks [] :=
  .of_update h h.heap (.refl _ _)

theorem HeapMove.trans (h : HeapReady k chunks pages)
    (h₁ : HeapMove k chunks pages k₁ chunks₁ fresh₁)
    (h₂ : HeapMove k₁ chunks₁ (pages ++ fresh₁) k₂ chunks₂ fresh₂) :
    HeapMove k chunks pages k₂ chunks₂ (fresh₁ ++ fresh₂) where
  ready := by simpa using h₂.ready
  taken := by rw [h₁.taken, h₂.taken, List.append_assoc]
  update := by
    refine h₁.update.trans h₂.update fun page hpage x hx => ?_
    have hnone : coverCount ((pages ++ fresh₁).map pageExtent) x = 0 :=
      h₁.ready.supply.outside (by simp [h₂.taken, hpage]) hx
    rw [List.map_append, coverCount_append] at hnone
    refine ⟨fun c hc hin => ?_, by omega⟩
    have hout := h.heap.tiling.outside (x := x) (by omega) hc
    rw [Chunk.mem_extent] at hin
    omega
  mapped := h₁.mapped.trans h₂.mapped
  memMap := h₂.memMap.trans h₁.memMap
  mmaplist := h₂.mmaplist.trans h₁.mmaplist
  cr3 := h₂.cr3.trans h₁.cr3
  curproc := h₂.curproc.trans h₁.curproc

end Moves

section Request

variable {size : Nat}

/-- `alloc_free_chunk_from_kvm` pops a page and writes its header. -/
theorem allocFreeChunkFromKvm_spec (k : Kernel)
    (hvalid : ∀ page ∈ availablePages k.kvmlist, ValidPage page) :
    (availablePages k.kvmlist = [] ∧
        allocFreeChunkFromKvm k = .error (.panic .noMappedPage)) ∨
      ∃ page kvmlist', ValidPage page ∧
        allocFreeChunkFromKvm k = .ok (page,
          (k.setKvmlist kvmlist').setMem (pageMemory k.mem page)) ∧
        availablePages k.kvmlist = page :: availablePages kvmlist' ∧
        SameMapped k.kvmlist kvmlist' := by
  rcases kvmAllocPage_spec k with ⟨hnone, halloc⟩ |
      ⟨page, kvmlist', halloc, havail, hmapped⟩
  · refine Or.inl ⟨hnone, ?_⟩
    simp [allocFreeChunkFromKvm, halloc, Bind.bind, Except.bind]
  · have hpage : ValidPage page := hvalid page (by simp [havail])
    have hpos : page ≠ 0 := Nat.pos_iff_ne_zero.mp hpage.pos
    have haddr : u32 (page + 16) = page + 16 := by
      have haligned := hpage.aligned
      have hbelow := hpage.below
      exact u32_of_lt (by omega)
    refine Or.inr ⟨page, kvmlist', hpage, ?_, havail, hmapped⟩
    simp only [allocFreeChunkFromKvm, halloc, Bind.bind, Except.bind, hpos,
      ↓reduceIte, Kernel.setKvmlist_mem, headerSize, haddr, pageMemory, pgSize,
      Nat.reduceSub]

/-- The loop of `kmalloc` answers `r` from `block` on. -/
def KmallocRuns (size : Nat) (k : Kernel) (block : Nat)
    (r : Except Halt (Nat × Kernel)) : Prop :=
  Runs .spin (fun fuel => kmallocBody size fuel) (k, block) r

/-- The loop, standing on `block`, ends the way the walk did. -/
def Walk.Meets (size : Nat) (k : Kernel) (chunks : List Chunk)
    (pages : List Nat) (block : Nat) : Walk → Prop
  | .grant chunks' addr => ∃ m',
      KmallocRuns size k block (.ok (addr, k.setMem m')) ∧
        HeapMove k chunks pages (k.setMem m') chunks' []
  | .gap => KmallocRuns size k block (.error (.panic .splitTooSmall))
  | .refuse => KmallocRuns size k block (.ok (0, k))
  | .grow front last => chunks = front ++ [last] ∧ last.free = true ∧
      last.size < size ∧
      ∀ r, KmallocRuns size k last.base r → KmallocRuns size k block r

/-- Passing a chunk that does not serve the request. -/
theorem Walk.Meets.pass {k : Kernel} {chunks : List Chunk} {pages : List Nat}
    {block next : Nat} {w : Walk} (h : w.Meets size k chunks pages next)
    (hbody : ∀ fuel, kmallocBody size fuel (k, block) = .ok (.inl (k, next))) :
    w.Meets size k chunks pages block := by
  have hpass : ∀ r, KmallocRuns size k next r → KmallocRuns size k block r := by
    intro r hrun
    refine Runs.next ?_ hrun
    simp only [hbody]
    exact settles_const _
  cases w with
  | grant chunks' addr =>
      obtain ⟨m', hrun, hmove⟩ := h
      exact ⟨m', hpass _ hrun, hmove⟩
  | gap => exact hpass _ h
  | refuse => exact hpass _ h
  | grow front last =>
      obtain ⟨heq, hfree, hsmall, hrun⟩ := h
      exact ⟨heq, hfree, hsmall, fun r hr => hpass r (hrun r hr)⟩

section Blocks

variable {k : Kernel} {pre post : List Chunk} {c : Chunk} {pages : List Nat}

theorem HeapReady.block (h : HeapReady k (pre ++ c :: post) pages) :
    ChunkAt k.mem c ∧ c.InRange ∧ c.base ≠ 0 ∧
      chunkNext k.mem c.base = headPointer post := by
  have hrange : c.InRange := h.heap.tiling.inRange c (by simp)
  exact ⟨h.heap.list.stored c (by simp), hrange,
    Nat.pos_iff_ne_zero.mp hrange.base_pos, h.heap.list.next_eq⟩

theorem kmallocBody_used (h : HeapReady k (pre ++ c :: post) pages)
    (hused : c.free = false) (fuel : Nat) :
    kmallocBody size fuel (k, c.base) = .ok (.inl (k, headPointer post)) := by
  obtain ⟨hcat, _, hpos, hnext⟩ := h.block
  have hstatus : chunkStatus k.mem c.base ≠ kmemFree := by
    simp [status_free_iff hcat, hused]
  simp [kmallocBody, hpos, hstatus, hnext]

theorem kmallocBody_small (h : HeapReady k (pre ++ c :: post) pages)
    (hfree : c.free = true) (hsmall : c.size < size) (hpost : post ≠ [])
    (fuel : Nat) :
    kmallocBody size fuel (k, c.base) = .ok (.inl (k, headPointer post)) := by
  obtain ⟨hcat, _, hpos, hnext⟩ := h.block
  have hstatus := (status_free_iff hcat).mpr hfree
  have hne : headPointer post ≠ 0 := by
    obtain ⟨d, rest, rfl⟩ := List.exists_cons_of_ne_nil hpost
    exact h.heap.list.linked.ne_null (List.mem_map_of_mem (by simp))
  have hlarge : ¬ size < c.size := by omega
  have hexact : c.size ≠ size := by omega
  simp only [kmallocBody, hpos, ↓reduceIte, hstatus, ne_eq, not_true_eq_false,
    hcat.size, hlarge, hexact, hnext, hne]

theorem kmallocBody_gap (h : HeapReady k (pre ++ c :: post) pages)
    (hfree : c.free = true) (hlarge : size < c.size)
    (hgap : c.size ≤ size + headerSize) (fuel : Nat) :
    kmallocBody size fuel (k, c.base) = .error (.panic .splitTooSmall) := by
  obtain ⟨hcat, hrange, hpos, _⟩ := h.block
  have hstatus := (status_free_iff hcat).mpr hfree
  have hbounds := hrange.bounds
  have hwrap : c.size ≤ u32 (size + headerSize) := by
    rw [u32_of_lt (by simp only [headerSize]; omega)]
    exact hgap
  simp only [kmallocBody, hpos, ↓reduceIte, hstatus, ne_eq, not_true_eq_false,
    hcat.size, hlarge, chunkSplit, hwrap, Bind.bind, Except.bind]

theorem kmallocBody_split (h : HeapReady k (pre ++ c :: post) pages)
    (hfree : c.free = true) (hfit : size + headerSize < c.size) (fuel : Nat) :
    kmallocBody size fuel (k, c.base) = .ok (.inr (c.payload,
      k.setMem (setStatus (splitMemory k.mem c size) c.base kmemUsed))) := by
  obtain ⟨hcat, hrange, hpos, _⟩ := h.block
  have hstatus := (status_free_iff hcat).mpr hfree
  have hlarge : size < c.size := by omega
  have haddr : chunkAddr (splitMemory k.mem c size) c.base = c.payload :=
    (splitMemory_chunkAt hcat hrange hfree hfit).1.addr
  simp only [kmallocBody, hpos, ↓reduceIte, hstatus, ne_eq, not_true_eq_false,
    hcat.size, hlarge, chunkSplit_eq hcat hrange hfree hfit, Bind.bind,
    Except.bind, haddr]

theorem kmallocBody_exact (h : HeapReady k (pre ++ c :: post) pages)
    (hfree : c.free = true) (hexact : c.size = size) (fuel : Nat) :
    kmallocBody size fuel (k, c.base) = .ok (.inr (c.payload,
      k.setMem (setStatus k.mem c.base kmemUsed))) := by
  obtain ⟨hcat, _, hpos, _⟩ := h.block
  have hstatus := (status_free_iff hcat).mpr hfree
  simp only [kmallocBody, hpos, ↓reduceIte, hstatus, ne_eq, not_true_eq_false,
    hcat.size, hexact, lt_self_iff_false, hcat.addr]

end Blocks

variable (size) in
/-- What the walk of `kmalloc` finds on the list as it is. -/
theorem walk_meets {k : Kernel} {pre suf : List Chunk} {pages : List Nat}
    (h : HeapReady k (pre ++ suf) pages) :
    (walk size pre suf).Meets size k (pre ++ suf) pages (headPointer suf) := by
  induction suf generalizing pre with
  | nil => exact Runs.exit (settles_const _)
  | cons c post ih =>
      have hhead : headPointer (c :: post) = c.base := rfl
      have hlist : pre ++ [c] ++ post = pre ++ c :: post := by simp
      have hready : HeapReady k (pre ++ [c] ++ post) pages := by simpa using h
      have hrest := ih hready
      have hheap : HeapAt k.mem k.kmemList (pre ++ [c] ++ post) pages := by
        simpa using h.heap
      rw [hlist] at hrest
      rw [hhead, walk]
      split_ifs with hused hlarge hgap hexact hpost
      · exact hrest.pass (kmallocBody_used h hused)
      · refine Runs.fail ?_
        simp only [kmallocBody_gap h (by simpa using hused) hlarge hgap]
        exact settles_const _
      · have hfree : c.free = true := by simpa using hused
        have hfit : size + headerSize < c.size := by omega
        obtain ⟨hat, hupd⟩ := hheap.take hfree hfit
        refine ⟨setStatus (splitMemory k.mem c size) c.base kmemUsed,
          Runs.exit ?_,
          .of_update h (by simpa using hat) (by simpa using hupd)⟩
        simp only [kmallocBody_split h hfree hfit]
        exact settles_const _
      · have hfree : c.free = true := by simpa using hused
        obtain ⟨hat, hupd⟩ := hheap.takeWhole hfree
        refine ⟨setStatus k.mem c.base kmemUsed, Runs.exit ?_,
          .of_update h (by simpa using hat) (by simpa using hupd)⟩
        simp only [kmallocBody_exact h hfree hexact]
        exact settles_const _
      · subst hpost
        exact ⟨rfl, by simpa using hused, by omega, fun r hr => hr⟩
      · exact hrest.pass
          (kmallocBody_small h (by simpa using hused) (by omega) hpost)

theorem HeapMove.grow {k : Kernel} {chunks chunks' : List Chunk}
    {pages : List Nat} {page : Nat} {kvmlist' : Nat → VmBlock} {m' : Memory}
    {head' : Nat} (h : HeapReady k chunks pages)
    (havail : availablePages k.kvmlist = page :: availablePages kvmlist')
    (hmapped : SameMapped k.kvmlist kvmlist')
    (hat : HeapAt m' head' chunks' (pages ++ [page]))
    (hupd : HeapUpdate k.mem chunks m' chunks' [page]) :
    HeapMove k chunks pages
      { (k.setKvmlist kvmlist').setMem m' with kmemList := head' }
      chunks' [page] where
  ready := by
    refine ⟨hat, ?_⟩
    have hsupply := h.supply
    rw [havail] at hsupply
    exact hsupply.move
  taken := havail.trans List.singleton_append.symm
  update := hupd
  mapped := hmapped
  memMap := rfl
  mmaplist := rfl
  cr3 := rfl
  curproc := rfl

/-- The round of `kmalloc` that stands on a free last chunk too small for the
request. -/
theorem kmallocBody_grow {k : Kernel} {front : List Chunk} {last : Chunk}
    {pages : List Nat} (h : HeapReady k (front ++ [last]) pages)
    (hfree : last.free = true) (hsmall : last.size < size) :
    (availablePages k.kvmlist = [] ∧
        Settles (fun fuel => kmallocBody size fuel (k, last.base))
          (.error (.panic .noMappedPage))) ∨
      ∃ page k', availablePages k.kvmlist = page :: availablePages k'.kvmlist ∧
        Settles (fun fuel => kmallocBody size fuel (k, last.base))
          (.ok (.inl (k', last.base))) ∧
        HeapMove k (front ++ [last]) pages k'
          (glue (front ++ [last, .ofPage page])) [page] ∧
        Swallowed k'.mem (front ++ [last, .ofPage page])
          (glue (front ++ [last, .ofPage page])) := by
  have hlast : HeapReady k (front ++ last :: []) pages := h
  obtain ⟨hcat, _, hpos, hnext⟩ := hlast.block
  have hend : chunkNext k.mem last.base = 0 := hnext
  have hstatus := (status_free_iff hcat).mpr hfree
  have hlarge : ¬ size < last.size := by omega
  have hexact : last.size ≠ size := by omega
  simp only [kmallocBody, hpos, ↓reduceIte, hstatus, ne_eq, not_true_eq_false,
    hcat.size, hlarge, hexact, hend]
  have hvalid : ∀ page ∈ availablePages k.kvmlist, ValidPage page :=
    fun page hpage => h.supply.valid page (by simp [hpage])
  rcases allocFreeChunkFromKvm_spec k hvalid with ⟨hnone, halloc⟩ |
      ⟨page, kvmlist', hpage, halloc, havail, hmapped⟩
  · refine Or.inl ⟨hnone, ?_⟩
    simp only [halloc, Bind.bind, Except.bind]
    exact settles_const _
  · obtain ⟨hat, hupd⟩ := h.heap.grow hpage fun x hx =>
      h.supply.outside (by simp [havail]) hx
    obtain ⟨m', hglue, hat', hupd', hswal⟩ :=
      chunkGlue_settles hat (by simp)
    have hmove := HeapMove.grow h havail hmapped hat'
      (hupd.trans_same hupd')
    refine Or.inr ⟨page, _, havail, ?_, hmove, hswal⟩
    have hpageNe : page ≠ 0 := Nat.pos_iff_ne_zero.mp hpage.pos
    simp only [halloc, Bind.bind, Except.bind, hpageNe, ↓reduceIte]
    exact Settles.bind (f := fun fuel => chunkGlue fuel k.kmemList
      (growMemory k.mem last page)) hglue (settles_const _)

/-- Where the loop goes on after the growth. -/
theorem grown_resumes {k : Kernel} {front : List Chunk} {last : Chunk}
    {page : Nat} (hpos : last.base ≠ 0)
    (hswal : Swallowed k.mem (front ++ [last, .ofPage page])
      (glue (front ++ [last, .ofPage page])))
    {r : Except Halt (Nat × Kernel)}
    (hrun : KmallocRuns size k (headPointer (grown front last page).2) r) :
    KmallocRuns size k last.base r := by
  simp only [grown, List.span_eq_takeWhile_dropWhile] at hrun
  cases hcut : (glue (front ++ [last, .ofPage page])).dropWhile
      fun c => c.base ≠ last.base with
  | nil =>
      -- the glue pass swallowed the block the loop stands on
      rw [hcut] at hrun
      have hnot : last.base ∉
          (glue (front ++ [last, .ofPage page])).map Chunk.base := by
        intro hin
        obtain ⟨c, hc, hbase⟩ := List.mem_map.mp hin
        have hne := List.dropWhile_eq_nil_iff.mp hcut c hc
        simp [hbase] at hne
      obtain ⟨hstatus, hnext⟩ := hswal last (by simp) hnot
      refine Runs.next ?_ hrun
      have hbody : ∀ fuel, kmallocBody size fuel (k, last.base) =
          .ok (.inl (k, headPointer [])) := by
        intro fuel
        simp [kmallocBody, hpos, hstatus, hnext, kmemUsed, kmemFree,
          headPointer]
      simp only [hbody]
      exact settles_const _
  | cons c rest =>
      rw [hcut] at hrun
      have hbase : c.base = last.base := by
        have hhead := List.head?_dropWhile_not
          (fun c : Chunk => decide (c.base ≠ last.base))
          (glue (front ++ [last, .ofPage page]))
        rw [hcut] at hhead
        simpa using hhead
      rw [← hbase]
      exact hrun

/-- An answer, as `kmalloc` gives it. -/
def Answer.Meets (k : Kernel) (chunks : List Chunk) (pages : List Nat)
    (answer : Answer) (r : Except Halt (Nat × Kernel)) : Prop :=
  match answer with
  | .grant chunks' addr left => ∃ k' fresh, r = .ok (addr, k') ∧
      availablePages k'.kvmlist = left ∧ HeapMove k chunks pages k' chunks' fresh
  | .refuse chunks' left => ∃ k' fresh, r = .ok (0, k') ∧
      availablePages k'.kvmlist = left ∧ HeapMove k chunks pages k' chunks' fresh
  | .gap => r = .error (.panic .splitTooSmall)
  | .noPage => r = .error (.panic .noMappedPage)

theorem Answer.Meets.after {k k' : Kernel} {chunks chunks' : List Chunk}
    {pages fresh : List Nat} {answer : Answer} {r : Except Halt (Nat × Kernel)}
    (h : HeapReady k chunks pages)
    (hmove : HeapMove k chunks pages k' chunks' fresh)
    (hans : answer.Meets k' chunks' (pages ++ fresh) r) :
    answer.Meets k chunks pages r := by
  cases answer with
  | grant chunks₂ addr left =>
      obtain ⟨k₂, fresh₂, hr, hleft, hmove₂⟩ := hans
      exact ⟨k₂, fresh ++ fresh₂, hr, hleft, hmove.trans h hmove₂⟩
  | refuse chunks₂ left =>
      obtain ⟨k₂, fresh₂, hr, hleft, hmove₂⟩ := hans
      exact ⟨k₂, fresh ++ fresh₂, hr, hleft, hmove.trans h hmove₂⟩
  | gap => exact hans
  | noPage => exact hans

/-- The answer of a walk that does not grow the list. -/
theorem Walk.Meets.answer {k : Kernel} {chunks : List Chunk} {pages : List Nat}
    {block : Nat} {w : Walk} {answer : Answer}
    (hready : HeapReady k chunks pages) (h : w.Meets size k chunks pages block)
    (hanswer : match w with
      | .grant chunks' addr => answer = .grant chunks' addr (availablePages k.kvmlist)
      | .gap => answer = .gap
      | .refuse => answer = .refuse chunks (availablePages k.kvmlist)
      | .grow _ _ => False) :
    ∃ r, KmallocRuns size k block r ∧ answer.Meets k chunks pages r := by
  cases w with
  | grant chunks' addr =>
      obtain ⟨m', hrun, hmove⟩ := h
      subst hanswer
      exact ⟨_, hrun, k.setMem m', [], rfl, by simp, hmove⟩
  | gap =>
      subst hanswer
      exact ⟨_, h, rfl⟩
  | refuse =>
      subst hanswer
      exact ⟨_, h, k, [], rfl, rfl, .refl hready⟩
  | grow front last => exact absurd hanswer id

variable (size) in
/-- The loop of `kmalloc` computes `request`. -/
theorem request_meets {k : Kernel} {pre suf : List Chunk}
    {pages left : List Nat} (h : HeapReady k (pre ++ suf) pages)
    (hleft : availablePages k.kvmlist = left) :
    ∃ r, KmallocRuns size k (headPointer suf) r ∧
      (request size left pre suf).Meets k (pre ++ suf) pages r := by
  induction left generalizing k pre suf pages with
  | nil =>
      have hwalk := walk_meets size h
      cases hw : walk size pre suf with
      | grow front last =>
          rw [hw] at hwalk
          obtain ⟨heq, hfree, hsmall, hrun⟩ := hwalk
          rw [heq] at h
          rcases kmallocBody_grow h hfree hsmall with ⟨_, hbody⟩ |
              ⟨page, k', havail, _⟩
          · exact ⟨_, hrun _ (Runs.fail hbody), by rw [request, hw]; rfl⟩
          · rw [hleft] at havail
            simp at havail
      | grant chunks' addr =>
          rw [hw] at hwalk
          exact hwalk.answer h (by simp only [request, hw, hleft])
      | gap =>
          rw [hw] at hwalk
          exact hwalk.answer h (by simp only [request, hw])
      | refuse =>
          rw [hw] at hwalk
          exact hwalk.answer h (by simp only [request, hw, hleft])
  | cons page left ih =>
      have hwalk := walk_meets size h
      cases hw : walk size pre suf with
      | grow front last =>
          rw [hw] at hwalk
          obtain ⟨heq, hfree, hsmall, hrun⟩ := hwalk
          have hlast : HeapReady k (front ++ last :: []) pages := heq ▸ h
          have hpos := hlast.block.2.2.1
          rcases kmallocBody_grow (heq ▸ h) hfree hsmall with ⟨hnone, _⟩ |
              ⟨page', k', havail, hbody, hmove, hswal⟩
          · rw [hleft] at hnone
            simp at hnone
          · rw [hleft, List.cons.injEq] at havail
            obtain ⟨rfl, hleft'⟩ := havail
            have hcat := grown_append front last page
            have hready := hmove.ready
            rw [← hcat] at hready
            obtain ⟨r, hresume, hmeets⟩ := ih hready hleft'.symm
            refine ⟨r, hrun r (Runs.next hbody ?_), ?_⟩
            · exact grown_resumes hpos hswal hresume
            · rw [request, hw]
              rw [hcat] at hmeets
              rw [heq] at h ⊢
              exact hmeets.after h hmove
      | grant chunks' addr =>
          rw [hw] at hwalk
          exact hwalk.answer h (by simp only [request, hw, hleft])
      | gap =>
          rw [hw] at hwalk
          exact hwalk.answer h (by simp only [request, hw])
      | refuse =>
          rw [hw] at hwalk
          exact hwalk.answer h (by simp only [request, hw, hleft])

/-- The answer of `kmalloc`: an empty heap starts with the first page. -/
def kmallocAnswer (size : Nat) (left : List Nat) (chunks : List Chunk) :
    Answer :=
  match chunks, left with
  | [], [] => .noPage
  | [], page :: left => request size left [] [.ofPage page]
  | c :: rest, left => request size left [] (c :: rest)

/-- The first call finds no list and starts it with the first page. -/
theorem kmallocStart_empty {k : Kernel} {pages : List Nat}
    (h : HeapReady k [] pages) :
    (availablePages k.kvmlist = [] ∧
        kmallocStart k = .error (.panic .noMappedPage)) ∨
      ∃ page k', kmallocStart k = .ok k' ∧ k'.kmemList = page ∧
        availablePages k.kvmlist = page :: availablePages k'.kvmlist ∧
        HeapMove k [] pages k' [.ofPage page] [page] := by
  have hhead : k.kmemList = 0 := h.heap.list.head_eq
  have hvalid : ∀ page ∈ availablePages k.kvmlist, ValidPage page :=
    fun page hpage => h.supply.valid page (by simp [hpage])
  rcases allocFreeChunkFromKvm_spec k hvalid with ⟨hnone, halloc⟩ |
      ⟨page, kvmlist', hpage, halloc, havail, hmapped⟩
  · refine Or.inl ⟨hnone, ?_⟩
    simp only [kmallocStart, hhead, ↓reduceIte, halloc, Bind.bind, Except.bind]
  · obtain ⟨hat, hupd⟩ := HeapAt.start (m := k.mem) hpage
    have hpages : pages = [] := by
      cases pages with
      | nil => rfl
      | cons q rest =>
          have hcovers := h.heap.tiling.covers q
          have hq : q ∈ pageExtent q := mem_pageExtent.mpr (by omega)
          simp only [List.map_nil, coverCount_nil, List.map_cons,
            coverCount_cons, hq, ↓reduceIte] at hcovers
          omega
    have hmove := HeapMove.grow h havail hmapped
      (by simpa [hpages] using hat) hupd
    have hpageNe : page ≠ 0 := Nat.pos_iff_ne_zero.mp hpage.pos
    refine Or.inr ⟨page, _, ?_, rfl, havail, hmove⟩
    simp only [kmallocStart, hhead, ↓reduceIte, halloc, Bind.bind, Except.bind,
      hpageNe]

variable (size) in
/-- `kmalloc` always settles, on what its answer says. -/
theorem kmalloc_settles {k : Kernel} {chunks : List Chunk} {pages : List Nat}
    (h : HeapReady k chunks pages) :
    ∃ r, Settles (fun fuel => kmalloc fuel k size) r ∧
      (kmallocAnswer size (availablePages k.kvmlist) chunks).Meets
        k chunks pages r := by
  cases chunks with
  | cons c rest =>
      have hhead : k.kmemList = headPointer (c :: rest) := h.heap.list.head_eq
      have hpos : k.kmemList ≠ 0 := fun h0 =>
        absurd (h.heap.list.nil_iff.mpr h0) (by simp)
      have h₀ : HeapReady k ([] ++ (c :: rest)) pages := h
      obtain ⟨r, hrun, hmeets⟩ := request_meets size h₀ rfl
      refine ⟨r, ?_, by simpa [kmallocAnswer] using hmeets⟩
      have hsettles := hrun.settles
      rw [← hhead] at hsettles
      simpa only [kmalloc, kmallocStart, hpos, ↓reduceIte, Bind.bind,
        Except.bind] using hsettles
  | nil =>
      rcases kmallocStart_empty h with ⟨hnone, hstart⟩ |
          ⟨page, k', hstart, hhead, havail, hmove⟩
      · refine ⟨.error (.panic .noMappedPage), ?_, ?_⟩
        · simp only [kmalloc, hstart, Bind.bind, Except.bind]
          exact settles_const _
        · rw [hnone]
          rfl
      · have hready : HeapReady k' ([] ++ [Chunk.ofPage page])
            (pages ++ [page]) := hmove.ready
        obtain ⟨r, hrun, hmeets⟩ := request_meets size hready rfl
        refine ⟨r, ?_, ?_⟩
        · simp only [kmalloc, hstart, Bind.bind, Except.bind, hhead]
          exact hrun.settles
        · rw [havail]
          exact hmeets.after h hmove

end Request

section Release

variable {addr : Nat}

theorem Holds.stop_lt {c : Chunk} (hrange : c.InRange) (h : c.Holds addr) :
    addr < c.stop := by
  have hbounds := hrange.bounds
  have hlt := h.2.2
  have hle : u32 c.stop ≤ c.stop := Nat.mod_le _ _
  omega

/-- The memory after the block of `c` was freed. -/
def freeMemory (m : Memory) (c : Chunk) : Memory :=
  fill (setStatus m c.base kmemFree) (c.base + 16) c.size 0

variable (addr) in
theorem kmfreeBody_eq {m : Memory} {c : Chunk} (hc : ChunkAt m c)
    (hrange : c.InRange) :
    kmfreeBody addr (m, c.base) =
      if c.Holds addr then .ok (.inr (freeMemory m c))
      else .ok (.inl (m, chunkNext m c.base)) := by
  have hpos : c.base ≠ 0 := Nat.pos_iff_ne_zero.mp hrange.base_pos
  have haddr : chunkAddr (setStatus m c.base kmemFree) c.base = c.payload :=
    (load32_store8_of_disjoint _ _ (by omega)).trans hc.addr
  have hsize : chunkSize (setStatus m c.base kmemFree) c.base = c.size :=
    (load32_store8_of_disjoint _ _ (by omega)).trans hc.size
  have hpay : c.base + 16 = c.payload := rfl
  have hend : c.payload + c.size = c.stop := rfl
  by_cases hused : c.free = false
  · have hstatus := (status_used_iff hc).mpr hused
    simp only [kmfreeBody, hpos, ↓reduceIte, hstatus, ne_eq,
      not_true_eq_false, hc.addr, hc.size, hend, Chunk.Holds, hused, true_and,
      haddr, hsize, memset_eq_fill, freeMemory, hpay]
  · have hstatus : chunkStatus m c.base ≠ kmemUsed := by
      simpa [status_used_iff hc] using hused
    have hnot : ¬ c.Holds addr := fun hholds => hused hholds.1
    simp only [kmfreeBody, hpos, ↓reduceIte, hstatus, ne_eq,
      not_false_eq_true, hnot]

theorem freeMemory_outside {m : Memory} {c : Chunk} {x : Nat}
    (hx : x < c.base ∨ c.base + 16 + c.size ≤ x) :
    freeMemory m c x = m x := by
  simp (disch := omega) only [freeMemory, fill_of_outside, setStatus,
    store8_of_ne]

/-- A block given back. -/
theorem HeapAt.free {m : Memory} {head : Nat} {pre post : List Chunk}
    {c : Chunk} {pages : List Nat}
    (h : HeapAt m head (pre ++ [c] ++ post) pages) :
    HeapAt (freeMemory m c) head (pre ++ [{ c with free := true }] ++ post)
      pages := by
  have hc : ChunkAt m c := h.list.stored c (by simp)
  have hheader : ∀ a, c.base + 4 < a → a + 4 ≤ c.base + 16 →
      load32 (freeMemory m c) a = load32 m a := by
    intro a hlo hhi
    simp (disch := omega) only [freeMemory, load32_fill_of_disjoint, setStatus,
      load32_store8_of_disjoint]
  have hnext : chunkNext (freeMemory m c) c.base = chunkNext m c.base := by
    simp (disch := omega) only [freeMemory, chunkNext, load32_fill_of_disjoint,
      setStatus, load32_store8_of_disjoint]
  refine h.replace (fun x hx => freeMemory_outside (hx c (by simp))) ?_ ?_ ?_
    fun x => rfl
  · rintro p q ⟨rfl, hpos, hq⟩
    exact ⟨rfl, hpos, hnext.trans hq⟩
  · intro d hd
    obtain rfl := List.mem_singleton.mp hd
    refine ⟨?_, (hheader _ (by simp) (by simp)).trans hc.addr,
      (hheader _ (by simp) (by simp)).trans hc.size⟩
    simp (disch := omega) only [freeMemory, chunkStatus, fill_of_outside,
      setStatus, store8_same, ↓reduceIte]
  · intro d hd
    obtain rfl := List.mem_singleton.mp hd
    exact .of_bounds (h.tiling.inRange c (by simp)).bounds

theorem freeMemory_zeroed {m : Memory} {pre post : List Chunk} {c : Chunk}
    {pages : List Nat} (h : Tiling (pre ++ [c] ++ post) pages)
    (hzero : FreeZeroed m (pre ++ [c] ++ post)) :
    FreeZeroed (freeMemory m c) (pre ++ [{ c with free := true }] ++ post) := by
  intro d hd hfree x hx
  have hxd := Chunk.mem_block.mp hx
  have hother : d ∈ pre ++ post → freeMemory m c x = 0 := by
    intro hd'
    have hapart := h.apart_stretch (c := c) (by simp) hd'
    rw [freeMemory_outside (by omega)]
    refine hzero d ?_ hfree x hx
    simp only [List.mem_append] at hd' ⊢
    tauto
  simp only [List.mem_append] at hd
  rcases hd with (hd | hd) | hd
  · exact hother (by simp [hd])
  · obtain rfl := List.mem_singleton.mp hd
    exact fill_of_inside _ _ hxd
  · exact hother (by simp [hd])

variable (addr) in
/-- The walk of `kmfree` from the first chunk of `suf` on. -/
theorem freeBlock_runs {m : Memory} {head : Nat} {pre suf : List Chunk}
    {pages : List Nat} (h : HeapAt m head (pre ++ suf) pages) :
    ∃ m', Runs .spin (fun _ => kmfreeBody addr) (m, headPointer suf) (.ok m') ∧
      HeapAt m' head (pre ++ freeBlock addr suf) pages ∧
      (∀ x, Kept (pre ++ freeBlock addr suf) x → m' x = m x) ∧
      (FreeZeroed m (pre ++ suf) → FreeZeroed m' (pre ++ freeBlock addr suf)) := by
  induction suf generalizing pre with
  | nil =>
      exact ⟨m, Runs.exit (settles_const _), h, fun _ _ => rfl, fun hz => hz⟩
  | cons c post ih =>
      have hlist : pre ++ c :: post = pre ++ [c] ++ post := by simp
      have hhead : headPointer (c :: post) = c.base := rfl
      have hbody := kmfreeBody_eq addr
        (h.list.stored c (by simp)) (h.tiling.inRange c (by simp))
      have hnext : chunkNext m c.base = headPointer post := h.list.next_eq
      rw [freeBlock, hhead]
      rw [hlist] at h ⊢
      by_cases hholds : c.Holds addr
      · rw [if_pos hholds] at hbody
        rw [if_pos hholds]
        have hlist' : pre ++ { c with free := true } :: post =
            pre ++ [{ c with free := true }] ++ post := by simp
        rw [hlist']
        refine ⟨freeMemory m c, Runs.exit ?_, h.free, ?_,
          freeMemory_zeroed h.tiling⟩
        · simp only [hbody]
          exact settles_const _
        · intro x hx
          exact freeMemory_outside
            (hx.outside (c := { c with free := true }) (by simp) rfl)
      · rw [if_neg hholds, hnext] at hbody
        rw [if_neg hholds]
        have hlist' : pre ++ c :: freeBlock addr post =
            pre ++ [c] ++ freeBlock addr post := by simp
        rw [hlist']
        obtain ⟨m', hrun, hrest⟩ := ih h
        refine ⟨m', Runs.next ?_ hrun, hrest⟩
        simp only [hbody]
        exact settles_const _

/-- A call of `kmfree`: bytes the release leaves to the clients are kept. -/
structure HeapFree (k : Kernel) (chunks : List Chunk) (pages : List Nat)
    (addr : Nat) (k' : Kernel) : Prop where
  ready : HeapReady k' (glue (freeBlock addr chunks)) pages
  released : Tiling (freeBlock addr chunks) pages
  kept : ∀ x, Kept (freeBlock addr chunks) x →
    Kept (glue (freeBlock addr chunks)) x ∧ k'.mem x = k.mem x
  zeroed : FreeZeroed k.mem chunks →
    FreeZeroed k'.mem (glue (freeBlock addr chunks))
  same : ∃ m', k' = k.setMem m'

theorem freeBlock_eq_nil_iff {chunks : List Chunk} :
    freeBlock addr chunks = [] ↔ chunks = [] := by
  cases chunks with
  | nil => simp [freeBlock]
  | cons c rest =>
      rw [freeBlock]
      split_ifs <;> simp

/-- `kmfree` always settles, on what `freeBlock` and `glue` say. -/
theorem kmfree_settles {k : Kernel} {chunks : List Chunk} {pages : List Nat}
    (h : HeapReady k chunks pages) (addr : Nat) :
    ∃ k', Settles (fun fuel => kmfree fuel k addr) (.ok k') ∧
      HeapFree k chunks pages addr k' := by
  by_cases hnil : chunks = []
  · subst hnil
    have hhead : k.kmemList = 0 := h.heap.list.head_eq
    refine ⟨k, ?_, h, h.heap.tiling, fun x hx => ⟨hx, rfl⟩, fun hz => hz,
      k.mem, rfl⟩
    simp only [kmfree, hhead, ↓reduceIte]
    exact settles_const _
  · have hpos : k.kmemList ≠ 0 := fun h0 => hnil (h.heap.list.nil_iff.mpr h0)
    have h₀ : HeapAt k.mem k.kmemList ([] ++ chunks) pages := h.heap
    obtain ⟨m₁, hrun, hat₁, hkept₁, hzero₁⟩ := freeBlock_runs addr h₀
    obtain ⟨m₂, hglue, hat₂, hupd₂, _⟩ :=
      chunkGlue_settles hat₁ (by simpa [freeBlock_eq_nil_iff] using hnil)
    refine ⟨k.setMem m₂, ?_, ⟨hat₂, h.supply⟩, hat₁.tiling, ?_, ?_, m₂, rfl⟩
    · have hloop := hrun.settles
      rw [← h.heap.list.head_eq] at hloop
      simp only [kmfree, hpos, ↓reduceIte]
      exact hloop.bind (hglue.bind (settles_const _))
    · intro x hx
      obtain ⟨hx₂, heq₂⟩ := hupd₂.kept x hx rfl
      exact ⟨hx₂, heq₂.trans (hkept₁ x hx)⟩
    · intro hz
      have hout := hupd₂.zeroed _ (hzero₁ hz).zeroOutside (by simp)
      exact hat₂.tiling.freeZeroed
        (usedBytes_eq (usedChunks_glue _)).superset hout

end Release

end Linda
