/-
Histories of the heap: `kmalloc` and `kmfree` in any order, between them the
writes of the clients and the page requests of other code.  The chunks tile
the pages taken so far at every moment, and no call touches a live block.
-/
import Linda.HeapRefinement
import Mathlib.Logic.Relation

namespace Linda

open ByteMemory IntervalCover FuelLoop

/-- A block as its client sees it. -/
structure Block where
  addr : Nat
  size : Nat
deriving Repr, DecidableEq

def Block.bytes (b : Block) : Interval := ⟨b.addr, b.addr + b.size⟩

/-- The chunk behind a block. -/
def Block.chunk (b : Block) : Chunk := ⟨b.addr - headerSize, b.size, false⟩

/-- A moment of a history: the kernel, the pages the heap has obtained from
`kvm_alloc_page`, and the blocks returned and not yet freed. -/
structure HeapRun where
  kernel : Kernel
  pages : List Nat
  live : List Block

/-- The pages that `k` could hand out and `k'` no longer can. -/
def takenPages (k k' : Kernel) : List Nat :=
  (availablePages k.kvmlist).filter fun page =>
    page ∉ availablePages k'.kvmlist

inductive HeapStep : HeapRun → HeapRun → Prop
  | alloc {r : HeapRun} {fuel size addr : Nat} {k' : Kernel}
      (hcall : kmalloc fuel r.kernel size = .ok (addr, k')) :
      HeapStep r ⟨k', r.pages ++ takenPages r.kernel k',
        if addr = 0 then r.live else ⟨addr, size⟩ :: r.live⟩
  | free {r : HeapRun} {fuel addr : Nat} {k' : Kernel}
      (hcall : kmfree fuel r.kernel addr = .ok k') :
      HeapStep r ⟨k', r.pages, r.live.filter fun b => addr ∉ b.bytes⟩
  | write {r : HeapRun} {x : Nat} {byte : UInt8}
      (hx : (∃ b ∈ r.live, x ∈ b.bytes) ∨
        ∀ page ∈ r.pages, x ∉ pageExtent page) :
      HeapStep r ⟨r.kernel.setMem (store8 r.kernel.mem x byte), r.pages, r.live⟩
  | supply {r : HeapRun} {kvmlist' : Nat → VmBlock}
      (hsupply : Supply r.pages (availablePages kvmlist')) :
      HeapStep r ⟨r.kernel.setKvmlist kvmlist', r.pages, r.live⟩

/-- No heap yet, and pages that `kvm_alloc_page` hands out at most once. -/
structure HeapRun.Initial (r : HeapRun) : Prop where
  noList : r.kernel.kmemList = 0
  noPages : r.pages = []
  noBlocks : r.live = []
  supply : Supply [] (availablePages r.kernel.kvmlist)

/-- What clients may rely on at a moment of a history. -/
structure HeapSound (r : HeapRun) : Prop where
  tiled : ∃ chunks, ChunkList r.kernel.mem r.kernel.kmemList chunks ∧
    Tiling chunks r.pages ∧
    (∀ b ∈ r.live, ∃ c ∈ chunks,
      c.free = false ∧ c.payload = b.addr ∧ c.size = b.size) ∧
    ∀ b ∈ r.live, ∀ c ∈ chunks,
      b.bytes.Disjoint ⟨c.base, c.base + headerSize⟩
  apart : r.live.Pairwise fun b b' => b.bytes.Disjoint b'.bytes
  kmallocKeeps : ∀ fuel size addr k',
    kmalloc fuel r.kernel size = .ok (addr, k') →
      ∀ b ∈ r.live, ∀ x ∈ b.bytes, k'.mem x = r.kernel.mem x
  kmfreeKeeps : ∀ fuel addr k', kmfree fuel r.kernel addr = .ok k' →
    ∀ b ∈ r.live, addr ∉ b.bytes → ∀ x ∈ b.bytes, k'.mem x = r.kernel.mem x

/-- The invariant: every live block is a used chunk of its own. -/
structure HeapRun.Valid (r : HeapRun) (chunks : List Chunk) : Prop where
  ready : HeapReady r.kernel chunks r.pages
  held : ∀ b ∈ r.live, headerSize ≤ b.addr ∧ b.chunk ∈ chunks
  nodup : r.live.Nodup

theorem Block.chunk_block {b : Block} (h : headerSize ≤ b.addr) :
    b.chunk.block = b.bytes := by
  have hpay : b.addr - headerSize + headerSize = b.addr := Nat.sub_add_cancel h
  simp only [Block.chunk, Chunk.block, Block.bytes, Chunk.payload, Chunk.stop,
    hpay]

theorem Block.chunk_inj {b b' : Block} (h : headerSize ≤ b.addr)
    (h' : headerSize ≤ b'.addr) (heq : b.chunk = b'.chunk) : b = b' := by
  cases b with
  | mk addr size =>
      cases b' with
      | mk addr' size' =>
          simp only [Block.chunk, Chunk.mk.injEq] at heq h h'
          simp only [Block.mk.injEq]
          omega

section Calls

variable {k k' : Kernel} {chunks : List Chunk} {pages : List Nat}
  {fuel size addr : Nat}

theorem kmallocAnswer_used (size : Nat) (left : List Nat)
    (chunks : List Chunk) :
    match kmallocAnswer size left chunks with
    | .grant chunks' addr _ => Grants size chunks addr chunks'
    | .refuse chunks' _ => usedChunks chunks' = usedChunks chunks
    | _ => True := by
  match chunks, left with
  | [], [] => trivial
  | [], page :: left => exact request_used size left [] [.ofPage page]
  | c :: rest, left => exact request_used size left [] (c :: rest)

/-- A call of `kmalloc` that returns. -/
theorem kmalloc_ok (h : HeapReady k chunks pages)
    (hcall : kmalloc fuel k size = .ok (addr, k')) :
    ∃ chunks' fresh, HeapMove k chunks pages k' chunks' fresh ∧
      (addr = 0 ∧ usedChunks chunks' = usedChunks chunks ∨
        addr ≠ 0 ∧ Grants size chunks addr chunks') := by
  obtain ⟨r, hsettles, hmeets⟩ := kmalloc_settles size h
  have hr : .ok (addr, k') = r :=
    (kmalloc_stable k size).eq_of_settles hcall (by simp) hsettles
  subst hr
  have hused := kmallocAnswer_used size (availablePages k.kvmlist) chunks
  cases hans : kmallocAnswer size (availablePages k.kvmlist) chunks with
  | grant chunks' a left =>
      rw [hans] at hmeets hused
      obtain ⟨k₁, fresh, heq, _, hmove⟩ := hmeets
      simp only [Except.ok.injEq, Prod.mk.injEq] at heq
      obtain ⟨rfl, rfl⟩ := heq
      refine ⟨chunks', fresh, hmove, Or.inr ⟨?_, hused⟩⟩
      obtain ⟨c, rfl, _⟩ := hused
      simp [Chunk.payload, headerSize]
  | refuse chunks' left =>
      rw [hans] at hmeets hused
      obtain ⟨k₁, fresh, heq, _, hmove⟩ := hmeets
      simp only [Except.ok.injEq, Prod.mk.injEq] at heq
      obtain ⟨rfl, rfl⟩ := heq
      exact ⟨chunks', fresh, hmove, Or.inl ⟨rfl, hused⟩⟩
  | gap =>
      rw [hans] at hmeets
      cases hmeets
  | noPage =>
      rw [hans] at hmeets
      cases hmeets

/-- A granted request returns, given fuel. -/
theorem kmalloc_of_grant {chunks' : List Chunk} {left : List Nat}
    (h : HeapReady k chunks pages)
    (hans : kmallocAnswer size (availablePages k.kvmlist) chunks =
      .grant chunks' addr left) :
    ∃ fuel k' fresh, kmalloc fuel k size = .ok (addr, k') ∧
      availablePages k'.kvmlist = left ∧
      HeapMove k chunks pages k' chunks' fresh := by
  obtain ⟨r, ⟨bound, hsettles⟩, hmeets⟩ := kmalloc_settles size h
  rw [hans] at hmeets
  obtain ⟨k', fresh, rfl, hleft, hmove⟩ := hmeets
  exact ⟨bound, k', fresh, hsettles bound le_rfl, hleft, hmove⟩

/-- So does a refused one, with `NULL`. -/
theorem kmalloc_of_refuse {chunks' : List Chunk} {left : List Nat}
    (h : HeapReady k chunks pages)
    (hans : kmallocAnswer size (availablePages k.kvmlist) chunks =
      .refuse chunks' left) :
    ∃ fuel k', kmalloc fuel k size = .ok (0, k') := by
  obtain ⟨r, ⟨bound, hsettles⟩, hmeets⟩ := kmalloc_settles size h
  rw [hans] at hmeets
  obtain ⟨k', fresh, rfl, _⟩ := hmeets
  exact ⟨bound, k', hsettles bound le_rfl⟩

/-- A call of `kmfree` that returns. -/
theorem kmfree_ok (h : HeapReady k chunks pages)
    (hcall : kmfree fuel k addr = .ok k') : HeapFree k chunks pages addr k' := by
  obtain ⟨k₁, hsettles, hfree⟩ := kmfree_settles h addr
  have hk : Except.ok k' = Except.ok k₁ :=
    (kmfree_stable k addr).eq_of_settles hcall (by simp) hsettles
  obtain rfl := Except.ok.inj hk
  exact hfree

theorem HeapMove.takenPages {chunks' : List Chunk} {fresh : List Nat}
    (h : HeapReady k chunks pages)
    (hmove : HeapMove k chunks pages k' chunks' fresh) :
    takenPages k k' = fresh := by
  have hnodup := (List.nodup_append.mp h.supply.nodup).2.1
  rw [hmove.taken, List.nodup_append] at hnodup
  have hfresh : ∀ page ∈ fresh, page ∉ availablePages k'.kvmlist :=
    fun page hpage hin => hnodup.2.2 page hpage page hin rfl
  rw [Linda.takenPages, hmove.taken, List.filter_append,
    List.filter_eq_self.mpr (by simpa using hfresh),
    List.filter_eq_nil_iff.mpr (by simp), List.append_nil]

/-- A byte of a used block keeps its value across a move of the heap. -/
theorem HeapMove.block_kept {chunks' : List Chunk} {fresh : List Nat}
    (h : HeapReady k chunks pages)
    (hmove : HeapMove k chunks pages k' chunks' fresh) {c : Chunk}
    (hc : c ∈ chunks) (hused : c.free = false) {x : Nat} (hx : x ∈ c.block) :
    k'.mem x = k.mem x := by
  refine (hmove.update.kept x (h.heap.tiling.kept hc hused hx) ?_).2
  by_contra hcon
  obtain ⟨I, hI, hxI⟩ := coverCount_pos_iff.mp (Nat.pos_of_ne_zero hcon)
  obtain ⟨page, hpage, rfl⟩ := List.mem_map.mp hI
  have hnone := h.supply.outside (by simp [hmove.taken, hpage]) hxI
  have hout := h.heap.tiling.outside hnone hc
  rw [Chunk.mem_block] at hx
  omega

end Calls

section Steps

variable {r : HeapRun} {chunks : List Chunk}

theorem HeapRun.Valid.block {b : Block} (h : r.Valid chunks)
    (hb : b ∈ r.live) : b.chunk ∈ chunks ∧ b.chunk.block = b.bytes :=
  ⟨(h.held b hb).2, Block.chunk_block (h.held b hb).1⟩

theorem HeapRun.Valid.alloc {fuel size addr : Nat} {k' : Kernel}
    (h : r.Valid chunks) (hcall : kmalloc fuel r.kernel size = .ok (addr, k')) :
    ∃ chunks', HeapRun.Valid ⟨k', r.pages ++ takenPages r.kernel k',
      if addr = 0 then r.live else ⟨addr, size⟩ :: r.live⟩ chunks' := by
  obtain ⟨chunks', fresh, hmove, hcase⟩ := kmalloc_ok h.ready hcall
  have hready := hmove.ready
  rw [← hmove.takenPages h.ready] at hready
  have hused : ∀ b ∈ r.live, b.chunk ∈ usedChunks chunks := fun b hb =>
    mem_usedChunks.mpr ⟨(h.held b hb).2, rfl⟩
  refine ⟨chunks', hready, ?_, ?_⟩
  · rcases hcase with ⟨rfl, hsame⟩ | ⟨hne, c, rfl, rfl, hfree, hperm⟩
    · intro b hb
      have hin := hused b hb
      rw [← hsame] at hin
      exact ⟨(h.held b hb).1, (mem_usedChunks.mp hin).1⟩
    · intro b hb
      rw [if_neg hne, List.mem_cons] at hb
      rcases hb with rfl | hb
      · refine ⟨by simp [Chunk.payload, headerSize], ?_⟩
        have hchunk : Block.chunk ⟨c.payload, c.size⟩ = c := by
          simp [Block.chunk, Chunk.payload, ← hfree]
        rw [hchunk]
        exact (mem_usedChunks.mp (hperm.mem_iff.mpr List.mem_cons_self)).1
      · have hin := hperm.mem_iff.mpr (List.mem_cons_of_mem c (hused b hb))
        exact ⟨(h.held b hb).1, (mem_usedChunks.mp hin).1⟩
  · rcases hcase with ⟨rfl, _⟩ | ⟨hne, c, rfl, rfl, hfree, hperm⟩
    · exact h.nodup
    · rw [if_neg hne, List.nodup_cons]
      refine ⟨fun hin => ?_, h.nodup⟩
      -- the chunk granted was none of the used ones
      have hnodup : (usedChunks chunks').Nodup :=
        (List.Nodup.of_map _ hmove.ready.heap.tiling.bases_nodup).filter _
      have hnot := (List.nodup_cons.mp (hperm.nodup_iff.mp hnodup)).1
      have hchunk : Block.chunk ⟨c.payload, c.size⟩ = c := by
        simp [Block.chunk, Chunk.payload, ← hfree]
      exact hnot (hchunk ▸ hused _ hin)

theorem HeapRun.Valid.free {fuel addr : Nat} {k' : Kernel}
    (h : r.Valid chunks) (hcall : kmfree fuel r.kernel addr = .ok k') :
    HeapRun.Valid ⟨k', r.pages, r.live.filter fun b => addr ∉ b.bytes⟩
      (glue (freeBlock addr chunks)) := by
  have hfree := kmfree_ok h.ready hcall
  refine ⟨hfree.ready, fun b hb => ?_, h.nodup.filter _⟩
  obtain ⟨hb, hout⟩ := List.mem_filter.mp hb
  obtain ⟨hin, hblock⟩ := h.block hb
  have hnot : ¬ b.chunk.Holds addr := fun hholds =>
    absurd hout (by
      have hlt := Holds.stop_lt (h.ready.heap.tiling.inRange _ hin) hholds
      have hmem : addr ∈ b.bytes := hblock ▸ ⟨hholds.2.1, hlt⟩
      simpa using hmem)
  have hused := mem_usedChunks_freeBlock
    (mem_usedChunks.mpr ⟨hin, rfl⟩) hnot
  rw [← usedChunks_glue] at hused
  exact ⟨(h.held b hb).1, (mem_usedChunks.mp hused).1⟩

/-- A write that meets no header leaves the list as it is. -/
theorem ChunkList.congr {m m' : Memory} {head : Nat}
    (h : ChunkList m head chunks) (hsame : ∀ c ∈ chunks, SameHeader m m' c) :
    ChunkList m' head chunks := by
  refine ⟨h.linked.congr fun a ha => ?_, fun c hc =>
    (hsame c hc).chunkAt (h.stored c hc)⟩
  obtain ⟨c, hc, rfl⟩ := List.mem_map.mp ha
  exact (hsame c hc).next

theorem ChunkAt.unique {m : Memory} {c d : Chunk} (hc : ChunkAt m c)
    (hd : ChunkAt m d) (hbase : c.base = d.base) : c = d := by
  have hsize : c.size = d.size := by rw [← hc.size, ← hd.size, hbase]
  have hfree : c.free = true ↔ d.free = true := by
    rw [← status_free_iff hc, ← status_free_iff hd, hbase]
  cases c with
  | mk base size free =>
      cases d with
      | mk base' size' free' =>
          simp only [Chunk.mk.injEq]
          exact ⟨hbase, hsize, Bool.eq_iff_iff.mpr hfree⟩

/-- Memory holds one chunk list. -/
theorem ChunkList.unique {m : Memory} {head : Nat} {l l' : List Chunk}
    (h : ChunkList m head l) (h' : ChunkList m head l') : l = l' := by
  have hbases := h.linked.unique h'.linked
  have hlength : l.length = l'.length := by
    simpa using congrArg List.length hbases
  refine List.ext_getElem hlength fun i hi hi' => ?_
  refine (h.stored _ (List.getElem_mem hi)).unique
    (h'.stored _ (List.getElem_mem hi')) ?_
  have hget := List.getElem_of_eq hbases (i := i) (by simpa using hi)
  simpa using hget

theorem HeapRun.Valid.write {x : Nat} {byte : UInt8} (h : r.Valid chunks)
    (hx : (∃ b ∈ r.live, x ∈ b.bytes) ∨
      ∀ page ∈ r.pages, x ∉ pageExtent page) :
    HeapRun.Valid ⟨r.kernel.setMem (store8 r.kernel.mem x byte), r.pages,
      r.live⟩ chunks := by
  have hheader : ∀ c ∈ chunks, x < c.base ∨ c.base + 16 ≤ x := by
    intro c hc
    rcases hx with ⟨b, hb, hin⟩ | hout
    · obtain ⟨hchunk, hblock⟩ := h.block hb
      exact h.ready.heap.tiling.block_header hc hchunk (hblock ▸ hin)
    · have hnone : coverCount (r.pages.map pageExtent) x = 0 := by
        by_contra hcon
        obtain ⟨I, hI, hxI⟩ := coverCount_pos_iff.mp (Nat.pos_of_ne_zero hcon)
        obtain ⟨page, hpage, rfl⟩ := List.mem_map.mp hI
        exact hout page hpage hxI
      have hcx := h.ready.heap.tiling.outside hnone hc
      omega
  refine ⟨⟨⟨h.ready.heap.list.congr ?_, h.ready.heap.tiling⟩,
    h.ready.supply⟩, h.held, h.nodup⟩
  intro c hc y hlo hhi
  have hcx := hheader c hc
  exact store8_of_ne _ _ (by omega)

theorem HeapRun.Initial.valid (h : r.Initial) : r.Valid [] := by
  refine ⟨⟨⟨⟨h.noList, by simp⟩, ?_⟩, ?_⟩, ?_, ?_⟩
  · rw [h.noPages]
    exact ⟨by simp, fun _ => rfl, by simp⟩
  · rw [h.noPages]
    exact h.supply
  · simp [h.noBlocks]
  · simp [h.noBlocks]

theorem HeapRun.Valid.step {r' : HeapRun} (h : r.Valid chunks)
    (hstep : HeapStep r r') : ∃ chunks', r'.Valid chunks' := by
  cases hstep with
  | alloc hcall => exact h.alloc hcall
  | free hcall => exact ⟨_, h.free hcall⟩
  | write hx => exact ⟨_, h.write hx⟩
  | supply hsupply =>
      exact ⟨chunks, ⟨h.ready.heap, hsupply⟩, h.held, h.nodup⟩

/-- The invariant holds at every moment of every history. -/
theorem HeapRun.valid_of_run {r₀ r : HeapRun} (hstart : r₀.Initial)
    (hrun : Relation.ReflTransGen HeapStep r₀ r) :
    ∃ chunks, r.Valid chunks := by
  induction hrun with
  | refl => exact ⟨[], hstart.valid⟩
  | tail _ hstep ih =>
      obtain ⟨chunks, hvalid⟩ := ih
      exact hvalid.step hstep

theorem HeapRun.Valid.apart (h : r.Valid chunks) :
    r.live.Pairwise fun b b' => b.bytes.Disjoint b'.bytes := by
  refine h.nodup.imp_of_mem fun {b b'} hb hb' hne x hx hx' => ?_
  obtain ⟨hin, hblock⟩ := h.block hb
  obtain ⟨hin', hblock'⟩ := h.block hb'
  rw [← hblock, Chunk.mem_block] at hx
  rw [← hblock', Chunk.mem_block] at hx'
  rcases h.ready.heap.tiling.eq_or_apart hin hin' with heq | hapart
  · exact hne (Block.chunk_inj (h.held b hb).1 (h.held b' hb').1 heq.symm)
  · omega

theorem HeapRun.Valid.sound (h : r.Valid chunks) : HeapSound r where
  tiled := by
    refine ⟨chunks, h.ready.heap.list, h.ready.heap.tiling, ?_, ?_⟩
    · intro b hb
      exact ⟨b.chunk, (h.held b hb).2, rfl, Nat.sub_add_cancel (h.held b hb).1,
        rfl⟩
    · intro b hb c hc x hx hheader
      obtain ⟨hin, hblock⟩ := h.block hb
      have hout := h.ready.heap.tiling.block_header hc hin (hblock ▸ hx)
      rw [Interval.mem_iff] at hheader
      simp only [headerSize] at hheader
      omega
  apart := h.apart
  kmallocKeeps fuel size addr k' hcall b hb x hx := by
    obtain ⟨chunks', fresh, hmove, _⟩ := kmalloc_ok h.ready hcall
    obtain ⟨hin, hblock⟩ := h.block hb
    exact hmove.block_kept h.ready hin rfl (hblock ▸ hx)
  kmfreeKeeps fuel addr k' hcall b hb hout x hx := by
    have hfree := kmfree_ok h.ready hcall
    obtain ⟨hin, hblock⟩ := h.block hb
    have hnot : ¬ b.chunk.Holds addr := fun hholds => hout (hblock ▸
      ⟨hholds.2.1, Holds.stop_lt (h.ready.heap.tiling.inRange _ hin) hholds⟩)
    have hused := mem_usedChunks.mp
      (mem_usedChunks_freeBlock (mem_usedChunks.mpr ⟨hin, rfl⟩) hnot)
    exact (hfree.kept x (hfree.released.kept hused.1 hused.2
      (hblock ▸ hx))).2

end Steps

/-- At every moment of every history the chunks tile the heap's pages and the
live blocks are apart from each other, from every header and from what the
next call changes. -/
theorem heapSound_of_run {r₀ r : HeapRun} (hstart : r₀.Initial)
    (hrun : Relation.ReflTransGen HeapStep r₀ r) : HeapSound r := by
  obtain ⟨chunks, hvalid⟩ := HeapRun.valid_of_run hstart hrun
  exact hvalid.sound

/-- Every page mapped, none used. -/
def openKernel : Kernel where
  mem := fun _ => 0
  kmemList := 0
  kvmlist := fun i => ⟨kernBase + i * pgSize, vmMapped⟩
  memMap := .zeroed fun _ => 0
  mmaplist := 0
  cr3 := 0
  curproc := none

theorem Supply.of_address {kvmlist : Nat → VmBlock}
    (haddr : ∀ i < nvmBlocks, (kvmlist i).address = kernBase + i * pgSize) :
    Supply [] (availablePages kvmlist) := by
  constructor
  · rw [List.nil_append]
    exact availablePages_nodup haddr
  intro page hpage
  rw [List.nil_append] at hpage
  obtain ⟨i, hi, _, rfl⟩ := mem_availablePages.mp hpage
  rw [haddr i hi]
  simp only [nvmBlocks] at hi
  simp only [kernBase, pgSize]
  exact ⟨by omega, by omega, by omega⟩

theorem openKernel_initial : HeapRun.Initial ⟨openKernel, [], []⟩ :=
  ⟨rfl, rfl, rfl, Supply.of_address fun _ _ => rfl⟩

theorem openKernel_pages : ∃ left, availablePages openKernel.kvmlist =
    kernBase :: (kernBase + pgSize) :: left := by
  refine ⟨_, (availablePages_use (i := 0) (by decide) rfl (by omega)).trans
    (congrArg _ (availablePages_use (i := 1) (by decide) rfl ?_))⟩
  intro j hj
  obtain rfl : j = 0 := by omega
  rfl

/-- A block of 100 bytes and what is left of its page. -/
def oneBlock : List Chunk :=
  [⟨kernBase, 100, false⟩, ⟨kernBase + 116, 3964, true⟩]

/-- `kmalloc(100)` on a fresh heap. -/
theorem oneBlock_reached : ∃ k pages,
    HeapStep ⟨openKernel, [], []⟩ ⟨k, pages, [⟨kernBase + 16, 100⟩]⟩ ∧
      HeapRun.Valid ⟨k, pages, [⟨kernBase + 16, 100⟩]⟩ oneBlock ∧
        ∃ left, availablePages k.kvmlist = (kernBase + pgSize) :: left := by
  obtain ⟨left, hleft⟩ := openKernel_pages
  have hgrant : kmallocAnswer 100 (availablePages openKernel.kvmlist) [] =
      .grant oneBlock (kernBase + 16) ((kernBase + pgSize) :: left) := by
    rw [hleft]
    rfl
  obtain ⟨fuel, k, fresh, hcall, havail, hmove⟩ :=
    kmalloc_of_grant openKernel_initial.valid.ready hgrant
  obtain ⟨chunks, hvalid⟩ := openKernel_initial.valid.alloc hcall
  obtain rfl : oneBlock = chunks :=
    hmove.ready.heap.list.unique hvalid.ready.heap.list
  exact ⟨k, _, .alloc hcall, hvalid, left, havail⟩

/-- One allocation of 100 bytes. -/
theorem heapSound_of_alloc : ∃ r : HeapRun,
    r.live = [⟨kernBase + 16, 100⟩] ∧ HeapSound r := by
  obtain ⟨k, pages, hstep, -⟩ := oneBlock_reached
  exact ⟨_, rfl, heapSound_of_run openKernel_initial (.single hstep)⟩

/-- Two blocks of 100 bytes and what is left of the page behind them. -/
def twoBlocks : List Chunk :=
  [⟨kernBase, 100, false⟩, ⟨kernBase + 116, 100, false⟩,
    ⟨kernBase + 232, 3848, true⟩]

/-- `kmalloc(100)` again. -/
theorem twoBlocks_reached : ∃ k pages, HeapReady k twoBlocks pages ∧
    (∃ left, availablePages k.kvmlist = (kernBase + pgSize) :: left) ∧
      Relation.ReflTransGen HeapStep ⟨openKernel, [], []⟩
        ⟨k, pages, [⟨kernBase + 132, 100⟩, ⟨kernBase + 16, 100⟩]⟩ := by
  obtain ⟨k₁, pages, hstep, hvalid, left, havail₁⟩ := oneBlock_reached
  have hgrant : kmallocAnswer 100 (availablePages k₁.kvmlist) oneBlock =
      .grant twoBlocks (kernBase + 132) ((kernBase + pgSize) :: left) := by
    rw [havail₁]
    rfl
  obtain ⟨fuel, k₂, fresh, hcall, havail₂, hmove⟩ :=
    kmalloc_of_grant hvalid.ready hgrant
  have hrun := (Relation.ReflTransGen.single hstep).tail (HeapStep.alloc hcall)
  rw [hmove.takenPages hvalid.ready] at hrun
  exact ⟨k₂, _, hmove.ready, ⟨left, havail₂⟩, hrun⟩

/-- The two blocks given back, first to last: one chunk, and the rest of the
page still apart from it. -/
def twoFreed : List Chunk :=
  [⟨kernBase, 216, true⟩, ⟨kernBase + 232, 3848, true⟩]

theorem twoFreed_reached : ∃ k pages, HeapReady k twoFreed pages ∧
    (∃ left, availablePages k.kvmlist = (kernBase + pgSize) :: left) ∧
      Relation.ReflTransGen HeapStep ⟨openKernel, [], []⟩ ⟨k, pages, []⟩ := by
  obtain ⟨k, pages, hready, havail, hrun⟩ := twoBlocks_reached
  obtain ⟨k₁, ⟨bound₁, hcall₁⟩, hfree₁⟩ := kmfree_settles hready (kernBase + 16)
  obtain ⟨k₂, ⟨bound₂, hcall₂⟩, hfree₂⟩ :=
    kmfree_settles hfree₁.ready (kernBase + 132)
  have hrun₂ := (hrun.tail (HeapStep.free (hcall₁ bound₁ le_rfl))).tail
    (HeapStep.free (hcall₂ bound₂ le_rfl))
  obtain ⟨m₁, rfl⟩ := hfree₁.same
  obtain ⟨m₂, rfl⟩ := hfree₂.same
  exact ⟨_, pages, hfree₂.ready, havail, hrun₂⟩

end Linda
