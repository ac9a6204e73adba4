/-
What a client of the heap may rely on in one call: which blocks it holds
afterwards, that their bytes and the bytes outside the heap are as they were,
and that the memory it is given is zero where the free memory was.
-/
import Linda.HeapHistory

namespace Linda

open ByteMemory IntervalCover FuelLoop

/-- A client holds the block. -/
def Held (chunks : List Chunk) (b : Block) : Prop :=
  headerSize ≤ b.addr ∧ b.chunk ∈ chunks

/-- No byte of the heap's pages. -/
def OffHeap (pages : List Nat) (x : Nat) : Prop :=
  ∀ page ∈ pages, x ∉ pageExtent page

theorem offHeap_iff {pages : List Nat} {x : Nat} :
    OffHeap pages x ↔ coverCount (pages.map pageExtent) x = 0 := by
  constructor
  · intro h
    by_contra hcon
    obtain ⟨I, hI, hxI⟩ := coverCount_pos_iff.mp (Nat.pos_of_ne_zero hcon)
    obtain ⟨page, hpage, rfl⟩ := List.mem_map.mp hI
    exact h page hpage hxI
  · intro h page hpage hx
    have hpos : 0 < coverCount (pages.map pageExtent) x :=
      coverCount_pos_iff.mpr ⟨_, List.mem_map_of_mem hpage, hx⟩
    omega

section Layout

variable {m m' : Memory} {head : Nat} {chunks : List Chunk} {pages : List Nat}

theorem Tiling.kept_offHeap (h : Tiling chunks pages) {x : Nat}
    (hx : OffHeap pages x) : Kept chunks x := by
  intro c hc hin
  have hout := h.outside (offHeap_iff.mp hx) hc
  rw [Chunk.mem_extent] at hin
  omega

/-- The bytes of a chunk are bytes of the heap's pages. -/
theorem Tiling.onHeap (h : Tiling chunks pages) {c : Chunk} (hc : c ∈ chunks)
    {x : Nat} (hx : x ∈ c.extent) : ∃ page ∈ pages, x ∈ pageExtent page := by
  by_contra hcon
  have hoff : OffHeap pages x := fun page hpage hin => hcon ⟨page, hpage, hin⟩
  have hout := h.outside (offHeap_iff.mp hoff) hc
  rw [Chunk.mem_extent] at hx
  omega

theorem Tiling.block_onHeap (h : Tiling chunks pages) {b : Block}
    (hb : Held chunks b) {x : Nat} (hx : x ∈ b.bytes) :
    ∃ page ∈ pages, x ∈ pageExtent page := by
  rw [← Block.chunk_block hb.1, Chunk.mem_block] at hx
  have hin : x ∈ b.chunk.extent := Chunk.mem_extent.mpr (by omega)
  exact h.onHeap hb.2 hin

/-- Writes that meet no header leave the heap as it is. -/
theorem HeapAt.congr (h : HeapAt m head chunks pages)
    (hsame : ∀ c ∈ chunks, SameHeader m m' c) :
    HeapAt m' head chunks pages :=
  ⟨h.list.congr hsame, h.tiling⟩

/-- Writes into a block meet no header. -/
theorem HeapAt.write_block (h : HeapAt m head chunks pages) {b : Block}
    (hb : Held chunks b) (hsame : ∀ x, x ∉ b.bytes → m' x = m x) :
    HeapAt m' head chunks pages := by
  refine h.congr fun c hc x hlo hhi => hsame x fun hin => ?_
  rw [← Block.chunk_block hb.1] at hin
  have hheader := h.tiling.block_header hc hb.2 hin
  omega

/-- Blocks of different clients do not overlap. -/
theorem Tiling.held_disjoint (h : Tiling chunks pages) {b b' : Block}
    (hb : Held chunks b) (hb' : Held chunks b') (hne : b ≠ b') :
    b.bytes.Disjoint b'.bytes := by
  intro x hx hx'
  rw [← Block.chunk_block hb.1] at hx
  rw [← Block.chunk_block hb'.1] at hx'
  have hchunk : b'.chunk ≠ b.chunk := fun heq =>
    hne (Block.chunk_inj hb.1 hb'.1 heq.symm)
  exact h.not_mem_block hb.2 hx hb'.2 hchunk hx'

theorem FreeZeroed.write_block (h : FreeZeroed m chunks)
    (htiling : Tiling chunks pages) {b : Block} (hb : Held chunks b)
    (hsame : ∀ x, x ∉ b.bytes → m' x = m x) : FreeZeroed m' chunks := by
  intro c hc hfree x hx
  have hne : b.chunk ≠ c := by
    rintro rfl
    simp [Block.chunk] at hfree
  have hout := htiling.not_mem_block hc hx hb.2 hne
  rw [Block.chunk_block hb.1] at hout
  rw [hsame x hout]
  exact h c hc hfree x hx

theorem Held.used {b : Block} (h : Held chunks b) :
    b.chunk ∈ usedChunks chunks :=
  mem_usedChunks.mpr ⟨h.2, rfl⟩

end Layout

section Calls

variable {k k' : Kernel} {chunks : List Chunk} {pages : List Nat}

theorem HeapMove.offHeap {chunks' : List Chunk} {fresh : List Nat}
    (h : HeapReady k chunks pages)
    (hmove : HeapMove k chunks pages k' chunks' fresh) {x : Nat}
    (hx : OffHeap (pages ++ fresh) x) : k'.mem x = k.mem x := by
  have hpages : OffHeap pages x := fun page hpage =>
    hx page (List.mem_append_left _ hpage)
  have hfresh : OffHeap fresh x := fun page hpage =>
    hx page (List.mem_append_right _ hpage)
  exact (hmove.update.kept x (h.heap.tiling.kept_offHeap hpages)
    (offHeap_iff.mp hfresh)).2

theorem HeapMove.held_kept {chunks' : List Chunk} {fresh : List Nat}
    (h : HeapReady k chunks pages)
    (hmove : HeapMove k chunks pages k' chunks' fresh) {b : Block}
    (hb : Held chunks b) {x : Nat} (hx : x ∈ b.bytes) :
    k'.mem x = k.mem x := by
  rw [← Block.chunk_block hb.1] at hx
  exact hmove.block_kept h hb.2 rfl hx

/-- A block granted: it is new, and every block held before is still held. -/
structure Granted (k : Kernel) (chunks : List Chunk) (b : Block)
    (k' : Kernel) (chunks' : List Chunk) (fresh : List Nat) : Prop where
  held : Held chunks' b
  others : ∀ b', Held chunks b' → Held chunks' b' ∧ b' ≠ b
  zeroed : FreeZeroed k.mem chunks →
    (∀ page ∈ fresh, ∀ x ∈ pageExtent page, k.mem x = 0) →
      FreeZeroed k'.mem chunks' ∧ ∀ x ∈ b.bytes, k'.mem x = 0

theorem kmalloc_granted {size addr : Nat} (h : HeapReady k chunks pages)
    (hcall : Settles (fun fuel => kmalloc fuel k size) (.ok (addr, k')))
    (hne : addr ≠ 0) :
    ∃ chunks' fresh, HeapMove k chunks pages k' chunks' fresh ∧
      Granted k chunks ⟨addr, size⟩ k' chunks' fresh := by
  obtain ⟨fuel, hfuel⟩ := hcall
  obtain ⟨chunks', fresh, hmove, hcase⟩ := kmalloc_ok h (hfuel fuel le_rfl)
  rcases hcase with ⟨hzero, _⟩ | ⟨_, c, rfl, rfl, hfree, hperm⟩
  · exact absurd hzero hne
  have hchunk : Block.chunk ⟨c.payload, c.size⟩ = c := by
    simp [Block.chunk, Chunk.payload, ← hfree]
  have hpay : headerSize ≤ c.payload := by simp [Chunk.payload, headerSize]
  have hheap := hmove.ready.heap
  have hin : c ∈ chunks' :=
    (mem_usedChunks.mp (hperm.mem_iff.mpr List.mem_cons_self)).1
  have hnodup : (usedChunks chunks').Nodup :=
    (List.Nodup.of_map _ hheap.tiling.bases_nodup).filter _
  have hnew := (List.nodup_cons.mp (hperm.nodup_iff.mp hnodup)).1
  have hsub : ∀ d ∈ usedChunks chunks, d ∈ chunks' ∧ d ≠ c := fun d hd =>
    ⟨(mem_usedChunks.mp (hperm.mem_iff.mpr (List.mem_cons_of_mem c hd))).1,
      fun heq => hnew (heq ▸ hd)⟩
  refine ⟨chunks', fresh, hmove, ⟨⟨hpay, hchunk.symm ▸ hin⟩, ?_, ?_⟩⟩
  · intro b' hb'
    obtain ⟨hin', hne'⟩ := hsub _ hb'.used
    refine ⟨⟨hb'.1, hin'⟩, ?_⟩
    rintro rfl
    exact hne' hchunk
  · intro hzero hfresh
    have hout := hmove.update.zeroed _ hzero.zeroOutside hfresh
    have hmono : usedBytes chunks ⊆ usedBytes chunks' := by
      rintro x ⟨d, hd, hused, hx⟩
      exact ⟨d, (hsub d (mem_usedChunks.mpr ⟨hd, hused⟩)).1, hused, hx⟩
    refine ⟨hheap.tiling.freeZeroed hmono hout, fun x hx => ?_⟩
    have hxc : x ∈ c.block := by
      rw [← hchunk, Block.chunk_block hpay]
      exact hx
    refine hout c hin x hxc ?_
    rintro ⟨d, hd, hused, hxd⟩
    obtain ⟨hd', hdc⟩ := hsub d (mem_usedChunks.mpr ⟨hd, hused⟩)
    exact hheap.tiling.not_mem_block hin hxc hd' hdc hxd

/-- A request refused; what was held is still held. -/
theorem kmalloc_refused {size : Nat} (h : HeapReady k chunks pages)
    (hcall : Settles (fun fuel => kmalloc fuel k size) (.ok (0, k'))) :
    ∃ chunks' fresh, HeapMove k chunks pages k' chunks' fresh ∧
      (∀ b, Held chunks b → Held chunks' b) ∧
      (FreeZeroed k.mem chunks →
        (∀ page ∈ fresh, ∀ x ∈ pageExtent page, k.mem x = 0) →
          FreeZeroed k'.mem chunks') := by
  obtain ⟨fuel, hfuel⟩ := hcall
  obtain ⟨chunks', fresh, hmove, hcase⟩ := kmalloc_ok h (hfuel fuel le_rfl)
  have hused : usedChunks chunks' = usedChunks chunks := by
    rcases hcase with ⟨_, hused⟩ | ⟨hne, _⟩
    · exact hused
    · exact absurd rfl hne
  refine ⟨chunks', fresh, hmove, ?_, fun hzero hfresh => ?_⟩
  · intro b hb
    have hin := hb.used
    rw [← hused] at hin
    exact ⟨hb.1, (mem_usedChunks.mp hin).1⟩
  · have hout := hmove.update.zeroed _ hzero.zeroOutside hfresh
    rw [← usedBytes_eq hused] at hout
    exact hmove.ready.heap.tiling.freeZeroed subset_rfl hout

/-- A block given back; every other block is held as before. -/
structure Released (k : Kernel) (chunks : List Chunk) (pages : List Nat)
    (b : Block) (k' : Kernel) (chunks' : List Chunk) : Prop where
  ready : HeapReady k' chunks' pages
  others : ∀ b', Held chunks b' → b' ≠ b →
    Held chunks' b' ∧ ∀ x ∈ b'.bytes, k'.mem x = k.mem x
  offHeap : ∀ x, OffHeap pages x → k'.mem x = k.mem x
  zeroed : FreeZeroed k.mem chunks → FreeZeroed k'.mem chunks'
  same : ∃ m', k' = k.setMem m'

theorem kmfree_released (h : HeapReady k chunks pages) {b : Block}
    (hb : Held chunks b) (hpos : 0 < b.size) :
    ∃ k' chunks', Settles (fun fuel => kmfree fuel k b.addr) (.ok k') ∧
      Released k chunks pages b k' chunks' := by
  obtain ⟨k', hcall, hfree⟩ := kmfree_settles h b.addr
  refine ⟨k', _, hcall, hfree.ready, ?_, ?_, hfree.zeroed, hfree.same⟩
  · intro b' hb' hne
    -- the address of `b` lies in no other block
    have hnot : ¬ b'.chunk.Holds b.addr := by
      intro hholds
      have hlt := Holds.stop_lt (h.heap.tiling.inRange _ hb'.2) hholds
      have hin' : b.addr ∈ b'.bytes := by
        rw [← Block.chunk_block hb'.1]
        exact ⟨hholds.2.1, hlt⟩
      have hin : b.addr ∈ b.bytes :=
        ⟨le_rfl, show b.addr < b.addr + b.size by omega⟩
      exact h.heap.tiling.held_disjoint hb' hb hne _ hin' hin
    have hused := mem_usedChunks_freeBlock hb'.used hnot
    have hglue := hused
    rw [← usedChunks_glue] at hglue
    refine ⟨⟨hb'.1, (mem_usedChunks.mp hglue).1⟩, fun x hx => ?_⟩
    rw [← Block.chunk_block hb'.1] at hx
    exact (hfree.kept x
      (hfree.released.kept (mem_usedChunks.mp hused).1 rfl hx)).2
  · intro x hx
    exact (hfree.kept x (hfree.released.kept_offHeap hx)).2

end Calls

end Linda
