/-
The list of mappings in memory: nodes of 16 bytes from the heap, linked at
offset 12, and the paging state that a call of mmap.c starts from and leaves.
-/
import Linda.PageForest

namespace Linda

open ByteMemory IntervalCover LinkedSegment FuelLoop

def nodeNext (m : Memory) (n : Nat) : Nat := load32 m (n + 12)

/-- The page and the frame of the mapping a node stands for. -/
def nodeEntry (m : Memory) (n : Nat) : Nat × Nat :=
  (load32 m n &&& pgMask, load32 m (n + 4) &&& pgMask)

def nodeBlock (n : Nat) : Block := ⟨n, mmapBlockSize⟩

theorem nodeBlock_pos (n : Nat) : 0 < (nodeBlock n).size :=
  show 0 < mmapBlockSize by decide

/-- The list behind `mmaplist`; its nodes are held blocks of the heap. -/
structure NodeList (m : Memory) (head : Nat) (chunks : List Chunk)
    (nodes : List Nat) : Prop where
  linked : Segment 0 (nodeNext m) head nodes 0
  held : ∀ n ∈ nodes, Held chunks (nodeBlock n)
  inUse : ∀ n ∈ nodes, m (n + 8) ≠ 0
  nodup : nodes.Nodup

/-- What a paging state consists of. -/
structure Paging where
  roots : List Nat
  tables : List Nat
  chunks : List Chunk
  pages : List Nat
  nodes : List Nat

namespace Paging

/-- The pages that hold directories and tables. -/
def fixed (s : Paging) : List Nat := s.roots ++ s.tables

/-- Another heap under the same directories and tables. -/
def withHeap (s : Paging) (chunks : List Chunk) (pages nodes : List Nat) :
    Paging :=
  { s with chunks := chunks, pages := pages, nodes := nodes }

end Paging

/-- The heap and the uses of pages are what `s` says. -/
structure Pooled (k : Kernel) (s : Paging) : Prop where
  heap : HeapAt k.mem k.kmemList s.chunks s.pages
  pool : PagePool s.fixed s.pages (availablePages k.kvmlist)

/-- `s` describes the paging state of the kernel `k`. -/
structure PagingAt (k : Kernel) (s : Paging) : Prop extends Pooled k s where
  forest : Forest k.mem s.roots s.tables
  list : NodeList k.mem k.mmaplist s.chunks s.nodes

/-- Free memory is zero: the free blocks of the heap and the unused pages. -/
def Zeroed (k : Kernel) (chunks : List Chunk) : Prop :=
  FreeZeroed k.mem chunks ∧
    ∀ page ∈ availablePages k.kvmlist, ∀ x ∈ pageExtent page, k.mem x = 0

/-- Bytes of the direct map. -/
def Direct (a n : Nat) : Prop := kernBase ≤ a ∧ a + n ≤ kernBase + memNormal

section Access

variable {k : Kernel} {a n : Nat}

theorem Direct.bounds (h : Direct a n) :
    3221225472 ≤ a ∧ a + n ≤ 4160749568 := by
  obtain ⟨hlo, hhi⟩ := h
  simp only [kernBase, memNormal] at hlo hhi
  exact ⟨hlo, hhi⟩

theorem resolve_direct (h : Direct a 1) (k : Kernel) :
    resolve k (u32 a) = some a := by
  obtain ⟨hlo, hhi⟩ := h.bounds
  have hu : u32 a = a := u32_of_lt (by omega)
  rw [hu, resolve, if_pos ⟨h.1, by have := h.2; omega⟩]

theorem Direct.byte (h : Direct a n) (i : Nat) (hi : i < n) :
    Direct (a + i) 1 := by
  obtain ⟨hlo, hhi⟩ := h
  exact ⟨by omega, by omega⟩

theorem loadByte_direct (h : Direct a 1) (k : Kernel) :
    loadByte k (u32 a) = .ok (k.mem a) := by
  rw [loadByte, resolve_direct h]

theorem storeByte_direct (h : Direct a 1) (k : Kernel) (b : UInt8) :
    storeByte k (u32 a) b = .ok (k.setMem (store8 k.mem a b)) := by
  rw [storeByte, resolve_direct h]

theorem loadWord_direct (h : Direct a 4) (k : Kernel) :
    loadWord k a = .ok (load32 k.mem a) := by
  have h₀ := loadByte_direct (h.byte 0 (by omega)) k
  have h₁ := loadByte_direct (h.byte 1 (by omega)) k
  have h₂ := loadByte_direct (h.byte 2 (by omega)) k
  have h₃ := loadByte_direct (h.byte 3 (by omega)) k
  rw [Nat.add_zero] at h₀
  simp only [loadWord, h₀, h₁, h₂, h₃, Bind.bind, Except.bind, load32]

/-- A word is stored byte by byte, lowest first. -/
theorem store32_eq_store8 (m : Memory) (a v : Nat) :
    store32 m a v = store8 (store8 (store8 (store8 m a (UInt8.ofNat v))
      (a + 1) (UInt8.ofNat (v / 256))) (a + 2) (UInt8.ofNat (v / 65536)))
      (a + 3) (UInt8.ofNat (v / 16777216)) := by
  funext x
  simp only [store32, store8]
  split_ifs <;> first | rfl | omega

theorem storeWord_direct (h : Direct a 4) (k : Kernel) (v : Nat) :
    storeWord k a v = .ok (k.setMem (store32 k.mem a v)) := by
  have h₀ := storeByte_direct (h.byte 0 (by omega))
  have h₁ := storeByte_direct (h.byte 1 (by omega))
  have h₂ := storeByte_direct (h.byte 2 (by omega))
  have h₃ := storeByte_direct (h.byte 3 (by omega))
  rw [Nat.add_zero] at h₀
  simp only [storeWord, h₀, h₁, h₂, h₃, Bind.bind, Except.bind,
    Kernel.setMem_mem, Kernel.setMem_setMem, store32_eq_store8]

theorem Direct.word (h : Direct a n) (off : Nat) (hoff : off + 4 ≤ n) :
    Direct (a + off) 4 := by
  obtain ⟨hlo, hhi⟩ := h
  exact ⟨by omega, by omega⟩

theorem Direct.first (h : Direct a n) (hn : 4 ≤ n) : Direct a 4 :=
  h.word 0 (by omega)

theorem Direct.ne_zero (h : Direct a n) : a ≠ 0 := by
  have hlo := h.bounds.1
  omega

theorem KernelPage.whole {page : Nat} (h : KernelPage page) :
    Direct page 4096 := by
  obtain ⟨_, hlo, hhi⟩ := h.bounds
  simp only [Direct, kernBase, memNormal]
  omega

theorem KernelPage.direct {page i : Nat} (h : KernelPage page)
    (hi : i < 1024) : Direct (page + 4 * i) 4 := by
  obtain ⟨_, hlo, hhi⟩ := h.bounds
  simp only [Direct, kernBase, memNormal]
  omega

end Access

/-- `m'` shows the bytes of the node as `m` does. -/
def SameNode (m m' : Memory) (n : Nat) : Prop :=
  ∀ x ∈ (nodeBlock n).bytes, m' x = m x

theorem mem_nodeBlock {n x : Nat} :
    x ∈ (nodeBlock n).bytes ↔ n ≤ x ∧ x < n + 16 := Iff.rfl

namespace SameNode

variable {m m' m'' : Memory} {n : Nat}

theorem trans (h : SameNode m m' n) (h' : SameNode m' m'' n) :
    SameNode m m'' n := fun x hx => (h' x hx).trans (h x hx)

theorem word (h : SameNode m m' n) {off : Nat} (hoff : off + 4 ≤ 16) :
    load32 m' (n + off) = load32 m (n + off) :=
  load32_congr fun x _ _ => h x (mem_nodeBlock.mpr (by omega))

theorem next (h : SameNode m m' n) : nodeNext m' n = nodeNext m n :=
  h.word (by omega)

theorem entry (h : SameNode m m' n) : nodeEntry m' n = nodeEntry m n := by
  have hvirt := h.word (show 0 + 4 ≤ 16 by omega)
  have hphys := h.word (show 4 + 4 ≤ 16 by omega)
  rw [Nat.add_zero] at hvirt
  rw [nodeEntry, nodeEntry, hvirt, hphys]

theorem inUse (h : SameNode m m' n) : m' (n + 8) = m (n + 8) :=
  h _ (mem_nodeBlock.mpr (by omega))

end SameNode

theorem NodeList.head_eq {m : Memory} {head : Nat} {chunks : List Chunk}
    {nodes : List Nat} (h : NodeList m head chunks nodes) :
    head = nodes.headD 0 := by
  cases nodes with
  | nil => exact h.linked
  | cons n rest => exact h.linked.1

theorem NodeList.next_eq {m : Memory} {head n : Nat} {chunks : List Chunk}
    {pre post : List Nat} (h : NodeList m head chunks (pre ++ n :: post)) :
    nodeNext m n = post.headD 0 := by
  have hlinked := h.linked
  rw [segment_middle] at hlinked
  cases post with
  | nil => exact hlinked.2.2
  | cons d rest => exact hlinked.2.2.1

namespace Pooled

variable {k : Kernel} {s : Paging}

theorem ready (h : Pooled k s) : HeapReady k s.chunks s.pages :=
  ⟨h.heap, h.pool.supply⟩

/-- Held blocks lie in the direct map, behind its first page. -/
theorem block_bounds (h : Pooled k s) {b : Block} (hb : Held s.chunks b)
    (hpos : 0 < b.size) :
    kernBase + pgSize ≤ b.addr ∧ b.addr + b.size ≤ kernBase + memNormal := by
  have hkernel : ∀ page ∈ s.pages, KernelPage page := fun page hpage =>
    h.pool.kernel page (by simp [hpage])
  have hfirst : b.addr ∈ b.bytes :=
    ⟨le_rfl, show b.addr < b.addr + b.size by omega⟩
  have hlast : b.addr + b.size - 1 ∈ b.bytes :=
    ⟨show b.addr ≤ b.addr + b.size - 1 by omega,
      show b.addr + b.size - 1 < b.addr + b.size by omega⟩
  obtain ⟨p, hp, hlo⟩ := h.heap.tiling.block_onHeap hb hfirst
  obtain ⟨q, hq, hhi⟩ := h.heap.tiling.block_onHeap hb hlast
  have hpb := (hkernel p hp).lo
  have hqb := (hkernel q hq).hi
  rw [pageExtent_iff] at hlo hhi
  simp only [pgSize] at hpb hqb ⊢
  omega

theorem block_direct (h : Pooled k s) {n : Nat}
    (hn : Held s.chunks (nodeBlock n)) : Direct n 16 := by
  obtain ⟨hlo, hhi⟩ := h.block_bounds hn (nodeBlock_pos n)
  have hlo' : kernBase + pgSize ≤ n := hlo
  exact ⟨by omega, hhi⟩

/-- The bytes of a paging page are in no block. -/
theorem fixed_not_block (h : Pooled k s) {page : Nat} (hpage : page ∈ s.fixed)
    {x : Nat} (hx : x ∈ pageExtent page) {b : Block} (hb : Held s.chunks b) :
    x ∉ b.bytes := by
  intro hin
  obtain ⟨q, hq, hxq⟩ := h.heap.tiling.block_onHeap hb hin
  exact h.pool.offHeap hpage hx q (List.mem_append_left _ hq) hxq

/-- The bytes of an unused page are in no block either. -/
theorem fresh_not_block (h : Pooled k s) {page : Nat}
    (hpage : page ∈ availablePages k.kvmlist) {x : Nat}
    (hx : x ∈ pageExtent page) {b : Block} (hb : Held s.chunks b) :
    x ∉ b.bytes := by
  intro hin
  obtain ⟨q, hq, hxq⟩ := h.heap.tiling.block_onHeap hb hin
  exact h.pool.fresh_offHeap hpage hx q hq hxq

end Pooled

namespace PagingAt

variable {k : Kernel} {s : Paging} {d n : Nat}

theorem root_page (h : PagingAt k s) (hd : d ∈ s.roots) : KernelPage d :=
  h.pool.fixed_page (List.mem_append_left _ hd)

theorem table_page (h : PagingAt k s) (hd : d ∈ s.tables) : KernelPage d :=
  h.pool.fixed_page (List.mem_append_right _ hd)

theorem node_direct (h : PagingAt k s) (hn : n ∈ s.nodes) : Direct n 16 :=
  h.block_direct (h.list.held n hn)

/-- Nodes of the list do not overlap. -/
theorem node_disjoint (h : PagingAt k s) {n' : Nat} (hn : n ∈ s.nodes)
    (hn' : n' ∈ s.nodes) (hne : n ≠ n') {x : Nat}
    (hx : x ∈ (nodeBlock n).bytes) : x ∉ (nodeBlock n').bytes := by
  refine h.heap.tiling.held_disjoint (h.list.held n hn) (h.list.held n' hn')
    ?_ x hx
  intro heq
  exact hne (congrArg Block.addr heq)

end PagingAt

/-- What a call of mmap.c leaves alone besides memory and the two lists. -/
structure SameMachine (k k' : Kernel) : Prop where
  mapped : SameMapped k.kvmlist k'.kvmlist
  memMap : k'.memMap = k.memMap
  cr3 : k'.cr3 = k.cr3
  curproc : k'.curproc = k.curproc

theorem SameMachine.refl (k : Kernel) : SameMachine k k :=
  ⟨.refl _, rfl, rfl, rfl⟩

theorem SameMachine.trans {k₁ k₂ k₃ : Kernel} (h₁ : SameMachine k₁ k₂)
    (h₂ : SameMachine k₂ k₃) : SameMachine k₁ k₃ :=
  ⟨h₁.mapped.trans h₂.mapped, h₂.memMap.trans h₁.memMap, h₂.cr3.trans h₁.cr3,
    h₂.curproc.trans h₁.curproc⟩

section PageWrites

variable {m m' : Memory} {head t j v : Nat} {chunks : List Chunk}
  {pages nodes : List Nat}

/-- The heap is in its pages. -/
theorem HeapAt.congr_pages (h : HeapAt m head chunks pages)
    (hsame : SamePages m m' pages) : HeapAt m' head chunks pages := by
  refine h.congr fun c hc x hlo hhi => ?_
  obtain ⟨page, hpage, hx⟩ := h.tiling.onHeap hc
    (Chunk.mem_extent.mpr (show c.base ≤ x ∧ x < c.base + 16 + c.size by omega))
  exact hsame page hpage x hx

theorem FreeZeroed.congr_pages (h : FreeZeroed m chunks)
    (htiling : Tiling chunks pages) (hsame : SamePages m m' pages) :
    FreeZeroed m' chunks := by
  intro c hc hfree x hx
  rw [Chunk.mem_block] at hx
  obtain ⟨page, hpage, hin⟩ := htiling.onHeap hc
    (Chunk.mem_extent.mpr (show c.base ≤ x ∧ x < c.base + 16 + c.size by omega))
  rw [hsame page hpage x hin]
  exact h c hc hfree x (Chunk.mem_block.mpr hx)

/-- So are the nodes of the list. -/
theorem NodeList.sameNode (h : NodeList m head chunks nodes)
    (htiling : Tiling chunks pages) (hsame : SamePages m m' pages) :
    ∀ n ∈ nodes, SameNode m m' n := by
  intro n hn x hx
  obtain ⟨page, hpage, hin⟩ := htiling.block_onHeap (h.held n hn) hx
  exact hsame page hpage x hin

theorem NodeList.congr (h : NodeList m head chunks nodes)
    (hsame : ∀ n ∈ nodes, SameNode m m' n) : NodeList m' head chunks nodes where
  linked := h.linked.congr fun n hn => (hsame n hn).next
  held := h.held
  inUse n hn := by
    rw [(hsame n hn).inUse]
    exact h.inUse n hn
  nodup := h.nodup

/-- An entry lies inside its page. -/
theorem SamePages.setEntry (ht : KernelPage t) (hj : j < 1024)
    (hpages : ∀ page ∈ pages, KernelPage page ∧ page ≠ t) :
    SamePages m (setEntry m t j v) pages := by
  intro page hpage x hx
  obtain ⟨hkernel, hne⟩ := hpages page hpage
  have hout := hkernel.apart ht hne x hx
  rw [pageExtent_iff] at hout
  exact store32_of_outside _ _ (by omega)

theorem SamePages.fill (ht : KernelPage t)
    (hpages : ∀ page ∈ pages, KernelPage page ∧ page ≠ t) :
    SamePages m (fill m t 4096 0) pages := by
  intro page hpage x hx
  obtain ⟨hkernel, hne⟩ := hpages page hpage
  have hout := hkernel.apart ht hne x hx
  rw [pageExtent_iff] at hout
  exact fill_of_outside _ _ (by omega)

end PageWrites

/-- The heap went on from `s` to `s'`; the paging pages stayed as they were,
and free memory zero if it was. -/
structure Beside (k : Kernel) (s : Paging) (k' : Kernel) (s' : Paging) :
    Prop where
  pooled : Pooled k' s'
  roots : s'.roots = s.roots
  tables : s'.tables = s.tables
  same : SamePages k.mem k'.mem s.fixed
  zeroed : Zeroed k s.chunks → Zeroed k' s'.chunks
  machine : SameMachine k k'

namespace Beside

variable {k k₁ k₂ : Kernel} {s s₁ s₂ : Paging}

theorem fixed (h : Beside k s k₁ s₁) : s₁.fixed = s.fixed := by
  rw [Paging.fixed, Paging.fixed, h.roots, h.tables]

theorem trans (h₁ : Beside k s k₁ s₁) (h₂ : Beside k₁ s₁ k₂ s₂) :
    Beside k s k₂ s₂ where
  pooled := h₂.pooled
  roots := h₂.roots.trans h₁.roots
  tables := h₂.tables.trans h₁.tables
  same := h₁.same.trans (h₁.fixed ▸ h₂.same)
  zeroed hz := h₂.zeroed (h₁.zeroed hz)
  machine := h₁.machine.trans h₂.machine

/-- The head of the list is not in memory. -/
theorem head (h : Pooled k s) (map : Nat) :
    Beside k s { k with mmaplist := map } s :=
  ⟨⟨h.heap, h.pool⟩, rfl, rfl, .refl _ _, fun hz => hz,
    ⟨.refl _, rfl, rfl, rfl⟩⟩

/-- A write into a held block. -/
theorem write (h : Pooled k s) {b : Block} (hb : Held s.chunks b)
    {m' : Memory} (hsame : ∀ x, x ∉ b.bytes → m' x = k.mem x) :
    Beside k s (k.setMem m') s where
  pooled := ⟨h.heap.write_block hb hsame, h.pool⟩
  roots := rfl
  tables := rfl
  same page hpage x hx := hsame x (h.fixed_not_block hpage hx hb)
  zeroed hz := ⟨hz.1.write_block h.heap.tiling hb hsame,
    fun page hpage x hx => by
      rw [Kernel.setMem_mem, hsame x (h.fresh_not_block hpage hx hb)]
      exact hz.2 page hpage x hx⟩
  machine := ⟨.refl _, rfl, rfl, rfl⟩

/-- A block given back. -/
theorem release (h : Pooled k s) {b : Block} (hb : Held s.chunks b)
    (hpos : 0 < b.size) :
    ∃ k' chunks', Settles (fun fuel => kmfree fuel k b.addr) (.ok k') ∧
      Released k s.chunks s.pages b k' chunks' ∧
      ∀ nodes, Beside k s k' (s.withHeap chunks' s.pages nodes) := by
  obtain ⟨k', chunks', hcall, hfree⟩ := kmfree_released h.ready hb hpos
  obtain ⟨m', rfl⟩ := hfree.same
  refine ⟨_, chunks', hcall, hfree, fun nodes =>
    ⟨⟨hfree.ready.heap, h.pool⟩, rfl, rfl, ?_, fun hz => ⟨hfree.zeroed hz.1, ?_⟩,
      ⟨.refl _, rfl, rfl, rfl⟩⟩⟩
  · intro page hpage x hx
    refine hfree.offHeap x fun q hq => ?_
    exact h.pool.offHeap hpage hx q (List.mem_append_left _ hq)
  · intro page hpage x hx
    rw [hfree.offHeap x (h.pool.fresh_offHeap hpage hx)]
    exact hz.2 page hpage x hx

/-- The heap took pages. -/
theorem ofMove (h : Pooled k s) {k' : Kernel} {chunks' : List Chunk}
    {fresh : List Nat} (hmove : HeapMove k s.chunks s.pages k' chunks' fresh)
    (hzeroed : FreeZeroed k.mem s.chunks →
      (∀ page ∈ fresh, ∀ x ∈ pageExtent page, k.mem x = 0) →
        FreeZeroed k'.mem chunks') (nodes : List Nat) :
    Beside k s k' (s.withHeap chunks' (s.pages ++ fresh) nodes) := by
  have hpool := h.pool
  rw [hmove.taken] at hpool
  refine ⟨⟨hmove.ready.heap, hpool.toHeap⟩, rfl, rfl, ?_, fun hz => ?_,
    ⟨hmove.mapped, hmove.memMap, hmove.cr3, hmove.curproc⟩⟩
  · intro page hpage x hx
    refine hmove.offHeap h.ready fun q hq => hpool.offHeap hpage hx q ?_
    simp only [List.mem_append] at hq ⊢
    tauto
  · obtain ⟨hfree, hpages⟩ := hz
    rw [hmove.taken] at hpages
    have hfresh : ∀ page ∈ fresh, ∀ x ∈ pageExtent page, k.mem x = 0 :=
      fun page hpage => hpages page (List.mem_append_left _ hpage)
    refine ⟨hzeroed hfree hfresh, fun page hpage x hx => ?_⟩
    rw [hmove.offHeap h.ready (hpool.toHeap.fresh_offHeap hpage hx)]
    exact hpages page (List.mem_append_right _ hpage) x hx

/-- A block obtained. -/
theorem alloc (h : Pooled k s) {size addr : Nat} {k' : Kernel}
    (hcall : Settles (fun fuel => kmalloc fuel k size) (.ok (addr, k')))
    (hne : addr ≠ 0) :
    ∃ chunks' fresh, HeapMove k s.chunks s.pages k' chunks' fresh ∧
      Granted k s.chunks ⟨addr, size⟩ k' chunks' fresh ∧
      ∀ nodes, Beside k s k' (s.withHeap chunks' (s.pages ++ fresh) nodes) := by
  obtain ⟨chunks', fresh, hmove, hgrant⟩ := kmalloc_granted h.ready hcall hne
  exact ⟨chunks', fresh, hmove, hgrant, ofMove h hmove fun hfree hfresh =>
    (hgrant.zeroed hfree hfresh).1⟩

/-- A block refused: the nodes are where they were. -/
theorem refused (h : PagingAt k s) {size : Nat} {k' : Kernel}
    (hcall : Settles (fun fuel => kmalloc fuel k size) (.ok (0, k'))) :
    ∃ chunks' pages', PagingAt k' (s.withHeap chunks' pages' s.nodes) ∧
      Beside k s k' (s.withHeap chunks' pages' s.nodes) ∧
      (∀ n ∈ s.nodes, SameNode k.mem k'.mem n) ∧
      pages' ++ availablePages k'.kvmlist =
        s.pages ++ availablePages k.kvmlist := by
  obtain ⟨chunks', fresh, hmove, hheld, hzeroed⟩ :=
    kmalloc_refused h.ready hcall
  have hbeside := ofMove h.toPooled hmove hzeroed s.nodes
  have hnodes : ∀ n ∈ s.nodes, SameNode k.mem k'.mem n := fun n hn x hx =>
    hmove.held_kept h.ready (h.list.held n hn) hx
  have hpages : s.pages ++ fresh ++ availablePages k'.kvmlist =
      s.pages ++ availablePages k.kvmlist := by
    rw [hmove.taken, List.append_assoc]
  refine ⟨chunks', s.pages ++ fresh, ?_, hbeside, hnodes, hpages⟩
  refine ⟨hbeside.pooled, ?_, ?_⟩
  · exact h.forest.congr hbeside.same
  · have hlist := h.list.congr hnodes
    rw [hmove.mmaplist]
    exact ⟨hlist.linked, fun n hn => hheld _ (h.list.held n hn), hlist.inUse,
      h.list.nodup⟩

/-- What the forest maps does not depend on the heap. -/
theorem paging (h : Beside k s k₁ s₁) (hforest : Forest k.mem s.roots s.tables)
    (hlist : NodeList k₁.mem k₁.mmaplist s₁.chunks s₁.nodes) :
    PagingAt k₁ s₁ where
  toPooled := h.pooled
  forest := by
    rw [h.roots, h.tables]
    exact hforest.congr h.same
  list := hlist

end Beside

end Linda
