/-
What the code of mmap.c leaves alone: the blocks of the heap that are no nodes
of its list, and memory outside the pages the kernel manages.
-/
import Linda.MapList

namespace Linda

open ByteMemory IntervalCover FuelLoop

/-- Held blocks that are none of `own` are held afterwards, with the bytes they
had, and none of them is among `own'`. -/
def Spares (m : Memory) (chunks : List Chunk) (own : List Block) (m' : Memory)
    (chunks' : List Chunk) (own' : List Block) : Prop :=
  ∀ b, Held chunks b → b ∉ own →
    Held chunks' b ∧ b ∉ own' ∧ ∀ x ∈ b.bytes, m' x = m x

namespace Spares

variable {m m₁ m₂ : Memory} {chunks chunks₁ chunks₂ : List Chunk}
  {own own₁ own₂ : List Block}

theorem refl (hown : own₁ ⊆ own) : Spares m chunks own m chunks own₁ :=
  fun _ hb hout => ⟨hb, fun hin => hout (hown hin), fun _ _ => rfl⟩

theorem trans (h₁ : Spares m chunks own m₁ chunks₁ own₁)
    (h₂ : Spares m₁ chunks₁ own₁ m₂ chunks₂ own₂) :
    Spares m chunks own m₂ chunks₂ own₂ := by
  intro b hb hout
  obtain ⟨hb₁, hout₁, hsame₁⟩ := h₁ b hb hout
  obtain ⟨hb₂, hout₂, hsame₂⟩ := h₂ b hb₁ hout₁
  exact ⟨hb₂, hout₂, fun x hx => (hsame₂ x hx).trans (hsame₁ x hx)⟩

/-- A write into a block of one's own. -/
theorem write {pages : List Nat} (htiling : Tiling chunks pages) {b : Block}
    (hb : Held chunks b) (hin : b ∈ own)
    (hsame : ∀ x, x ∉ b.bytes → m₁ x = m x) :
    Spares m chunks own m₁ chunks own := by
  intro c hc hout
  refine ⟨hc, hout, fun x hx => hsame x ?_⟩
  apply htiling.held_disjoint hc hb _ x hx
  rintro rfl
  exact hout hin

/-- A write outside the heap. -/
theorem offHeap {pages : List Nat} (htiling : Tiling chunks pages)
    (hsame : SamePages m m₁ pages) : Spares m chunks own m₁ chunks own := by
  intro c hc hout
  refine ⟨hc, hout, fun x hx => ?_⟩
  obtain ⟨page, hpage, hxpage⟩ := htiling.block_onHeap hc hx
  exact hsame page hpage x hxpage

variable {k k' : Kernel} {pages fresh : List Nat} {b : Block}

/-- A block of one's own given back. -/
theorem release (h : Released k chunks pages b k' chunks₁) (hin : b ∈ own)
    (hown : own₁ ⊆ own) : Spares k.mem chunks own k'.mem chunks₁ own₁ := by
  intro c hc hout
  have hne : c ≠ b := by
    rintro rfl
    exact hout hin
  obtain ⟨hheld, hsame⟩ := h.others c hc hne
  exact ⟨hheld, fun hin => hout (hown hin), hsame⟩

/-- A block obtained. -/
theorem alloc (h : HeapReady k chunks pages)
    (hmove : HeapMove k chunks pages k' chunks₁ fresh)
    (hgrant : Granted k chunks b k' chunks₁ fresh) (hown : own₁ ⊆ b :: own) :
    Spares k.mem chunks own k'.mem chunks₁ own₁ := by
  intro c hc hout
  obtain ⟨hheld, hne⟩ := hgrant.others c hc
  refine ⟨hheld, fun hin => ?_, fun x hx => hmove.held_kept h hc hx⟩
  rcases List.mem_cons.mp (hown hin) with rfl | hin
  · exact hne rfl
  · exact hout hin

end Spares

/-- The pages of the kernel's directories, tables and heap, and the unused
ones. -/
def Paging.managed (s : Paging) (k : Kernel) : List Nat :=
  s.fixed ++ s.pages ++ availablePages k.kvmlist

/-- The mappings the nodes of the list stand for. -/
def Paging.entries (s : Paging) (k : Kernel) : List (Nat × Nat) :=
  s.nodes.map (nodeEntry k.mem)

/-- The entries were `E`, and the mapping may have come to them; no page came
to those in `managed`. -/
structure Listed (E : List (Nat × Nat)) (managed : List Nat) (va pa : Nat)
    (k : Kernel) (s : Paging) : Prop where
  entries : s.entries k = E ∨
    s.entries k = E ++ [(va &&& pgMask, pa &&& pgMask)]
  pages : s.managed k ⊆ managed

def nodeBlocks (nodes : List Nat) : List Block := nodes.map nodeBlock

theorem mem_nodeBlocks {nodes : List Nat} {n : Nat} (hn : n ∈ nodes) :
    nodeBlock n ∈ nodeBlocks nodes := List.mem_map_of_mem hn

theorem nodeBlocks_subset {nodes nodes' : List Nat} (h : nodes' ⊆ nodes) :
    nodeBlocks nodes' ⊆ nodeBlocks nodes := List.map_subset nodeBlock h

/-- What a call leaves alone besides directories, tables and nodes. -/
structure Framed (k : Kernel) (s : Paging) (k' : Kernel) (s' : Paging) :
    Prop where
  blocks : Spares k.mem s.chunks (nodeBlocks s.nodes) k'.mem s'.chunks
    (nodeBlocks s'.nodes)
  pages : s'.managed k' ⊆ s.managed k
  outside : ∀ x, OffHeap (s.managed k) x → k'.mem x = k.mem x

/-- A byte of a held block is a byte of a page the kernel manages. -/
theorem Pooled.block_managed {k : Kernel} {s : Paging} (h : Pooled k s)
    {b : Block} (hb : Held s.chunks b) {x : Nat} (hx : OffHeap (s.managed k) x) :
    x ∉ b.bytes := by
  intro hin
  obtain ⟨page, hpage, hxpage⟩ := h.heap.tiling.block_onHeap hb hin
  exact hx page (by simp [Paging.managed, hpage]) hxpage

namespace Framed

variable {k k₁ k₂ : Kernel} {s s₁ s₂ : Paging} {nodes : List Nat} {n : Nat}

theorem refl (k : Kernel) (s : Paging) : Framed k s k s :=
  ⟨.refl (fun _ hb => hb), fun _ hp => hp, fun _ _ => rfl⟩

theorem trans (h₁ : Framed k s k₁ s₁) (h₂ : Framed k₁ s₁ k₂ s₂) :
    Framed k s k₂ s₂ where
  blocks := h₁.blocks.trans h₂.blocks
  pages _ hp := h₁.pages (h₂.pages hp)
  outside x hx := by
    have hx₁ : OffHeap (s₁.managed k₁) x := fun page hpage =>
      hx page (h₁.pages hpage)
    exact (h₂.outside x hx₁).trans (h₁.outside x hx)

theorem head (k : Kernel) (s : Paging) (map : Nat) :
    Framed k s { k with mmaplist := map } s :=
  ⟨.refl (fun _ hb => hb), fun _ hp => hp, fun _ _ => rfl⟩

/-- A write into a node. -/
theorem write (h : Pooled k s) (hn : n ∈ s.nodes)
    (hheld : Held s.chunks (nodeBlock n)) {m' : Memory}
    (hsame : ∀ x, x ∉ (nodeBlock n).bytes → m' x = k.mem x) :
    Framed k s (k.setMem m') s where
  blocks := .write h.heap.tiling hheld (mem_nodeBlocks hn) hsame
  pages _ hp := hp
  outside x hx := hsame x (h.block_managed hheld hx)

/-- A node given back. -/
theorem release {chunks' : List Chunk} (hn : n ∈ s.nodes)
    (hfree : Released k s.chunks s.pages (nodeBlock n) k₁ chunks')
    (hnodes : nodes ⊆ s.nodes) :
    Framed k s k₁ (s.withHeap chunks' s.pages nodes) where
  blocks := .release hfree (mem_nodeBlocks hn) (nodeBlocks_subset hnodes)
  pages := by
    obtain ⟨m', rfl⟩ := hfree.same
    exact fun _ hp => hp
  outside x hx := hfree.offHeap x fun page hpage =>
    hx page (by simp [Paging.managed, hpage])

/-- A node obtained. -/
theorem alloc {chunks' : List Chunk} {fresh : List Nat} (h : Pooled k s)
    (hmove : HeapMove k s.chunks s.pages k₁ chunks' fresh)
    (hgrant : Granted k s.chunks (nodeBlock n) k₁ chunks' fresh)
    (hnodes : nodes ⊆ n :: s.nodes) :
    Framed k s k₁ (s.withHeap chunks' (s.pages ++ fresh) nodes) where
  blocks := .alloc h.ready hmove hgrant (nodeBlocks_subset hnodes)
  pages page hpage := by
    simp only [Paging.managed, hmove.taken, Paging.withHeap, Paging.fixed,
      List.mem_append] at hpage ⊢
    tauto
  outside x hx := by
    apply hmove.offHeap h.ready
    intro page hpage
    apply hx page
    simp only [Paging.managed, hmove.taken, List.mem_append] at hpage ⊢
    tauto

/-- A write into a page of the kernel's directories and tables. -/
theorem fixed (h : Pooled k s) {page : Nat} (hpage : page ∈ s.fixed)
    {m' : Memory} (hsame : ∀ x, x ∉ pageExtent page → m' x = k.mem x) :
    Framed k s (k.setMem m') s where
  blocks := .offHeap h.heap.tiling fun q hq x hx => hsame x fun hin =>
    h.pool.offHeap hpage hin q (List.mem_append_left _ hq) hx
  pages _ hp := hp
  outside x hx := hsame x (hx page (by simp [Paging.managed, hpage]))

/-- A page taken for a table below the directory `d`. -/
theorem table (h : Pooled k s) {d page : Nat} {kvmlist' : Nat → VmBlock}
    (hd : d ∈ s.fixed)
    (havail : availablePages k.kvmlist = page :: availablePages kvmlist')
    {m' : Memory} (hsame : ∀ x, x ∉ pageExtent page → x ∉ pageExtent d →
      m' x = k.mem x) :
    Framed k s ((k.setKvmlist kvmlist').setMem m')
      { s with tables := page :: s.tables } where
  blocks := by
    have hin : page ∈ availablePages k.kvmlist := by simp [havail]
    apply Spares.offHeap h.heap.tiling
    intro q hq x hx
    apply hsame x
    · exact fun hxpage => h.pool.fresh_offHeap hin hxpage q hq hx
    · exact fun hxd => h.pool.offHeap hd hxd q (List.mem_append_left _ hq) hx
  pages q hq := by
    simp only [Paging.managed, Paging.fixed, havail, Kernel.setMem_kvmlist,
      Kernel.setKvmlist_kvmlist, List.mem_append, List.mem_cons] at hq ⊢
    tauto
  outside x hx := hsame x (hx page (by simp [Paging.managed, havail]))
    (hx d (by simp [Paging.managed, hd]))

end Framed

end Linda
