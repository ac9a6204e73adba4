/-
The queue of buf.c in memory: buf_read takes the buffer and its lock from
kmalloc and hangs the buffer behind the last one.
-/
import Linda.Disk
import Linda.MmapEffects

namespace Linda

open ByteMemory IntervalCover LinkedSegment FuelLoop

/-- `sizeof(struct buf)` -/
def bufSize : Nat := 24 + blockSize

/-- `sizeof(struct spinlock)` -/
def lockSize : Nat := 8

def bufPrev (m : Memory) (b : Nat) : Nat := load32 m (b + 12)
def bufNext (m : Memory) (b : Nat) : Nat := load32 m (b + 16)

def bufBlock (b : Nat) : Block := ⟨b, bufSize⟩

/-- The kernel with `bufs`. -/
structure BufKernel where
  kernel : Kernel
  queue : Nat
  count : Nat

/-- One round of the `while` of `buf_read` and `buf_write`. -/
def lastBufBody (k : Kernel) (header : Nat) : Except Halt (Nat ⊕ Nat) := do
  let next ← loadWord k (header + 16)
  if next ≠ 0 then .ok (.inl next) else .ok (.inr header)

/-- One round of the `while` of `buf_remove`, up to the buffer. -/
def findBufBody (k : Kernel) (buf header : Nat) : Except Halt (Nat ⊕ Nat) :=
  if header = 0 then .ok (.inr header)
  else if header = buf then .ok (.inr header)
  else do
    let next ← loadWord k (header + 16)
    .ok (.inl next)

/-- The part of `buf_read` and `buf_write` that queues the buffer. -/
def enqueueBuf (fuel : Nat) (s : BufKernel) (buf : Nat) :
    Except Halt BufKernel :=
  if s.queue = 0 then .ok { s with queue := buf, count := u32 (s.count + 1) }
  else do
    let header ← loop .spin (lastBufBody s.kernel) fuel s.queue
    let k ← storeWord s.kernel (header + 16) buf
    let k ← storeWord k (buf + 12) header
    .ok { s with kernel := k, count := u32 (s.count + 1) }

def initlock (k : Kernel) (lock name : Nat) : Except Halt Kernel := do
  let k ← storeWord k (lock + 4) name
  storeWord k lock 0

/-- The fields `buf_read` sets itself. -/
def fillBuf (k : Kernel) (buf lock dev blockno : Nat) : Except Halt Kernel := do
  let k ← storeWord k (buf + 8) blockno
  let k ← storeWord k (buf + 4) dev
  let k ← storeWord k buf bValid.toNat
  storeWord k (buf + 20) lock

/-- `buf_read` up to `ide_execute`; `name` is where the name of the lock is.
Returns the buffer, `0` for `NULL`. -/
def BufKernel.bufRead (s : BufKernel) (name fuel dev blockno : Nat) :
    Except Halt (Nat × BufKernel) := do
  let (buf, k) ← kmalloc fuel s.kernel bufSize
  if buf = 0 then .ok (0, { s with kernel := k })
  else
    let (lock, k) ← kmalloc fuel k lockSize
    if lock = 0 then .ok (0, { s with kernel := k })
    else
      let k ← initlock k lock name
      let k ← fillBuf k buf lock dev blockno
      let s ← enqueueBuf fuel { s with kernel := k } buf
      .ok (buf, s)

/-- The queue in memory; its buffers are held blocks of the heap. -/
structure QueueAt (m : Memory) (chunks : List Chunk) (queue : Nat)
    (queued : List Nat) : Prop where
  linked : Segment 0 (bufNext m) queue queued 0
  back : Back (bufPrev m) 0 queued
  held : ∀ b ∈ queued, Held chunks (bufBlock b)
  nodup : queued.Nodup

/-- The lists of mappings and of buffers. -/
structure ListsAt (k : Kernel) (s : Paging) (queue : Nat) (queued : List Nat) :
    Prop where
  paging : PagingAt k s
  bufs : QueueAt k.mem s.chunks queue queued

section Buffers

variable {m m' : Memory} {chunks chunks' : List Chunk} {own own' : List Block}
  {queue b : Nat} {queued : List Nat}

theorem mem_bufBlock {x : Nat} :
    x ∈ (bufBlock b).bytes ↔ b ≤ x ∧ x < b + 1048 := Iff.rfl

theorem bufBlock_inj {b' : Nat} (h : bufBlock b = bufBlock b') : b = b' :=
  congrArg Block.addr h

/-- Buffers and nodes differ in size. -/
theorem bufBlock_not_node {nodes : List Nat} :
    bufBlock b ∉ nodeBlocks nodes := by
  intro hin
  obtain ⟨n, -, hn⟩ := List.mem_map.mp hin
  have hsize : mmapBlockSize = bufSize := congrArg Block.size hn
  exact absurd hsize (by decide)

theorem bufNext_congr (h : ∀ x ∈ (bufBlock b).bytes, m' x = m x) :
    bufNext m' b = bufNext m b :=
  load32_congr fun x _ _ => h x (mem_bufBlock.mpr (by omega))

theorem bufPrev_congr (h : ∀ x ∈ (bufBlock b).bytes, m' x = m x) :
    bufPrev m' b = bufPrev m b :=
  load32_congr fun x _ _ => h x (mem_bufBlock.mpr (by omega))

/-- The queue depends on its buffers alone. -/
theorem QueueAt.spares (h : QueueAt m chunks queue queued)
    (hspares : Spares m chunks own m' chunks' own')
    (hout : ∀ b ∈ queued, bufBlock b ∉ own) : QueueAt m' chunks' queue queued := by
  have hkept : ∀ b ∈ queued, Held chunks' (bufBlock b) ∧
      ∀ x ∈ (bufBlock b).bytes, m' x = m x := fun b hb => by
    obtain ⟨hheld, -, hsame⟩ := hspares _ (h.held b hb) (hout b hb)
    exact ⟨hheld, hsame⟩
  constructor
  · exact h.linked.congr fun b hb => bufNext_congr (hkept b hb).2
  · exact h.back.congr fun b hb => bufPrev_congr (hkept b hb).2
  · exact fun b hb => (hkept b hb).1
  · exact h.nodup

/-- So does the list of mappings on its nodes. -/
theorem NodeList.spares {head : Nat} {nodes : List Nat}
    (h : NodeList m head chunks nodes)
    (hspares : Spares m chunks own m' chunks' own')
    (hout : ∀ n ∈ nodes, nodeBlock n ∉ own) : NodeList m' head chunks' nodes := by
  have hkept : ∀ n ∈ nodes, Held chunks' (nodeBlock n) ∧ SameNode m m' n :=
    fun n hn => by
      obtain ⟨hheld, -, hsame⟩ := hspares _ (h.held n hn) (hout n hn)
      exact ⟨hheld, hsame⟩
  have hlist := h.congr fun n hn => (hkept n hn).2
  exact ⟨hlist.linked, fun n hn => (hkept n hn).1, hlist.inUse, h.nodup⟩

end Buffers

section Calls

variable {k k' : Kernel} {s : Paging} {queue size addr : Nat}
  {queued : List Nat}

/-- The heap answered; both lists are where they were. -/
structure Answered (k : Kernel) (s : Paging) (queue : Nat) (queued : List Nat)
    (size addr : Nat) (k' : Kernel) (s' : Paging) : Prop where
  lists : ListsAt k' s' queue queued
  roots : s'.roots = s.roots
  nodes : s'.nodes = s.nodes
  zeroed : Zeroed k s.chunks → Zeroed k' s'.chunks
  granted : addr ≠ 0 → Held s'.chunks ⟨addr, size⟩
  others : ∀ b, Held s.chunks b → Held s'.chunks b ∧
    (addr ≠ 0 → b ≠ ⟨addr, size⟩) ∧ ∀ x ∈ b.bytes, k'.mem x = k.mem x

/-- What the heap does besides moving on is to keep what is held. -/
theorem ListsAt.answered (h : ListsAt k s queue queued) {chunks' : List Chunk}
    {fresh : List Nat}
    (hmove : HeapMove k s.chunks s.pages k' chunks' fresh)
    (hbeside : Beside k s k' (s.withHeap chunks' (s.pages ++ fresh) s.nodes))
    (hgranted : addr ≠ 0 → Held chunks' ⟨addr, size⟩)
    (hothers : ∀ b, Held s.chunks b → Held chunks' b ∧
      (addr ≠ 0 → b ≠ ⟨addr, size⟩)) :
    Answered k s queue queued size addr k'
      (s.withHeap chunks' (s.pages ++ fresh) s.nodes) := by
  have hkept : ∀ b, Held s.chunks b → ∀ x ∈ b.bytes, k'.mem x = k.mem x :=
    fun b hb x hx => hmove.held_kept h.paging.ready hb hx
  have hspares : Spares k.mem s.chunks [] k'.mem chunks' [] := fun b hb _ =>
    ⟨(hothers b hb).1, List.not_mem_nil, hkept b hb⟩
  have hlist := h.paging.list.spares hspares fun _ _ => List.not_mem_nil
  refine ⟨⟨hbeside.paging h.paging.forest ?_, ?_⟩, rfl, rfl, hbeside.zeroed,
    hgranted, ?_⟩
  · rw [hmove.mmaplist]
    exact hlist
  · exact h.bufs.spares hspares fun _ _ => List.not_mem_nil
  · exact fun b hb => ⟨(hothers b hb).1, (hothers b hb).2, hkept b hb⟩

theorem ListsAt.alloc (h : ListsAt k s queue queued)
    (hcall : Settles (fun fuel => kmalloc fuel k size) (.ok (addr, k'))) :
    ∃ s', Answered k s queue queued size addr k' s' := by
  by_cases hne : addr = 0
  · subst hne
    obtain ⟨chunks', fresh, hmove, hheld, hzeroed⟩ :=
      kmalloc_refused h.paging.ready hcall
    exact ⟨_, h.answered hmove (.ofMove h.paging.toPooled hmove hzeroed s.nodes)
      (fun hcon => absurd rfl hcon)
      fun b hb => ⟨hheld b hb, fun hcon => absurd rfl hcon⟩⟩
  · obtain ⟨chunks', fresh, hmove, hgrant, hbeside⟩ :=
      Beside.alloc h.paging.toPooled hcall hne
    exact ⟨_, h.answered hmove (hbeside s.nodes) (fun _ => hgrant.held)
      fun b hb => ⟨(hgrant.others b hb).1, fun _ => (hgrant.others b hb).2⟩⟩

/-- A write into a block that is in neither list. -/
theorem ListsAt.write (h : ListsAt k s queue queued) {b : Block}
    (hb : Held s.chunks b) (hnode : b ∉ nodeBlocks s.nodes)
    (hbuf : b ∉ queued.map bufBlock) {m' : Memory}
    (hsame : ∀ x, x ∉ b.bytes → m' x = k.mem x) :
    ListsAt (k.setMem m') s queue queued ∧
      (Zeroed k s.chunks → Zeroed (k.setMem m') s.chunks) := by
  have hspares : Spares k.mem s.chunks [b] m' s.chunks [b] :=
    .write h.paging.heap.tiling hb List.mem_cons_self hsame
  have hwrite := Beside.write h.paging.toPooled hb hsame
  refine ⟨⟨hwrite.paging h.paging.forest ?_, ?_⟩, hwrite.zeroed⟩
  · refine h.paging.list.spares hspares fun n hn hin => hnode ?_
    exact List.mem_singleton.mp hin ▸ mem_nodeBlocks hn
  · refine h.bufs.spares hspares fun c hc hin => hbuf ?_
    exact List.mem_singleton.mp hin ▸ List.mem_map_of_mem hc

end Calls

section Fields

variable {m : Memory} {buf lock dev blockno : Nat}

/-- The memory after `buf_read` has set the fields of the buffer. -/
def filledBuf (m : Memory) (buf lock dev blockno : Nat) : Memory :=
  store32 (store32 (store32 (store32 m (buf + 8) blockno) (buf + 4) dev) buf
    bValid.toNat) (buf + 20) lock

theorem fillBuf_direct (h : Direct buf 1048) (k : Kernel)
    (lock dev blockno : Nat) : fillBuf k buf lock dev blockno =
      .ok (k.setMem (filledBuf k.mem buf lock dev blockno)) := by
  have hblockno := storeWord_direct (h.word 8 (by omega))
  have hdev := storeWord_direct (h.word 4 (by omega))
  have hflags := storeWord_direct (h.first (by omega))
  have hlock := storeWord_direct (h.word 20 (by omega))
  simp only [fillBuf, hblockno, hdev, hflags, hlock, Bind.bind, Except.bind,
    Kernel.setMem_mem, Kernel.setMem_setMem, filledBuf]

theorem filledBuf_outside (m : Memory) (lock dev blockno : Nat) {x : Nat}
    (hx : x ∉ (bufBlock buf).bytes) : filledBuf m buf lock dev blockno x = m x := by
  rw [mem_bufBlock] at hx
  simp (disch := omega) only [filledBuf, store32_of_outside]

/-- The links are not among them. -/
theorem filledBuf_next :
    bufNext (filledBuf m buf lock dev blockno) buf = bufNext m buf := by
  simp (disch := omega) only [bufNext, filledBuf, load32_store32_of_disjoint]

theorem filledBuf_prev :
    bufPrev (filledBuf m buf lock dev blockno) buf = bufPrev m buf := by
  simp (disch := omega) only [bufPrev, filledBuf, load32_store32_of_disjoint]

theorem initlock_direct (h : Direct lock 8) (k : Kernel) (name : Nat) :
    initlock k lock name =
      .ok (k.setMem (store32 (store32 k.mem (lock + 4) name) lock 0)) := by
  have hname := storeWord_direct (h.word 4 (by omega))
  have hlocked := storeWord_direct (h.first (by omega))
  simp only [initlock, hname, hlocked, Bind.bind, Except.bind,
    Kernel.setMem_mem, Kernel.setMem_setMem]

theorem initlock_outside (m : Memory) (name : Nat) {x : Nat}
    (hx : x ∉ (Block.mk lock lockSize).bytes) :
    store32 (store32 m (lock + 4) name) lock 0 x = m x := by
  replace hx : ¬ (lock ≤ x ∧ x < lock + 8) := hx
  rw [store32_of_outside _ _ (by omega), store32_of_outside _ _ (by omega)]

end Fields

section Walks

variable {k : Kernel} {s : Paging} {queue buf : Nat} {queued : List Nat}

theorem Pooled.held_direct (h : Pooled k s) {b : Block} (hb : Held s.chunks b)
    (hpos : 0 < b.size) : Direct b.addr b.size := by
  obtain ⟨hlo, hhi⟩ := h.block_bounds hb hpos
  exact ⟨by omega, hhi⟩

theorem Pooled.buf_direct (h : Pooled k s) (hb : Held s.chunks (bufBlock buf)) :
    Direct buf 1048 := h.held_direct hb (show 0 < bufSize by decide)

theorem QueueAt.next_eq {m : Memory} {chunks : List Chunk} {b : Nat}
    {pre post : List Nat} (h : QueueAt m chunks queue (pre ++ b :: post)) :
    bufNext m b = post.headD 0 := by
  have hlinked := h.linked
  rw [segment_middle] at hlinked
  cases post with
  | nil => exact hlinked.2.2
  | cons d rest => exact hlinked.2.2.1

theorem QueueAt.head_eq {m : Memory} {chunks : List Chunk}
    (h : QueueAt m chunks queue queued) : queue = queued.headD 0 := by
  cases queued with
  | nil => exact h.linked
  | cons b rest => exact h.linked.1

theorem ListsAt.buf_direct (h : ListsAt k s queue queued) (hb : buf ∈ queued) :
    Direct buf 1048 := h.paging.buf_direct (h.bufs.held buf hb)

/-- The walk to the last buffer, from any buffer on. -/
theorem lastBuf_runs (h : ListsAt k s queue queued) {pre : List Nat} {b : Nat}
    (post : List Nat) (hqueued : queued = pre ++ b :: post) :
    Runs .spin (fun _ => lastBufBody k) b
      (.ok ((b :: post).getLast (List.cons_ne_nil b post))) := by
  induction post generalizing pre b with
  | nil =>
      have hb : b ∈ queued := by simp [hqueued]
      have hnext := loadWord_direct ((h.buf_direct hb).word 16 (by omega)) k
      have hbufs := h.bufs
      rw [hqueued] at hbufs
      have hlink : load32 k.mem (b + 16) = 0 := hbufs.next_eq
      apply Runs.exit
      simp only [lastBufBody, hnext, hlink, ok_bind, ne_eq, not_true_eq_false,
        ↓reduceIte, List.getLast_singleton]
      exact settles_const _
  | cons d post ih =>
      have hb : b ∈ queued := by simp [hqueued]
      have hd : d ∈ queued := by simp [hqueued]
      have hnext := loadWord_direct ((h.buf_direct hb).word 16 (by omega)) k
      have hqueued' : queued = (pre ++ [b]) ++ d :: post := by simpa using hqueued
      have hbufs := h.bufs
      rw [hqueued] at hbufs
      have hlink : load32 k.mem (b + 16) = d := hbufs.next_eq
      have hpos : d ≠ 0 := h.bufs.linked.ne_null hd
      rw [List.getLast_cons (List.cons_ne_nil d post)]
      refine Runs.next ?_ (ih hqueued')
      simp only [lastBufBody, hnext, hlink, ok_bind, ne_eq, hpos,
        not_false_eq_true, ↓reduceIte]
      exact settles_const _

/-- On a queue that ends in `last` it comes there. -/
theorem lastBuf_settles (h : ListsAt k s queue queued) {pre : List Nat}
    {last : Nat} (hqueued : queued = pre ++ [last]) :
    queue ≠ 0 ∧ Settles (fun fuel => loop .spin (fun b => lastBufBody k b) fuel
      queue) (.ok last) := by
  have hhead := h.bufs.head_eq
  cases queued with
  | nil => exact absurd hqueued.symm (by simp)
  | cons b post =>
      have hcons : b :: post = [] ++ b :: post := rfl
      have hruns := lastBuf_runs h post hcons
      have hlast : (b :: post).getLast (List.cons_ne_nil b post) = last := by
        simp only [hqueued, List.getLast_append_singleton]
      rw [hlast] at hruns
      rw [hhead]
      exact ⟨h.bufs.linked.ne_null List.mem_cons_self, hruns.settles⟩

/-- The search of `buf_remove` ends on the buffer or behind the last one. -/
theorem findBuf_runs (h : ListsAt k s queue queued) (buf : Nat)
    {pre : List Nat} (post : List Nat) (hqueued : queued = pre ++ post) :
    ∃ header, Runs .spin (fun _ => findBufBody k buf) (post.headD 0)
      (.ok header) ∧ (header = 0 ∨ header = buf ∧ buf ∈ queued) := by
  induction post generalizing pre with
  | nil =>
      refine ⟨0, Runs.exit ?_, Or.inl rfl⟩
      simp only [List.headD_nil, findBufBody, ↓reduceIte]
      exact settles_const _
  | cons b post ih =>
      have hb : b ∈ queued := by simp [hqueued]
      have hpos : b ≠ 0 := h.bufs.linked.ne_null hb
      by_cases hfound : b = buf
      · subst hfound
        refine ⟨b, Runs.exit ?_, Or.inr ⟨rfl, hb⟩⟩
        simp only [List.headD_cons, findBufBody, hpos, ↓reduceIte]
        exact settles_const _
      · have hqueued' : queued = (pre ++ [b]) ++ post := by simpa using hqueued
        obtain ⟨header, hruns, hheader⟩ := ih hqueued'
        have hnext := loadWord_direct ((h.buf_direct hb).word 16 (by omega)) k
        have hbufs := h.bufs
        rw [hqueued] at hbufs
        have hlink : load32 k.mem (b + 16) = post.headD 0 := hbufs.next_eq
        refine ⟨header, Runs.next ?_ hruns, hheader⟩
        simp only [List.headD_cons, findBufBody, hpos, hfound, ↓reduceIte,
          hnext, hlink, ok_bind]
        exact settles_const _

end Walks

section Enqueueing

variable {k : Kernel} {s : Paging} {queue buf count : Nat} {queued : List Nat}

/-- A buffer and its links, put behind the last one. -/
def linkedMemory (m : Memory) (last buf : Nat) : Memory :=
  store32 (store32 m (last + 16) buf) (buf + 12) last

theorem linkedMemory_outside {m : Memory} {last x : Nat}
    (hlast : x ∉ (bufBlock last).bytes) (hbuf : x ∉ (bufBlock buf).bytes) :
    linkedMemory m last buf x = m x := by
  rw [mem_bufBlock] at hlast hbuf
  rw [linkedMemory, store32_of_outside _ _ (by omega),
    store32_of_outside _ _ (by omega)]

theorem linkedMemory_next {m : Memory} {last : Nat}
    (hapart : ∀ x ∈ (bufBlock buf).bytes, x ∉ (bufBlock last).bytes) :
    bufNext (linkedMemory m last buf) buf = bufNext m buf := by
  refine load32_congr fun x hlo hhi => ?_
  have hout := hapart x (mem_bufBlock.mpr (by omega))
  rw [mem_bufBlock] at hout
  rw [linkedMemory, store32_of_outside _ _ (by omega),
    store32_of_outside _ _ (by omega)]

theorem linkedMemory_link {m : Memory} {last : Nat} (hlt : buf < 4294967296)
    (hapart : ∀ x ∈ (bufBlock buf).bytes, x ∉ (bufBlock last).bytes) :
    bufNext (linkedMemory m last buf) last = buf := by
  rw [bufNext, linkedMemory, load32_store32_of_disjoint, load32_store32_same]
  · exact Nat.mod_eq_of_lt hlt
  · have hout := hapart (buf + 12) (mem_bufBlock.mpr (by omega))
    have hout' := hapart (buf + 15) (mem_bufBlock.mpr (by omega))
    rw [mem_bufBlock] at hout hout'
    omega

theorem linkedMemory_back {m : Memory} {last : Nat} (hlt : last < 4294967296) :
    bufPrev (linkedMemory m last buf) buf = last := by
  rw [bufPrev, linkedMemory, load32_store32_same]
  exact Nat.mod_eq_of_lt hlt

theorem linkedMemory_prev {m : Memory} {last : Nat}
    (hapart : ∀ x ∈ (bufBlock last).bytes, x ∉ (bufBlock buf).bytes) :
    bufPrev (linkedMemory m last buf) last = bufPrev m last := by
  refine load32_congr fun x hlo hhi => ?_
  have hout := hapart x (mem_bufBlock.mpr (by omega))
  rw [mem_bufBlock] at hout
  rw [linkedMemory, store32_of_outside _ _ (by omega),
    store32_of_outside _ _ (by omega)]

/-- Blocks of two buffers have no byte in common. -/
theorem Pooled.bufs_apart (h : Pooled k s) {b c : Nat}
    (hb : Held s.chunks (bufBlock b)) (hc : Held s.chunks (bufBlock c))
    (hne : b ≠ c) : ∀ x ∈ (bufBlock b).bytes, x ∉ (bufBlock c).bytes :=
  fun x hx => h.heap.tiling.held_disjoint hb hc (fun heq =>
    hne (bufBlock_inj heq)) x hx

/-- The buffer in the first place. -/
theorem ListsAt.enqueue_first (h : ListsAt k s queue [])
    (hb : Held s.chunks (bufBlock buf)) (hnext : bufNext k.mem buf = 0)
    (hprev : bufPrev k.mem buf = 0) : ListsAt k s buf [buf] := by
  have hpos : buf ≠ 0 := (h.paging.buf_direct hb).ne_zero
  refine ⟨h.paging, ⟨rfl, hpos, hnext⟩, ⟨hprev, trivial⟩, ?_,
    List.nodup_singleton buf⟩
  intro c hc
  obtain rfl := List.mem_singleton.mp hc
  exact hb

/-- The two links touch the blocks of `last` and of the buffer. -/
theorem ListsAt.linked (h : ListsAt k s queue queued) {last : Nat}
    (hlast : Held s.chunks (bufBlock last)) (hb : Held s.chunks (bufBlock buf)) :
    Beside k s (k.setMem (linkedMemory k.mem last buf)) s ∧
      NodeList (linkedMemory k.mem last buf) k.mmaplist s.chunks s.nodes := by
  have hfirst : ∀ x, x ∉ (bufBlock last).bytes →
      store32 k.mem (last + 16) buf x = k.mem x := by
    intro x hx
    rw [mem_bufBlock] at hx
    exact store32_of_outside _ _ (by omega)
  have hsecond : ∀ x, x ∉ (bufBlock buf).bytes →
      linkedMemory k.mem last buf x = store32 k.mem (last + 16) buf x := by
    intro x hx
    rw [mem_bufBlock] at hx
    exact store32_of_outside _ _ (by omega)
  have hwrite := Beside.write h.paging.toPooled hlast hfirst
  have hwrite' := hwrite.trans (Beside.write hwrite.pooled hb hsecond)
  have hspares : Spares k.mem s.chunks [bufBlock last, bufBlock buf]
      (linkedMemory k.mem last buf) s.chunks [bufBlock last, bufBlock buf] :=
    (Spares.write h.paging.heap.tiling hlast (by simp) hfirst).trans
      (.write hwrite.pooled.heap.tiling hb (by simp) hsecond)
  refine ⟨hwrite', h.paging.list.spares hspares fun n hn hin => ?_⟩
  have hnot : ∀ c, nodeBlock n ≠ bufBlock c := fun c heq =>
    bufBlock_not_node (heq ▸ mem_nodeBlocks hn)
  simp only [List.mem_cons, List.not_mem_nil, or_false] at hin
  exact hin.elim (hnot last) (hnot buf)

/-- The two links of a buffer behind `last`. -/
theorem ListsAt.enqueue_behind {pre : List Nat} {last : Nat}
    (h : ListsAt k s queue (pre ++ [last])) (hb : Held s.chunks (bufBlock buf))
    (hnew : buf ∉ pre ++ [last]) (hnext : bufNext k.mem buf = 0) :
    ListsAt (k.setMem (linkedMemory k.mem last buf)) s queue
        (pre ++ [last] ++ [buf]) ∧
      (Zeroed k s.chunks →
        Zeroed (k.setMem (linkedMemory k.mem last buf)) s.chunks) := by
  have hlast := h.bufs.held last (by simp)
  have hne : buf ≠ last := fun heq => hnew (by simp [heq])
  have hapart := h.paging.bufs_apart hb hlast hne
  have hnodup := h.bufs.nodup
  have hpre : ∀ c ∈ pre, c ≠ last := fun c hc heq =>
    (List.nodup_append.mp hnodup).2.2 c hc last (by simp) heq
  have hkept : ∀ c ∈ pre ++ [last], c ≠ last → ∀ x ∈ (bufBlock c).bytes,
      linkedMemory k.mem last buf x = k.mem x := by
    intro c hc hcl x hx
    have hheld := h.bufs.held c hc
    have hcb : c ≠ buf := fun heq => hnew (heq ▸ hc)
    exact linkedMemory_outside (h.paging.bufs_apart hheld hlast hcl x hx)
      (h.paging.bufs_apart hheld hb hcb x hx)
  obtain ⟨hbeside, hnodes⟩ := h.linked hlast hb
  refine ⟨⟨hbeside.paging h.paging.forest hnodes, ?_, ?_, ?_, ?_⟩,
    hbeside.zeroed⟩
  · have hlt := (h.paging.buf_direct hb).bounds
    have hlink : bufNext (linkedMemory k.mem last buf) last = buf :=
      linkedMemory_link (by omega) hapart
    have hend := (linkedMemory_next hapart).trans hnext
    have hall := h.bufs.linked.extend hlink
      (h.paging.buf_direct hb).ne_zero hend fun c hc =>
        bufNext_congr (hkept c (by simp [hc]) (hpre c hc))
    simpa using hall
  · rw [back_append]
    refine ⟨h.bufs.back.congr fun c hc => ?_, ?_, trivial⟩
    · by_cases hcl : c = last
      · subst hcl
        exact linkedMemory_prev (h.paging.bufs_apart hlast hb (Ne.symm hne))
      · exact bufPrev_congr (hkept c hc hcl)
    · have hlt := (h.paging.buf_direct hlast).bounds
      rw [List.getLastD_concat]
      exact linkedMemory_back (by omega)
  · intro c hc
    rcases List.mem_append.mp hc with hc | hc
    · exact h.bufs.held c hc
    · obtain rfl := List.mem_singleton.mp hc
      exact hb
  · exact hnodup.append (List.nodup_singleton buf)
      (List.disjoint_singleton.mpr hnew)

/-- The call that queues a buffer returns and keeps what its links hold; where
that is zero the queue has the buffer behind the others. -/
theorem ListsAt.enqueue (h : ListsAt k s queue queued)
    (hb : Held s.chunks (bufBlock buf)) (hnew : buf ∉ queued) (count : Nat) :
    ∃ k' queue', Settles (fun fuel => enqueueBuf fuel ⟨k, queue, count⟩ buf)
        (.ok ⟨k', queue', u32 (count + 1)⟩) ∧
      bufNext k'.mem buf = bufNext k.mem buf ∧
      (queued = [] → bufPrev k'.mem buf = bufPrev k.mem buf) ∧
      (bufNext k.mem buf = 0 → (queued = [] → bufPrev k.mem buf = 0) →
        ListsAt k' s queue' (queued ++ [buf]) ∧
          (Zeroed k s.chunks → Zeroed k' s.chunks)) := by
  rcases List.eq_nil_or_concat queued with rfl | ⟨pre, last, hqueued⟩
  · have hempty : queue = 0 := h.bufs.linked
    refine ⟨k, buf, ?_, rfl, fun _ => rfl,
      fun hnext hprev => ⟨h.enqueue_first hb hnext (hprev rfl), fun hz => hz⟩⟩
    simp only [enqueueBuf, hempty, ↓reduceIte]
    exact settles_const _
  · rw [List.concat_eq_append] at hqueued
    subst hqueued
    obtain ⟨hpos, hwalk⟩ := lastBuf_settles h rfl
    have hlast := h.bufs.held last (by simp)
    have hne : buf ≠ last := fun heq => hnew (by simp [heq])
    have hlink := storeWord_direct
      ((h.paging.buf_direct hlast).word 16 (by omega))
    have hback := storeWord_direct ((h.paging.buf_direct hb).word 12 (by omega))
    refine ⟨k.setMem (linkedMemory k.mem last buf), queue, ?_,
      linkedMemory_next (h.paging.bufs_apart hb hlast hne),
      fun hnil => absurd hnil (by simp),
      fun hnext _ => h.enqueue_behind hb hnew hnext⟩
    simp only [enqueueBuf, if_neg hpos]
    apply Settles.bind hwalk
    simp only [hlink, hback, Bind.bind, Except.bind, Kernel.setMem_mem,
      Kernel.setMem_setMem]
    exact settles_const _

end Enqueueing

section Reading

variable {k : Kernel} {s : Paging} {queue buf count name fuel dev blockno : Nat}
  {queued : List Nat} {r : BufKernel}

theorem enqueueBuf_stable (b : BufKernel) (buf : Nat) :
    Stable Halt.spin (fun fuel => enqueueBuf fuel b buf) := by
  unfold enqueueBuf
  split_ifs
  · exact stable_const _ _
  · refine Stable.bind (loop_stable
      (fun header => stable_const Halt.spin (lastBufBody b.kernel header)) _)
      fun header => ?_
    exact stable_const _ _

/-- A buffer that is held while the lock for it is taken and both are filled:
its links stay what they are. -/
theorem ListsAt.fill (h : ListsAt k s queue queued)
    (hb : Held s.chunks (bufBlock buf)) (hnew : buf ∉ queued) {lock : Nat}
    (hl : Held s.chunks ⟨lock, lockSize⟩) (name dev blockno : Nat) :
    ∃ k', (do
        let k ← initlock k lock name
        fillBuf k buf lock dev blockno) = .ok k' ∧
      ListsAt k' s queue queued ∧ (Zeroed k s.chunks → Zeroed k' s.chunks) ∧
      bufNext k'.mem buf = bufNext k.mem buf ∧
      bufPrev k'.mem buf = bufPrev k.mem buf := by
  have hlock : Direct lock 8 :=
    h.paging.held_direct hl (show 0 < lockSize by decide)
  have hnot : ∀ {b : Block}, b.size ≠ lockSize → b ≠ ⟨lock, lockSize⟩ :=
    fun hsize heq => hsize (congrArg Block.size heq)
  obtain ⟨hfirst, hzeroed⟩ := h.write hl
    (fun hin => by
      obtain ⟨n, -, hn⟩ := List.mem_map.mp hin
      exact hnot (show mmapBlockSize ≠ lockSize by decide) hn)
    (fun hin => by
      obtain ⟨b, -, hb⟩ := List.mem_map.mp hin
      exact hnot (show bufSize ≠ lockSize by decide) hb)
    fun x => initlock_outside k.mem name
  obtain ⟨hsecond, hzeroed'⟩ := hfirst.write hb bufBlock_not_node
    (fun hin => by
      obtain ⟨c, hc, heq⟩ := List.mem_map.mp hin
      exact hnew (bufBlock_inj heq ▸ hc))
    fun x => filledBuf_outside _ lock dev blockno
  have hkept : ∀ x ∈ (bufBlock buf).bytes,
      store32 (store32 k.mem (lock + 4) name) lock 0 x = k.mem x := by
    intro x hx
    apply initlock_outside
    exact h.paging.heap.tiling.held_disjoint hb hl
      (hnot (show bufSize ≠ lockSize by decide)) x hx
  refine ⟨_, ?_, hsecond, fun hz => hzeroed' (hzeroed hz),
    filledBuf_next.trans (bufNext_congr hkept),
    filledBuf_prev.trans (bufPrev_congr hkept)⟩
  rw [initlock_direct hlock, ok_bind,
    fillBuf_direct (h.paging.buf_direct hb)]

/-- `kmalloc` has a buffer and a lock for `buf_read`; `k'` is the kernel once it
has given the buffer. -/
structure GetsBuffer (k : Kernel) (buf : Nat) (k' : Kernel) : Prop where
  buffer : Settles (fun fuel => kmalloc fuel k bufSize) (.ok (buf, k'))
  ne_zero : buf ≠ 0
  lock : ∃ lock k₂, lock ≠ 0 ∧
    Settles (fun fuel => kmalloc fuel k' lockSize) (.ok (lock, k₂))

theorem GetsBuffer.unique {k₁ k₁' : Kernel} {b : Nat} (h : GetsBuffer k buf k₁)
    (h' : GetsBuffer k b k₁') : buf = b ∧ k₁ = k₁' :=
  Prod.mk.inj (Except.ok.inj (h.buffer.unique h'.buffer))

/-- `buf_read` returned: it got no buffer or no lock, or the buffer is queued
with the links its block came with. -/
theorem ListsAt.read (h : ListsAt k s queue queued)
    (hcall : BufKernel.bufRead ⟨k, queue, count⟩ name fuel dev blockno =
      .ok (buf, r)) :
    ∃ s', s'.roots = s.roots ∧ s'.nodes = s.nodes ∧
      (buf = 0 ∧ (∀ b k₁, ¬ GetsBuffer k b k₁) ∧
        ListsAt r.kernel s' r.queue queued ∧
        (Zeroed k s.chunks → Zeroed r.kernel s'.chunks) ∨
      ∃ k₁, GetsBuffer k buf k₁ ∧
        bufNext r.kernel.mem buf = bufNext k₁.mem buf ∧
        (queued = [] → bufPrev r.kernel.mem buf = bufPrev k₁.mem buf) ∧
        (bufNext k₁.mem buf = 0 → (queued = [] → bufPrev k₁.mem buf = 0) →
          ListsAt r.kernel s' r.queue (queued ++ [buf]) ∧
            (Zeroed k s.chunks → Zeroed r.kernel s'.chunks))) := by
  obtain ⟨⟨b, k₁⟩, halloc, hcall⟩ := ok_of_bind hcall
  have hbuf := (kmalloc_stable k bufSize).settles halloc (by simp)
  obtain ⟨s₁, hanswer₁⟩ := h.alloc hbuf
  by_cases hb : b = 0
  · simp only [hb, ↓reduceIte] at hcall
    obtain ⟨rfl, rfl⟩ := Prod.mk.inj (Except.ok.inj hcall)
    refine ⟨s₁, hanswer₁.roots, hanswer₁.nodes,
      Or.inl ⟨rfl, ?_, hanswer₁.lists, hanswer₁.zeroed⟩⟩
    intro b' k₁' hgets
    have hnull := (Prod.mk.inj (Except.ok.inj
      (hgets.buffer.unique hbuf))).1
    exact hgets.ne_zero (hnull.trans hb)
  simp only [hb, ↓reduceIte] at hcall
  obtain ⟨⟨lock, k₂⟩, halloc, hcall⟩ := ok_of_bind hcall
  have hlock := (kmalloc_stable k₁ lockSize).settles halloc (by simp)
  obtain ⟨s₂, hanswer₂⟩ := hanswer₁.lists.alloc hlock
  have hroots := hanswer₂.roots.trans hanswer₁.roots
  have hnodes := hanswer₂.nodes.trans hanswer₁.nodes
  have hzeroed : Zeroed k s.chunks → Zeroed k₂ s₂.chunks := fun hz =>
    hanswer₂.zeroed (hanswer₁.zeroed hz)
  by_cases hl : lock = 0
  · simp only [hl, ↓reduceIte] at hcall
    obtain ⟨rfl, rfl⟩ := Prod.mk.inj (Except.ok.inj hcall)
    refine ⟨s₂, hroots, hnodes, Or.inl ⟨rfl, ?_, hanswer₂.lists, hzeroed⟩⟩
    intro b' k₁' hgets
    obtain ⟨rfl, rfl⟩ := Prod.mk.inj (Except.ok.inj (hgets.buffer.unique hbuf))
    obtain ⟨lock', k₂', hne, hlock'⟩ := hgets.lock
    have hnull := (Prod.mk.inj (Except.ok.inj (hlock'.unique hlock))).1
    exact hne (hnull.trans hl)
  simp only [hl, ↓reduceIte] at hcall
  have hnew : b ∉ queued := fun hin =>
    (hanswer₁.others _ (h.bufs.held b hin)).2.1 hb rfl
  obtain ⟨hheld, -, hsame⟩ := hanswer₂.others _ (hanswer₁.granted hb)
  obtain ⟨k₃, hfill, hlists, hfilled, hnext, hprev⟩ :=
    hanswer₂.lists.fill hheld hnew (hanswer₂.granted hl) name dev blockno
  obtain ⟨k', queue', henqueue, hnext', hprev', hentered⟩ :=
    hlists.enqueue hheld hnew count
  obtain ⟨k₂', hinit, hcall⟩ := ok_of_bind hcall
  obtain ⟨k₃', hfill', hcall⟩ := ok_of_bind hcall
  obtain ⟨r', hqueued, hcall⟩ := ok_of_bind hcall
  obtain ⟨rfl, rfl⟩ := Prod.mk.inj (Except.ok.inj hcall)
  rw [hinit, ok_bind, hfill'] at hfill
  obtain rfl := Except.ok.inj hfill
  obtain rfl := Except.ok.inj
    ((enqueueBuf_stable _ _).eq_of_settles hqueued (by simp) henqueue)
  have hbytes : bufNext k₃'.mem b = bufNext k₁.mem b ∧
      bufPrev k₃'.mem b = bufPrev k₁.mem b :=
    ⟨hnext.trans (bufNext_congr hsame), hprev.trans (bufPrev_congr hsame)⟩
  refine ⟨s₂, hroots, hnodes, Or.inr ⟨k₁, ⟨hbuf, hb, lock, k₂, hl, hlock⟩,
    hnext'.trans hbytes.1, fun hnil => (hprev' hnil).trans hbytes.2, ?_⟩⟩
  intro hblank hfirst
  obtain ⟨hlists', hentered'⟩ := hentered (hbytes.1.trans hblank) fun hnil =>
    hbytes.2.trans (hfirst hnil)
  exact ⟨hlists', fun hz => hentered' (hfilled (hzeroed hz))⟩

/-- Where free memory is zero so are the links of a new buffer. -/
theorem GetsBuffer.blank {k' : Kernel} (h : Pooled k s)
    (hz : Zeroed k s.chunks) (hgets : GetsBuffer k buf k') :
    bufNext k'.mem buf = 0 ∧ bufPrev k'.mem buf = 0 := by
  obtain ⟨chunks', fresh, hmove, hgrant, -⟩ :=
    Beside.alloc h hgets.buffer hgets.ne_zero
  have hfresh : ∀ page ∈ fresh, ∀ x ∈ pageExtent page, k.mem x = 0 := by
    intro page hpage
    apply hz.2
    rw [hmove.taken]
    exact List.mem_append_left _ hpage
  obtain ⟨-, hblock⟩ := hgrant.zeroed hz.1 hfresh
  have hzero : ∀ x, buf ≤ x → x < buf + 1048 → k'.mem x = 0 := fun x hlo hhi =>
    hblock x (mem_bufBlock.mpr ⟨hlo, hhi⟩)
  exact ⟨load32_eq_zero fun x hlo hhi => hzero x (by omega) (by omega),
    load32_eq_zero fun x hlo hhi => hzero x (by omega) (by omega)⟩

end Reading

end Linda
