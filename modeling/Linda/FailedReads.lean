/-
buf_read when a block is missing: what a call that answers NULL leaves behind,
read off the chunk list before it.
-/
import Linda.BufLinks
import Linda.HeapRequests

namespace Linda

open ByteMemory IntervalCover LinkedSegment FuelLoop

/-- What ends a disk call on the memory of the kernel. -/
inductive IdeHalt where
  | kernel (why : Halt)
  | disk (why : DiskHalt)
deriving Repr, DecidableEq

/-- The kernel with `bufs` and `idelock`, the interrupt flag and the commands
given to the drive. -/
structure IdeKernel where
  bufs : BufKernel
  idelock : Nat
  irq : IrqState
  commands : List (Nat × Command)

def onKernel {α : Type} (x : Except Halt α) : Except IdeHalt α :=
  x.mapError .kernel

namespace IdeKernel

/-- `acquire`, `locked` being the first word of a lock. -/
def acquire (s : IdeKernel) (lock : Nat) : Except IdeHalt IdeKernel := do
  let s := { s with irq := s.irq.pushcli }
  let locked ← onKernel (loadWord s.bufs.kernel lock)
  if locked ≠ 0 then .error (.disk .acquireLocked)
  else do
    let k ← onKernel (storeWord s.bufs.kernel lock 1)
    .ok { s with bufs.kernel := k }

/-- What `ide_execute` reads of a buffer. -/
def loadBuf (k : Kernel) (b : Nat) : Except Halt Buf := do
  let blockno ← loadWord k (b + 8)
  let dev ← loadWord k (b + 4)
  let flags ← loadWord k b
  .ok { zeroBuf with
    flags := UInt32.ofNat flags
    dev := UInt32.ofNat dev
    blockno := UInt32.ofNat blockno
    data := fun i => k.mem (b + 24 + i) }

/-- `ide_execute` -/
def execute (s : IdeKernel) : Except IdeHalt IdeKernel := do
  let s ← s.acquire s.idelock
  if s.bufs.queue = 0 then .ok s
  else do
    let buf ← onKernel (loadBuf s.bufs.kernel s.bufs.queue)
    .ok { s with
      commands := s.commands ++ [(s.bufs.queue, ideCommand buf)] }

/-- `buf_read`; returns the buffer, `0` for `NULL`. -/
def bufRead (s : IdeKernel) (name fuel dev blockno : Nat) :
    Except IdeHalt (Nat × IdeKernel) := do
  let (buf, bufs) ← onKernel (s.bufs.bufRead name fuel dev blockno)
  let s := { s with bufs := bufs }
  if buf = 0 then .ok (0, s)
  else do
    let s ← s.execute
    .ok (buf, s)

end IdeKernel

/-- No free chunk has `size` bytes, and the list does not grow: its last chunk
is used, or a page is left and the glue pass after the growth swallows it. -/
def Refused (size : Nat) (pages : List Nat) (chunks : List Chunk) : Prop :=
  (∀ c ∈ chunks, c.free = true → c.size < size) ∧
    ∃ front last, chunks = front ++ [last] ∧
      (last.free = false ∨ lastMerges chunks = true ∧ pages ≠ [])

/-- The chunks a served request makes of the one it takes. -/
def Chunk.cut (c : Chunk) (size : Nat) : List Chunk :=
  if c.size = size then [{ c with free := false }]
  else [c.taken size, c.leftover size]

/-- One chunk serves the buffer, and what it leaves has no room for the
lock. -/
def Leaks (pages : List Nat) (chunks : List Chunk) : Prop :=
  ∃ pre c post, chunks = pre ++ c :: post ∧ c.offers bufSize = true ∧
    c.Fits bufSize ∧ Refused lockSize pages (pre ++ c.cut bufSize ++ post)

/-- The call left the blocks in use, what clients keep in them, the queue and
the lock as they were. -/
structure Traceless (chunks : List Chunk) (s s' : IdeKernel) : Prop where
  live : ∀ chunks', ChunkList s'.bufs.kernel.mem s'.bufs.kernel.kmemList chunks' →
    usedChunks chunks' = usedChunks chunks
  contents : ∀ c ∈ usedChunks chunks, ∀ x ∈ c.block,
    s'.bufs.kernel.mem x = s.bufs.kernel.mem x
  queue : s'.bufs.queue = s.bufs.queue
  count : s'.bufs.count = s.bufs.count
  idelock : s'.idelock = s.idelock
  irq : s'.irq = s.irq
  commands : s'.commands = s.commands

section Answers

variable {size : Nat} {pages : List Nat} {pre suf post chunks : List Chunk}
  {c : Chunk}

theorem Refused.not_offers (h : Refused size pages chunks) (hc : c ∈ chunks) :
    c.offers size = false := by
  rw [Chunk.offers, Bool.and_eq_false_iff, decide_eq_false_iff_not]
  cases hfree : c.free with
  | false => exact Or.inl rfl
  | true =>
      have hsmall := h.1 c hc hfree
      exact Or.inr (by omega)

/-- Without a page the list ends where it ends. -/
theorem request_isRefuse_noPage (hsuf : suf ≠ []) :
    (request size [] pre suf).IsRefuse ↔
      (∀ c ∈ suf, c.free = true → c.size < size) ∧
        ∃ front last, pre ++ suf = front ++ [last] ∧ last.free = false := by
  induction suf generalizing pre with
  | nil => exact absurd rfl hsuf
  | cons c post ih =>
      by_cases hoffer : c.offers size = true
      · have hnot : ¬ (request size [] pre (c :: post)).IsRefuse :=
          (request_offer hoffer).2
        simp only [Chunk.offers, Bool.and_eq_true, decide_eq_true_eq] at hoffer
        refine iff_of_false hnot fun hstuck => ?_
        have hsmall := hstuck.1 c List.mem_cons_self hoffer.1
        omega
      · rw [Bool.not_eq_true] at hoffer
        rw [request_pass hoffer]
        have hsmall : c.free = true → c.size < size := by
          intro hfree
          simpa [Chunk.offers, hfree] using hoffer
        by_cases hlast : c.free = true ∧ post = []
        · obtain ⟨hfree, rfl⟩ := hlast
          rw [if_pos ⟨hfree, rfl⟩, growAnswer]
          refine iff_of_false id ?_
          rintro ⟨-, front, last, heq, hused⟩
          obtain ⟨-, hlast⟩ := List.append_inj' heq rfl
          obtain rfl : c = last := by simpa using hlast
          rw [hfree] at hused
          cases hused
        · rw [if_neg hlast]
          by_cases hpost : post = []
          · subst hpost
            have hused : c.free = false := by simpa using hlast
            simp [request_nil, Answer.IsRefuse, hused]
          · rw [ih hpost]
            simp only [List.append_assoc, List.singleton_append,
              List.mem_cons, forall_eq_or_imp]
            exact and_congr_left fun _ => ⟨fun h => ⟨hsmall, h⟩, fun h => h.2⟩

/-- Exactly the refused requests are answered with `NULL`. -/
theorem kmallocAnswer_isRefuse_iff
    (hnodup : (chunks.map Chunk.base ++ pages).Nodup)
    (hsize : size ≤ pgSize - headerSize) :
    (kmallocAnswer size pages chunks).IsRefuse ↔ Refused size pages chunks := by
  cases pages with
  | cons page pages =>
      rw [kmallocAnswer_isRefuse hnodup hsize]
      simp [Stuck, Refused]
  | nil =>
      cases chunks with
      | nil => simp [kmallocAnswer, Answer.IsRefuse, Refused]
      | cons c rest =>
          have hnoPage : (request size [] [] (c :: rest)).IsRefuse ↔ _ :=
            request_isRefuse_noPage (List.cons_ne_nil c rest)
          refine hnoPage.trans ?_
          simp [Refused]

theorem request_cut (hoffer : c.offers size = true) (hfits : c.Fits size) :
    request size pages pre (c :: post) =
      .grant (pre ++ c.cut size ++ post) c.payload pages := by
  simp only [Chunk.offers, Bool.and_eq_true, decide_eq_true_eq] at hoffer
  obtain ⟨hfree, -⟩ := hoffer
  rw [request_eq, walk, if_neg (by simp [hfree]), Chunk.cut]
  rcases hfits with hexact | hlarge
  · rw [if_neg (by omega), if_pos hexact, if_pos hexact]
    simp
  · have hmore : size < c.size := by omega
    rw [if_pos hmore, if_neg (by omega), if_neg (by omega)]
    simp

/-- The walk passes the chunks that offer nothing. -/
theorem request_skip (hpass : ∀ c ∈ post, c.offers size = false)
    (hsuf : suf ≠ []) :
    request size pages pre (post ++ suf) = request size pages (pre ++ post) suf := by
  induction post generalizing pre with
  | nil => simp
  | cons c post ih =>
      obtain ⟨hc, hpost⟩ := List.forall_mem_cons.mp hpass
      have hmore : post ++ suf ≠ [] := by simp [hsuf]
      rw [List.cons_append, request_pass hc, if_neg (by simp [hmore]), ih hpost]
      simp

/-- A request served by a chunk with room for much more leaves a free chunk
with room for the lock. -/
theorem request_ample {chunks' : List Chunk} {addr : Nat} {left : List Nat}
    (hfree : c.free = true) (hroom : 2048 ≤ c.size)
    (hgrant : request bufSize pages pre (c :: post) = .grant chunks' addr left) :
    ∃ d ∈ chunks', d.free = true ∧ lockSize ≤ d.size := by
  have hbuf : bufSize = 1048 := rfl
  have hlock : lockSize = 8 := rfl
  have hheader : headerSize = 16 := rfl
  have hoffer : c.offers bufSize = true := by
    rw [Chunk.offers, hfree, Bool.true_and, decide_eq_true_eq]
    omega
  have hfits : c.Fits bufSize := Or.inr (by omega)
  rw [request_cut hoffer hfits, Chunk.cut, if_neg (by omega)] at hgrant
  obtain ⟨rfl, -, -⟩ := Answer.grant.inj hgrant
  refine ⟨c.leftover bufSize, by simp, rfl, ?_⟩
  simp only [Chunk.leftover]
  omega

theorem ofPage_ample (page : Nat) : 2048 ≤ (Chunk.ofPage page).size :=
  show 2048 ≤ 4080 by decide

/-- What the page of a growth leaves has room for the lock. -/
theorem growAnswer_room {front chunks' : List Chunk} {last : Chunk} {addr : Nat}
    {left : List Nat} (hnodup : ((front ++ [last]).map Chunk.base ++ pages).Nodup)
    (hlast : last.offers bufSize = false)
    (hgrant : growAnswer bufSize pages front last = .grant chunks' addr left) :
    ∃ d ∈ chunks', d.free = true ∧ lockSize ≤ d.size := by
  cases pages with
  | nil => cases hgrant
  | cons page pages =>
      have hpage := ofPage_ample page
      rw [growAnswer, grown_cases hnodup] at hgrant
      split_ifs at hgrant with hswallow hmerge
      · rw [request_nil] at hgrant
        cases hgrant
      · refine request_ample rfl ?_ hgrant
        simp only [Chunk.absorb]
        omega
      · rw [request_pass hlast, if_neg (by simp)] at hgrant
        exact request_ample rfl hpage hgrant

theorem request_room {chunks' : List Chunk} {addr : Nat} {left : List Nat}
    (hnodup : ((pre ++ suf).map Chunk.base ++ pages).Nodup)
    (hpass : ∀ c ∈ suf, c.offers bufSize = false)
    (hgrant : request bufSize pages pre suf = .grant chunks' addr left) :
    ∃ d ∈ chunks', d.free = true ∧ lockSize ≤ d.size := by
  induction suf generalizing pre with
  | nil =>
      rw [request_nil] at hgrant
      cases hgrant
  | cons c post ih =>
      obtain ⟨hc, hpost⟩ := List.forall_mem_cons.mp hpass
      rw [request_pass hc] at hgrant
      split_ifs at hgrant with hlast
      · obtain ⟨-, rfl⟩ := hlast
        exact growAnswer_room hnodup hc hgrant
      · exact ih (by simpa using hnodup) hpost hgrant

/-- The buffer is granted and the lock refused exactly where the list leaks. -/
theorem leaks_iff (hnodup : (chunks.map Chunk.base ++ pages).Nodup) :
    Leaks pages chunks ↔ ∃ chunks' addr left,
      kmallocAnswer bufSize pages chunks = .grant chunks' addr left ∧
        Refused lockSize left chunks' := by
  have hroomy : ∀ {chunks' : List Chunk} {left : List Nat},
      (∃ d ∈ chunks', d.free = true ∧ lockSize ≤ d.size) →
        ¬ Refused lockSize left chunks' := by
    rintro chunks' left ⟨d, hd, hfree, hsize⟩ hrefused
    have hsmall := hrefused.1 d hd hfree
    omega
  constructor
  · rintro ⟨pre, c, post, rfl, hoffer, hfits, hrefused⟩
    refine ⟨_, c.payload, pages, ?_, hrefused⟩
    have hsmall : ∀ d ∈ pre, d.offers bufSize = false := by
      intro d hd
      have hnot := hrefused.not_offers (c := d) (by simp [hd])
      rw [Chunk.offers, Bool.and_eq_false_iff, decide_eq_false_iff_not] at hnot ⊢
      have hbuf : bufSize = 1048 := rfl
      have hlock : lockSize = 8 := rfl
      exact hnot.imp_right fun hlt => by omega
    have hanswer : kmallocAnswer bufSize pages (pre ++ c :: post) =
        request bufSize pages [] (pre ++ c :: post) := by
      cases pre <;> rfl
    rw [hanswer, request_skip hsmall (List.cons_ne_nil c post), List.nil_append,
      request_cut hoffer hfits]
  · rintro ⟨chunks', addr, left, hgrant, hrefused⟩
    cases chunks with
    | nil =>
        cases pages with
        | nil => cases hgrant
        | cons page pages =>
            exact absurd hrefused (hroomy (request_ample rfl (ofPage_ample page) hgrant))
    | cons e rest =>
        have hgrant' : request bufSize pages [] (e :: rest) =
            .grant chunks' addr left := hgrant
        cases hfind : (e :: rest).find? fun c => c.offers bufSize with
        | none =>
            have hpass : ∀ c ∈ e :: rest, c.offers bufSize = false := fun c hc =>
              by simpa using List.find?_eq_none.mp hfind c hc
            exact absurd hrefused (hroomy (request_room hnodup hpass hgrant'))
        | some c =>
            obtain ⟨hoffer, pre, post, heq, hpass⟩ :=
              List.find?_eq_some_iff_append.mp hfind
            rw [heq, request_skip (by simpa using hpass)
              (List.cons_ne_nil c post), List.nil_append] at hgrant'
            have hfits : c.Fits bufSize := by
              by_contra hgap
              have hanswer : (request bufSize pages pre (c :: post)).IsGap :=
                (request_offer hoffer).1.mpr hgap
              rw [hgrant'] at hanswer
              exact hanswer
            rw [request_cut hoffer hfits] at hgrant'
            obtain ⟨rfl, -, rfl⟩ := Answer.grant.inj hgrant'
            exact ⟨pre, c, post, heq, hoffer, hfits, hrefused⟩

end Answers

section Calls

variable {k k' : Kernel} {s s' : IdeKernel} {chunks : List Chunk}
  {pages : List Nat} {name fuel dev blockno : Nat}

/-- A call of `kmalloc` that returned, by its answer. -/
theorem kmalloc_answered {size addr : Nat} (h : HeapReady k chunks pages)
    (hcall : kmalloc fuel k size = .ok (addr, k')) :
    ∃ chunks' fresh, HeapMove k chunks pages k' chunks' fresh ∧
      (addr = 0 ∧ kmallocAnswer size (availablePages k.kvmlist) chunks =
          .refuse chunks' (availablePages k'.kvmlist) ∨
        addr ≠ 0 ∧ kmallocAnswer size (availablePages k.kvmlist) chunks =
          .grant chunks' addr (availablePages k'.kvmlist)) := by
  obtain ⟨r, hsettles, hmeets⟩ := kmalloc_settles size h
  have hr : .ok (addr, k') = r :=
    (kmalloc_stable k size).eq_of_settles hcall (by simp) hsettles
  subst hr
  have hused := kmallocAnswer_used size (availablePages k.kvmlist) chunks
  cases hans : kmallocAnswer size (availablePages k.kvmlist) chunks with
  | grant chunks' a left =>
      rw [hans] at hmeets hused
      obtain ⟨k₁, fresh, heq, hleft, hmove⟩ := hmeets
      obtain ⟨rfl, rfl⟩ := Prod.mk.inj (Except.ok.inj heq)
      obtain ⟨c, hpayload, -⟩ := hused
      refine ⟨chunks', fresh, hmove, Or.inr ⟨?_, by rw [hleft]⟩⟩
      simp only [Chunk.payload, headerSize] at hpayload
      omega
  | refuse chunks' left =>
      rw [hans] at hmeets
      obtain ⟨k₁, fresh, heq, hleft, hmove⟩ := hmeets
      obtain ⟨rfl, rfl⟩ := Prod.mk.inj (Except.ok.inj heq)
      exact ⟨chunks', fresh, hmove, Or.inl ⟨rfl, by rw [hleft]⟩⟩
  | gap =>
      rw [hans] at hmeets
      cases hmeets
  | noPage =>
      rw [hans] at hmeets
      cases hmeets

theorem kmalloc_more {size fuel' : Nat} {answer : Nat × Kernel}
    (hcall : kmalloc fuel k size = .ok answer) (hle : fuel ≤ fuel') :
    kmalloc fuel' k size = .ok answer :=
  ((kmalloc_stable k size).of_le hle (by simp [hcall])).trans hcall

theorem Answer.IsRefuse.eq {answer : Answer} (h : answer.IsRefuse) :
    ∃ chunks left, answer = .refuse chunks left := by
  cases answer with
  | refuse chunks left => exact ⟨chunks, left, rfl⟩
  | grant => exact h.elim
  | gap => exact h.elim
  | noPage => exact h.elim

theorem onKernel_ok {α : Type} {x : Except Halt α} {a : α} :
    onKernel x = .ok a ↔ x = .ok a := by
  cases x <;> simp [onKernel, Except.mapError]

/-- `buf_read` answers `NULL` when one of its two requests is refused. -/
theorem bufRead_null_iff :
    s.bufRead name fuel dev blockno = .ok (0, s') ↔
      ∃ buf k₁, kmalloc fuel s.bufs.kernel bufSize = .ok (buf, k₁) ∧
        (buf = 0 ∧ s' = { s with bufs.kernel := k₁ } ∨
          buf ≠ 0 ∧ ∃ k₂, kmalloc fuel k₁ lockSize = .ok (0, k₂) ∧
            s' = { s with bufs.kernel := k₂ }) := by
  constructor
  · intro hcall
    obtain ⟨⟨addr, bufs⟩, hbufs, hcall⟩ := ok_of_bind hcall
    rw [onKernel_ok] at hbufs
    have haddr : addr = 0 ∧ s' = { s with bufs := bufs } := by
      by_cases haddr : addr = 0
      · simp only [haddr, ↓reduceIte] at hcall
        exact ⟨haddr, (Prod.mk.inj (Except.ok.inj hcall)).2.symm⟩
      · simp only [haddr, ↓reduceIte] at hcall
        obtain ⟨s₁, -, hcall⟩ := ok_of_bind hcall
        exact absurd (Prod.mk.inj (Except.ok.inj hcall)).1 haddr
    obtain ⟨rfl, rfl⟩ := haddr
    obtain ⟨⟨buf, k₁⟩, hbuf, hbufs⟩ := ok_of_bind hbufs
    refine ⟨buf, k₁, hbuf, ?_⟩
    by_cases hb : buf = 0
    · simp only [hb, ↓reduceIte] at hbufs
      obtain rfl := (Prod.mk.inj (Except.ok.inj hbufs)).2
      exact Or.inl ⟨hb, rfl⟩
    · simp only [hb, ↓reduceIte] at hbufs
      obtain ⟨⟨lock, k₂⟩, hlock, hbufs⟩ := ok_of_bind hbufs
      by_cases hl : lock = 0
      · simp only [hl, ↓reduceIte] at hbufs
        obtain rfl := (Prod.mk.inj (Except.ok.inj hbufs)).2
        exact Or.inr ⟨hb, k₂, hl ▸ hlock, rfl⟩
      · simp only [hl, ↓reduceIte] at hbufs
        obtain ⟨k₃, -, hbufs⟩ := ok_of_bind hbufs
        obtain ⟨k₄, -, hbufs⟩ := ok_of_bind hbufs
        obtain ⟨b, -, hbufs⟩ := ok_of_bind hbufs
        exact absurd (Prod.mk.inj (Except.ok.inj hbufs)).1 hb
  · rintro ⟨buf, k₁, hbuf, ⟨rfl, rfl⟩ | ⟨hb, k₂, hlock, rfl⟩⟩
    · simp only [IdeKernel.bufRead, BufKernel.bufRead, hbuf, ok_bind, ↓reduceIte,
        onKernel, Except.mapError]
    · simp only [IdeKernel.bufRead, BufKernel.bufRead, hbuf, ok_bind, hb, hlock,
        ↓reduceIte, onKernel, Except.mapError]

/-- What a request that was refused did to the heap. -/
theorem HeapMove.traceless {chunks' : List Chunk} {fresh : List Nat}
    (h : HeapReady s.bufs.kernel chunks pages)
    (hmove : HeapMove s.bufs.kernel chunks pages k' chunks' fresh)
    (hused : usedChunks chunks' = usedChunks chunks) :
    Traceless chunks s { s with bufs.kernel := k' } where
  live l hl := by
    rw [hl.unique hmove.ready.heap.list, hused]
  contents c hc x hx := by
    obtain ⟨hin, hfree⟩ := mem_usedChunks.mp hc
    exact hmove.block_kept h hin hfree hx
  queue := rfl
  count := rfl
  idelock := rfl
  irq := rfl
  commands := rfl

/-- A buffer that stays behind is one more block in use. -/
theorem HeapMove.not_traceless {chunks₁ chunks₂ : List Chunk} {k₁ k₂ : Kernel}
    {fresh fresh₁ : List Nat} {addr : Nat}
    (hgrant : Grants bufSize chunks addr chunks₁)
    (hmove : HeapMove k₁ chunks₁ (pages ++ fresh) k₂ chunks₂ fresh₁)
    (hused : usedChunks chunks₂ = usedChunks chunks₁) :
    ¬ Traceless chunks s { s with bufs.kernel := k₂ } := by
  intro htrace
  obtain ⟨c, -, -, -, hperm⟩ := hgrant
  have hsame := htrace.live chunks₂ hmove.ready.heap.list
  have hlength := hperm.length_eq
  rw [← hused, hsame, List.length_cons] at hlength
  omega

end Calls

/-- In every history of the heap, whatever the queue is: a call of `buf_read`
that answers `NULL` leaves no trace, unless one chunk serves the buffer and
nothing is left for the lock. -/
theorem bufRead_traceless_iff {r₀ r : HeapRun} (hstart : r₀.Initial)
    (hrun : Relation.ReflTransGen HeapStep r₀ r) {chunks : List Chunk}
    (hlist : ChunkList r.kernel.mem r.kernel.kmemList chunks) {s : IdeKernel}
    (hkernel : s.bufs.kernel = r.kernel) (name dev blockno : Nat) :
    (∀ fuel s', s.bufRead name fuel dev blockno = .ok (0, s') →
      Traceless chunks s s') ↔
      ¬ Leaks (availablePages r.kernel.kvmlist) chunks := by
  obtain ⟨chunks₀, hvalid⟩ := HeapRun.valid_of_run hstart hrun
  obtain rfl := hlist.unique hvalid.ready.heap.list
  have hready : HeapReady s.bufs.kernel chunks r.pages := hkernel ▸ hvalid.ready
  rw [← hkernel, leaks_iff hready.nodup]
  have hlockSize : lockSize ≤ pgSize - headerSize := by decide
  constructor
  · rintro hall ⟨chunks₁, addr, left, hgrant, hrefused⟩
    obtain ⟨fuel₁, k₁, fresh, hbuf, rfl, hmove⟩ := kmalloc_of_grant hready hgrant
    obtain ⟨chunks₂, left, hrefuse⟩ := Answer.IsRefuse.eq
      ((kmallocAnswer_isRefuse_iff hmove.ready.nodup hlockSize).mpr hrefused)
    obtain ⟨fuel₂, k₂, hlock⟩ := kmalloc_of_refuse hmove.ready hrefuse
    have hgrants := kmallocAnswer_used bufSize
      (availablePages s.bufs.kernel.kvmlist) chunks
    have hused := kmallocAnswer_used lockSize (availablePages k₁.kvmlist) chunks₁
    rw [hgrant] at hgrants
    rw [hrefuse] at hused
    obtain ⟨chunks₃, fresh₁, hmove₁, ⟨-, hanswer⟩ | ⟨hne, -⟩⟩ :=
      kmalloc_answered hmove.ready hlock
    · rw [hrefuse] at hanswer
      obtain ⟨rfl, -⟩ := Answer.refuse.inj hanswer
      refine HeapMove.not_traceless hgrants hmove₁ hused
        (hall (max fuel₁ fuel₂) _ (bufRead_null_iff.mpr ⟨addr, k₁,
          kmalloc_more hbuf (Nat.le_max_left _ _), Or.inr ⟨?_, k₂,
          kmalloc_more hlock (Nat.le_max_right _ _), rfl⟩⟩))
      obtain ⟨c, hpayload, -⟩ := hgrants
      simp only [Chunk.payload, headerSize] at hpayload
      omega
    · exact absurd rfl hne
  · intro hno fuel s' hcall
    obtain ⟨buf, k₁, hbuf, hcase⟩ := bufRead_null_iff.mp hcall
    obtain ⟨chunks₁, fresh, hmove, hanswer⟩ := kmalloc_answered hready hbuf
    have hused := kmallocAnswer_used bufSize
      (availablePages s.bufs.kernel.kvmlist) chunks
    rcases hcase with ⟨rfl, rfl⟩ | ⟨hne, k₂, hlock, rfl⟩
    · rcases hanswer with ⟨-, hanswer⟩ | ⟨hne, -⟩
      · rw [hanswer] at hused
        exact hmove.traceless hready hused
      · exact absurd rfl hne
    · rcases hanswer with ⟨hnull, -⟩ | ⟨-, hgrant⟩
      · exact absurd hnull hne
      · refine absurd ⟨chunks₁, buf, _, hgrant, ?_⟩ hno
        rw [← kmallocAnswer_isRefuse_iff hmove.ready.nodup hlockSize]
        obtain ⟨chunks₂, -, -, ⟨-, hrefuse⟩ | ⟨hne', -⟩⟩ :=
          kmalloc_answered hmove.ready hlock
        · rw [hrefuse]
          trivial
        · exact absurd rfl hne'

/-- The disk side of a kernel before its first request. -/
def idleDisk (k : Kernel) : IdeKernel := ⟨⟨k, 0, 0⟩, 0, ⟨0, false, true⟩, []⟩

/-- With one block in use that fills the heap both requests would be refused:
the first is, and nothing has changed. -/
theorem bufRead_traceless_full : ∃ chunks s s' fuel,
    ChunkList s.bufs.kernel.mem s.bufs.kernel.kmemList chunks ∧
      s.bufRead 0 fuel 0 7 = .ok (0, s') ∧ Traceless chunks s s' := by
  obtain ⟨left, hleft⟩ := openKernel_pages
  have hgrant : kmallocAnswer 4080 (availablePages openKernel.kvmlist) [] =
      .grant [⟨kernBase, 4080, false⟩] (kernBase + 16)
        ((kernBase + pgSize) :: left) := by
    rw [hleft]
    rfl
  obtain ⟨fuel, k, fresh, hcall, havail, hmove⟩ :=
    kmalloc_of_grant openKernel_initial.valid.ready hgrant
  have hrefuse : kmallocAnswer bufSize (availablePages k.kvmlist)
      [⟨kernBase, 4080, false⟩] =
      .refuse [⟨kernBase, 4080, false⟩] ((kernBase + pgSize) :: left) := by
    rw [havail]
    rfl
  obtain ⟨fuel', k', hnull⟩ := kmalloc_of_refuse hmove.ready hrefuse
  have hread : (idleDisk k).bufRead 0 fuel' 0 7 =
      .ok (0, { idleDisk k with bufs.kernel := k' }) :=
    bufRead_null_iff.mpr ⟨0, k', hnull, Or.inl ⟨rfl, rfl⟩⟩
  have hno : ¬ Leaks (availablePages k.kvmlist) [⟨kernBase, 4080, false⟩] := by
    rintro ⟨pre, c, post, heq, hoffer, -⟩
    have hc : c ∈ [(⟨kernBase, 4080, false⟩ : Chunk)] := by simp [heq]
    obtain rfl := List.mem_singleton.mp hc
    cases hoffer
  refine ⟨_, _, _, fuel', hmove.ready.heap.list, hread, ?_⟩
  exact (bufRead_traceless_iff openKernel_initial
    (.single (HeapStep.alloc hcall)) hmove.ready.heap.list rfl 0 0 7).mpr hno
    fuel' _ hread

/-- `kmalloc(3016)`, then `buf_read`: what is left of the page is the buffer to
the byte, the lock is refused, and the buffer stays in use. -/
theorem bufRead_leaks :
    ¬ ∀ r₀ r : HeapRun, r₀.Initial → Relation.ReflTransGen HeapStep r₀ r →
      ∀ chunks, ChunkList r.kernel.mem r.kernel.kmemList chunks →
        ∀ (s s' : IdeKernel) (name fuel dev blockno : Nat),
          s.bufs.kernel = r.kernel →
          s.bufRead name fuel dev blockno = .ok (0, s') →
          Traceless chunks s s' := by
  intro hall
  obtain ⟨left, hleft⟩ := openKernel_pages
  have hgrant : kmallocAnswer 3016 (availablePages openKernel.kvmlist) [] =
      .grant [⟨kernBase, 3016, false⟩, ⟨kernBase + 3032, 1048, true⟩]
        (kernBase + 16) ((kernBase + pgSize) :: left) := by
    rw [hleft]
    rfl
  obtain ⟨fuel, k, fresh, hcall, havail, hmove⟩ :=
    kmalloc_of_grant openKernel_initial.valid.ready hgrant
  have hbuffer : kmallocAnswer bufSize (availablePages k.kvmlist)
      [⟨kernBase, 3016, false⟩, ⟨kernBase + 3032, 1048, true⟩] =
      .grant [⟨kernBase, 3016, false⟩, ⟨kernBase + 3032, 1048, false⟩]
        (kernBase + 3048) ((kernBase + pgSize) :: left) := by
    rw [havail]
    rfl
  obtain ⟨fuel₁, k₁, fresh₁, hbuf, havail₁, hmove₁⟩ :=
    kmalloc_of_grant hmove.ready hbuffer
  have hrefuse : kmallocAnswer lockSize (availablePages k₁.kvmlist)
      [⟨kernBase, 3016, false⟩, ⟨kernBase + 3032, 1048, false⟩] =
      .refuse [⟨kernBase, 3016, false⟩, ⟨kernBase + 3032, 1048, false⟩]
        ((kernBase + pgSize) :: left) := by
    rw [havail₁]
    rfl
  obtain ⟨fuel₂, k₂, hlock⟩ := kmalloc_of_refuse hmove₁.ready hrefuse
  have hread : (idleDisk k).bufRead 0 (max fuel₁ fuel₂) 0 7 =
      .ok (0, { idleDisk k with bufs.kernel := k₂ }) :=
    bufRead_null_iff.mpr ⟨_, k₁, kmalloc_more hbuf (Nat.le_max_left _ _),
      Or.inr ⟨by decide, k₂, kmalloc_more hlock (Nat.le_max_right _ _), rfl⟩⟩
  have htrace := hall _ _ openKernel_initial (.single (HeapStep.alloc hcall)) _
    hmove.ready.heap.list (idleDisk k) _ 0 _ 0 7 rfl hread
  obtain ⟨chunks', fresh₂, hmove₂, ⟨-, hanswer⟩ | ⟨hne, -⟩⟩ :=
    kmalloc_answered hmove₁.ready hlock
  · rw [hrefuse] at hanswer
    obtain ⟨rfl, -⟩ := Answer.refuse.inj hanswer
    have hlive := htrace.live _ hmove₂.ready.heap.list
    exact absurd (congrArg List.length hlive) (by decide)
  · exact absurd rfl hne

end Linda
