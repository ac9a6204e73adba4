/-
The disk request queue of buf.c: how requests are appended and taken out, and
the list of buffers it should be.
-/
import Linda.CallHistory
import Linda.FuelLoop
import Linda.LinkedSegment
import Mathlib.Data.List.Nodup
import Mathlib.Data.List.Perm.Subperm

namespace Linda

open CallHistory FuelLoop LinkedSegment

/-- A kernel pointer; 0 is `NULL`. -/
abbrev Ptr := UInt32

def bValid : UInt32 := (1 : UInt32) <<< 0
def bDirty : UInt32 := (1 : UInt32) <<< 1

/-- `struct buf`. -/
structure Buf where
  flags : UInt32
  dev : UInt32
  blockno : UInt32
  prev : Ptr
  next : Ptr
  lock : Ptr
  data : Nat → UInt8

/-- A block as `kmalloc` returns it. -/
def zeroBuf : Buf := ⟨0, 0, 0, 0, 0, 0, fun _ => 0⟩

/-- `bufs`, and the buffers in memory. -/
structure Bufs where
  queue : Ptr
  count : UInt32
  buf : Ptr → Buf

/-- What ends the disk code: `null` is an access through `NULL`, the panics
are those of spinlock.c, and `spin` a loop that outran its fuel. -/
inductive DiskHalt where
  | spin
  | null
  | acquireLocked
  | releaseFree
  | popEnabled
  | popEmpty
deriving Repr, DecidableEq

namespace Bufs

variable (s : Bufs)

def setBuf (b : Ptr) (buf : Buf) : Bufs :=
  { s with buf := fun p => if p = b then buf else s.buf p }

def next (p : Ptr) : Ptr := (s.buf p).next

def prev (p : Ptr) : Ptr := (s.buf p).prev

def setNext (b next : Ptr) : Bufs :=
  s.setBuf b { s.buf b with next := next }

def setPrev (b prev : Ptr) : Bufs :=
  s.setBuf b { s.buf b with prev := prev }

variable {s} {b q p : Ptr}

theorem setNext_next : (s.setNext b q).next p = if p = b then q else s.next p := by
  by_cases hp : p = b <;> simp [setNext, setBuf, next, hp]

@[simp] theorem setNext_prev : (s.setNext b q).prev p = s.prev p := by
  by_cases hp : p = b <;> simp [setNext, setBuf, prev, hp]

@[simp] theorem setPrev_next : (s.setPrev b q).next p = s.next p := by
  by_cases hp : p = b <;> simp [setPrev, setBuf, next, hp]

theorem setPrev_prev : (s.setPrev b q).prev p = if p = b then q else s.prev p := by
  by_cases hp : p = b <;> simp [setPrev, setBuf, prev, hp]

@[simp] theorem setNext_queue : (s.setNext b q).queue = s.queue := rfl
@[simp] theorem setPrev_queue : (s.setPrev b q).queue = s.queue := rfl
@[simp] theorem setNext_count : (s.setNext b q).count = s.count := rfl
@[simp] theorem setPrev_count : (s.setPrev b q).count = s.count := rfl

end Bufs

/-- `buf_init`. -/
def bufInit (s : Bufs) : Bufs := { s with queue := 0, count := 0 }

/-- What `buf_read` writes into its block. -/
def initBuf (s : Bufs) (b lock : Ptr) (dev blockno : UInt32) : Bufs :=
  s.setBuf b { s.buf b with blockno, dev, flags := bValid, lock }

/-- `while(header->next)` -/
def walkBody (s : Bufs) (header : Ptr) : Except DiskHalt (Ptr ⊕ Ptr) :=
  if s.next header ≠ 0 then .ok (.inl (s.next header))
  else .ok (.inr header)

/-- The part of `buf_read` and `buf_write` that queues the buffer. -/
def enqueue (fuel : Nat) (s : Bufs) (b : Ptr) : Except DiskHalt Bufs :=
  if s.queue = 0 then .ok { s with queue := b, count := s.count + 1 }
  else do
    let header ← loop .spin (walkBody s) fuel s.queue
    let s := (s.setNext header b).setPrev b header
    .ok { s with count := s.count + 1 }

/-- What `buf_remove` does with the buffer once it has met it. -/
def unlinkBuf (s : Bufs) (header : Ptr) : Bufs :=
  let s :=
    if s.prev header = 0 then
      if s.next header = 0 then { s with queue := 0 }
      else { s with queue := s.next header }
    else if s.next header = 0 then s.setNext (s.prev header) 0
    else
      let s := s.setNext (s.prev header) (s.next header)
      s.setPrev (s.next header) (s.prev header)
  { s with count := s.count - 1 }

def removeBody (s : Bufs) (b header : Ptr) : Except DiskHalt (Ptr ⊕ Bufs) :=
  if header = 0 then .ok (.inr s)
  else if header = b then .ok (.inr (unlinkBuf s header))
  else .ok (.inl (s.next header))

def bufRemove (fuel : Nat) (s : Bufs) (b : Ptr) : Except DiskHalt Bufs :=
  loop .spin (removeBody s b) fuel s.queue

def bufGet (s : Bufs) : Ptr := if s.queue ≠ 0 then s.queue else 0

/-- The calls that change the queue; `read` is `buf_read` with the blocks
`kmalloc` gave it. -/
inductive QueueCall where
  | read (b lock : Ptr) (dev blockno : UInt32)
  | write (b : Ptr)
  | remove (b : Ptr)
deriving Repr, DecidableEq

/-- A queue and the buffers enqueued and not yet removed, the oldest first. -/
structure QueueRun where
  bufs : Bufs
  queued : List Ptr

def queueCall (fuel : Nat) : QueueCall → QueueRun → Except DiskHalt QueueRun
  | .read b lock dev blockno, r => do
      let s := initBuf (r.bufs.setBuf b zeroBuf) b lock dev blockno
      .ok ⟨← enqueue fuel s b, r.queued ++ [b]⟩
  | .write b, r => do .ok ⟨← enqueue fuel r.bufs b, r.queued ++ [b]⟩
  | .remove b, r => do .ok ⟨← bufRemove fuel r.bufs b, r.queued.erase b⟩

/-- Buffers are enqueued while they are not queued, and removed while they
are. -/
def QueueCall.Allowed (queued : List Ptr) : QueueCall → Prop
  | .read b _ _ _ => b ≠ 0 ∧ b ∉ queued
  | .write b => b ≠ 0 ∧ b ∉ queued
  | .remove b => b ∈ queued

def QueueCall.after (queued : List Ptr) : QueueCall → List Ptr
  | .read b _ _ _ => queued ++ [b]
  | .write b => queued ++ [b]
  | .remove b => queued.erase b

def AllowedCalls : List QueueCall → List Ptr → Prop
  | [], _ => True
  | call :: calls, queued =>
      call.Allowed queued ∧ AllowedCalls calls (call.after queued)

/-- The queue is a doubly linked list of the buffers. -/
structure Represents (s : Bufs) (queued : List Ptr) : Prop where
  linked : Segment 0 s.next s.queue queued 0
  back : Back s.prev 0 queued
  nodup : queued.Nodup
  count : s.count.toNat = queued.length
  oldest : bufGet s = queued.headD 0

/-- No buffer is enqueued with links of its own, and the first of several is
not removed. -/
def LinksClear (r : QueueRun) : QueueCall → Prop
  | .read _ _ _ _ => True
  | .write b =>
      r.bufs.next b = 0 ∧ (r.queued = [] → r.bufs.prev b = 0)
  | .remove b => r.queued.head? = some b → r.queued = [b]

section Walks

variable {s : Bufs} {b : Ptr} {fuel : Nat}

theorem bufGet_eq (s : Bufs) : bufGet s = s.queue := by
  unfold bufGet
  split_ifs with h
  · rfl
  · exact (not_not.mp h).symm

/-- There are fewer pointers than 32-bit words. -/
theorem queued_length {queued : List Ptr} (hnodup : queued.Nodup)
    (hnull : 0 ∉ queued) : queued.length < 4294967296 := by
  have hall : (queued.map UInt32.toNat).Nodup := by
    apply hnodup.map_on
    intro p _ q _ hpq
    exact UInt32.toNat_inj.mp hpq
  have hzero : 0 ∉ queued.map UInt32.toNat := by
    intro hmem
    obtain ⟨p, hp, hpzero⟩ := List.mem_map.mp hmem
    have hp0 : p = 0 := UInt32.toNat_inj.mp hpzero
    exact hnull (hp0 ▸ hp)
  have hsub : 0 :: queued.map UInt32.toNat ⊆ List.range 4294967296 := by
    intro n hn
    rcases List.mem_cons.mp hn with rfl | hn
    · exact List.mem_range.mpr (by omega)
    · obtain ⟨p, -, rfl⟩ := List.mem_map.mp hn
      exact List.mem_range.mpr p.toNat_lt
  have hle :=
    (List.Nodup.subperm (List.nodup_cons.mpr ⟨hzero, hall⟩) hsub).length_le
  rw [List.length_cons, List.length_map, List.length_range] at hle
  omega

/-- The walk ends on the last buffer. -/
theorem walk_last {pre : List Ptr} {p a : Ptr}
    (hlinked : Segment 0 s.next p (pre ++ [a]) 0)
    (hfuel : pre.length < fuel) :
    loop .spin (walkBody s) fuel p = .ok a := by
  induction pre generalizing p fuel with
  | nil =>
      obtain ⟨fuel, rfl⟩ := Nat.exists_eq_add_of_lt hfuel
      obtain ⟨rfl, -, hend⟩ := hlinked
      have hnext : s.next p = 0 := hend
      rw [loop, walkBody, if_neg (not_not.mpr hnext)]
  | cons c rest ih =>
      obtain ⟨fuel, rfl⟩ := Nat.exists_eq_add_of_lt hfuel
      obtain ⟨rfl, -, hrest⟩ := hlinked
      have hnext : s.next p ≠ 0 := by
        intro hnull
        have hnil := (hrest.eq_nil_iff).mpr hnull
        exact List.append_ne_nil_of_right_ne_nil rest (List.cons_ne_nil a []) hnil
      rw [loop, walkBody, if_pos hnext]
      rw [List.length_cons] at *
      exact ih hrest (by omega)

/-- The search ends on the buffer. -/
theorem walk_remove {pre post : List Ptr} {p : Ptr}
    (hlinked : Segment 0 s.next p (pre ++ b :: post) 0)
    (hb : b ∉ pre) (hfuel : pre.length < fuel) :
    loop .spin (removeBody s b) fuel p = .ok (unlinkBuf s b) := by
  induction pre generalizing p fuel with
  | nil =>
      obtain ⟨fuel, rfl⟩ := Nat.exists_eq_add_of_lt hfuel
      obtain ⟨rfl, hne, -⟩ := hlinked
      rw [loop, removeBody, if_neg hne, if_pos rfl]
  | cons c rest ih =>
      obtain ⟨fuel, rfl⟩ := Nat.exists_eq_add_of_lt hfuel
      obtain ⟨rfl, hne, hrest⟩ := hlinked
      obtain ⟨hc, hrest'⟩ := not_or.mp (List.mem_cons.not.mp hb)
      rw [loop, removeBody, if_neg hne, if_neg (Ne.symm hc)]
      rw [List.length_cons] at *
      exact ih hrest hrest' (by omega)

end Walks

section Enqueueing

variable {s : Bufs} {queued : List Ptr} {b : Ptr} {fuel : Nat}

theorem Represents.notNull (h : Represents s queued) : 0 ∉ queued :=
  fun hmem => h.linked.ne_null hmem rfl

theorem Represents.queue_eq_zero (h : Represents s queued) :
    s.queue = 0 ↔ queued = [] := (h.linked.eq_nil_iff).symm

/-- One more buffer is counted. -/
theorem Represents.count_succ (h : Represents s queued) (hb : b ≠ 0)
    (hnew : b ∉ queued) :
    (s.count + 1).toNat = (queued ++ [b]).length := by
  have hnodup : (queued ++ [b]).Nodup := by
    rw [List.nodup_append]
    refine ⟨h.nodup, List.nodup_singleton b, ?_⟩
    rintro p hp q hq rfl
    rw [List.mem_singleton.mp hq] at hp
    exact hnew hp
  have hnull : 0 ∉ queued ++ [b] := by
    intro hmem
    rcases List.mem_append.mp hmem with hmem | hmem
    · exact h.notNull hmem
    · exact hb (List.mem_singleton.mp hmem).symm
  have hlt := queued_length hnodup hnull
  have hone : (1 : UInt32).toNat = 1 := rfl
  rw [List.length_append, List.length_singleton] at hlt ⊢
  rw [UInt32.toNat_add, h.count, hone]
  omega

/-- The first request of an empty queue. -/
theorem enqueue_empty (h : Represents s []) (hb : b ≠ 0) :
    ∃ s', enqueue fuel s b = .ok s' ∧
      (Represents s' [b] ↔ s.next b = 0 ∧ s.prev b = 0) := by
  have hqueue : s.queue = 0 := h.queue_eq_zero.mpr rfl
  refine ⟨_, if_pos hqueue, ?_⟩
  constructor
  · rintro ⟨hlinked, hback, -, -, -⟩
    exact ⟨hlinked.2.2, hback.1⟩
  · rintro ⟨hnext, hprev⟩
    refine ⟨⟨rfl, hb, hnext⟩, ⟨hprev, trivial⟩, List.nodup_singleton b, ?_, ?_⟩
    · exact h.count_succ hb List.not_mem_nil
    · exact bufGet_eq _

/-- A buffer hung behind the last one. -/
theorem Represents.append_iff {s' : Bufs} {pre : List Ptr} {a : Ptr}
    (h : Represents s (pre ++ [a])) (hb : b ≠ 0) (hnew : b ∉ pre ++ [a])
    (hnext : ∀ p, s'.next p = if p = a then b else s.next p)
    (hprev : ∀ p, s'.prev p = if p = b then a else s.prev p)
    (hqueue : s'.queue = s.queue) (hcount : s'.count = s.count + 1) :
    Represents s' (pre ++ [a] ++ [b]) ↔ s.next b = 0 := by
  have ha : b ≠ a := by
    rintro rfl
    exact hnew (List.mem_append_right pre List.mem_cons_self)
  have hapre : a ∉ pre := by
    have hnodup := h.nodup
    rw [List.nodup_append] at hnodup
    intro hmem
    exact hnodup.2.2 a hmem a List.mem_cons_self rfl
  have hsplit : pre ++ [a] ++ [b] = pre ++ [a, b] := by simp
  constructor
  · rintro ⟨hlinked, -, -, -, -⟩
    rw [hsplit, segment_middle] at hlinked
    have hend : s'.next b = 0 := hlinked.2.2.2.2
    rwa [hnext, if_neg ha] at hend
  · intro hend
    constructor
    · rw [hsplit, hqueue]
      apply h.linked.extend _ hb
      · rw [hnext, if_neg ha, hend]
      · intro c hc
        rw [hnext, if_neg]
        rintro rfl
        exact hapre hc
      · rw [hnext, if_pos rfl]
    · rw [back_append]
      constructor
      · apply h.back.congr
        intro c hc
        rw [hprev, if_neg]
        rintro rfl
        exact hnew hc
      · refine ⟨?_, trivial⟩
        rw [hprev, if_pos rfl]
        simp
    · rw [List.nodup_append]
      refine ⟨h.nodup, List.nodup_singleton b, ?_⟩
      rintro p hp q hq rfl
      rw [List.mem_singleton.mp hq] at hp
      exact hnew hp
    · rw [hcount]
      exact h.count_succ hb hnew
    · have hget := h.oldest
      rw [bufGet_eq] at hget ⊢
      rw [hqueue, hget]
      cases pre <;> rfl

/-- A request behind the others. -/
theorem enqueue_behind {pre : List Ptr} {a : Ptr}
    (h : Represents s (pre ++ [a])) (hb : b ≠ 0) (hnew : b ∉ pre ++ [a])
    (hfuel : pre.length < fuel) :
    ∃ s', enqueue fuel s b = .ok s' ∧
      (Represents s' (pre ++ [a] ++ [b]) ↔ s.next b = 0) := by
  have hqueue : s.queue ≠ 0 := by
    rw [Ne, h.queue_eq_zero]
    exact List.append_ne_nil_of_right_ne_nil pre (List.cons_ne_nil a [])
  have hcall : enqueue fuel s b = .ok
      { (s.setNext a b).setPrev b a with count := s.count + 1 } := by
    rw [enqueue, if_neg hqueue, walk_last h.linked hfuel, ok_bind]
    rfl
  refine ⟨_, hcall, h.append_iff hb hnew ?_ ?_ rfl rfl⟩
  · intro p
    exact Bufs.setPrev_next.trans Bufs.setNext_next
  · intro p
    exact Bufs.setPrev_prev.trans (by rw [Bufs.setNext_prev])

end Enqueueing

section Removing

variable {s s' : Bufs} {pre post queued : List Ptr} {a b c : Ptr} {fuel : Nat}

/-- One buffer less is counted. -/
theorem Represents.count_pred (h : Represents s queued) (hb : b ∈ queued) :
    (s.count - 1).toNat = (queued.erase b).length := by
  have hpos := List.length_pos_of_mem hb
  have hlt := s.count.toNat_lt
  have hone : (1 : UInt32).toNat = 1 := rfl
  rw [List.length_erase_of_mem hb, ← h.count]
  rw [← h.count] at hpos
  rw [UInt32.toNat_sub, hone]
  omega

theorem erase_middle (hb : b ∉ pre) :
    (pre ++ b :: post).erase b = pre ++ post := by
  rw [List.erase_append_right _ hb, List.erase_cons_head]

/-- Taking out the only buffer. -/
theorem unlinkBuf_only (h : Represents s [b]) :
    Represents (unlinkBuf s b) [] := by
  have hprev : s.prev b = 0 := h.back.1
  have hnext : s.next b = 0 := h.linked.2.2
  have hcount := h.count_pred List.mem_cons_self
  rw [List.erase_cons_head] at hcount
  rw [unlinkBuf, if_pos hprev, if_pos hnext]
  exact ⟨rfl, trivial, List.nodup_nil, hcount, rfl⟩

/-- The one behind a first buffer keeps its `prev`. -/
theorem unlinkBuf_first (h : Represents s (b :: c :: post)) :
    ¬ Represents (unlinkBuf s b) (c :: post) := by
  have hprev : s.prev b = 0 := h.back.1
  have hnext : s.next b = c := h.linked.2.2.1
  have hc : c ≠ 0 := h.linked.2.2.2.1
  have hback : s.prev c = b := h.back.2.1
  intro hrep
  rw [unlinkBuf, if_pos hprev, hnext, if_neg hc] at hrep
  have hnull : s.prev c = 0 := hrep.back.1
  rw [hback] at hnull
  exact h.notNull (hnull ▸ List.mem_cons_self)

/-- A buffer dropped from behind another one. -/
theorem Represents.drop (h : Represents s (pre ++ a :: b :: post))
    (hnext : ∀ p ∈ pre ++ a :: post,
      s'.next p = if p = a then s.next b else s.next p)
    (hprev : ∀ p ∈ pre ++ a :: post,
      s'.prev p = if post.head? = some p then a else s.prev p)
    (hqueue : s'.queue = s.queue) (hcount : s'.count = s.count - 1) :
    Represents s' (pre ++ a :: post) := by
  obtain ⟨-, hrest, hdisjoint⟩ := List.nodup_append.mp h.nodup
  obtain ⟨ha, hrest⟩ := List.nodup_cons.mp hrest
  obtain ⟨hb, hpost⟩ := List.nodup_cons.mp hrest
  have hpre : ∀ p ∈ pre, ∀ q ∈ a :: b :: post, p ≠ q := hdisjoint
  have hmem : ∀ {p}, p ∈ post → p ∈ a :: b :: post := fun hp =>
    List.mem_cons_of_mem a (List.mem_cons_of_mem b hp)
  constructor
  · rw [hqueue]
    apply h.linked.unlink
    · rw [hnext a (by simp), if_pos rfl]
    · intro p hp
      rw [hnext p (by simp [hp]), if_neg (hpre p hp a List.mem_cons_self)]
    · intro p hp
      rw [hnext p (by simp [hp]), if_neg]
      rintro rfl
      exact ha (List.mem_cons_of_mem b hp)
  · obtain ⟨hfront, hat, -, hbehind⟩ := back_append.mp h.back
    rw [back_append]
    refine ⟨hfront.congr ?_, ?_, ?_⟩
    · intro p hp
      rw [hprev p (by simp [hp]), if_neg]
      intro hhead
      exact hpre p hp p (hmem (List.mem_of_mem_head? hhead)) rfl
    · rw [hprev a (by simp), if_neg, hat]
      intro hhead
      exact ha (List.mem_cons_of_mem b (List.mem_of_mem_head? hhead))
    · cases post with
      | nil => trivial
      | cons c post =>
          refine ⟨?_, hbehind.2.congr ?_⟩
          · rw [hprev c (by simp), if_pos List.head?_cons]
          · intro p hp
            rw [hprev p (by simp [hp]), if_neg]
            rw [List.head?_cons, Option.some.injEq]
            rintro rfl
            exact (List.nodup_cons.mp hpost).1 hp
  · exact List.Nodup.sublist (List.Sublist.append_left
      (List.Sublist.cons_cons a (List.sublist_cons_self b post)) pre) h.nodup
  · have hcalled := h.count_pred (show b ∈ pre ++ a :: b :: post by simp)
    have hbpre : b ∉ pre ++ [a] := by
      intro hmem'
      rcases List.mem_append.mp hmem' with hmem' | hmem'
      · exact hpre b hmem' b (by simp) rfl
      · exact ha (by simp [List.mem_singleton.mp hmem'])
    have hsplit : pre ++ a :: b :: post = (pre ++ [a]) ++ b :: post := by simp
    rw [hcount, hcalled, hsplit, erase_middle hbpre]
    simp
  · have hget := h.oldest
    rw [bufGet_eq] at hget ⊢
    rw [hqueue, hget]
    cases pre <;> rfl

/-- Taking out a buffer behind another one. -/
theorem unlinkBuf_behind (h : Represents s (pre ++ a :: b :: post)) :
    Represents (unlinkBuf s b) (pre ++ a :: post) := by
  have ha : a ≠ 0 := h.linked.ne_null (by simp)
  have hab : b ≠ a := by
    obtain ⟨-, hrest, -⟩ := List.nodup_append.mp h.nodup
    rintro rfl
    exact (List.nodup_cons.mp hrest).1 List.mem_cons_self
  have hprev : s.prev b = a := (back_append.mp h.back).2.2.1
  have hnext : Segment 0 s.next (s.next b) post 0 :=
    (segment_middle.mp h.linked).2.2.2.2
  cases post with
  | nil =>
      have hend : s.next b = 0 := hnext
      rw [unlinkBuf, hprev, if_neg ha, if_pos hend]
      apply h.drop
      · intro p _
        rw [hend]
        exact Bufs.setNext_next
      · intro p _
        exact Bufs.setNext_prev
      · rfl
      · rfl
  | cons c post =>
      obtain ⟨hbehind, hc, -⟩ := hnext
      rw [unlinkBuf, hprev, hbehind, if_neg ha, if_neg hc]
      dsimp only
      rw [Bufs.setNext_next, if_neg hab, hbehind, Bufs.setNext_prev, hprev]
      apply h.drop
      · intro p _
        rw [hbehind]
        exact Bufs.setPrev_next.trans Bufs.setNext_next
      · intro p _
        apply Bufs.setPrev_prev.trans
        simp only [List.head?_cons, Option.some.injEq, Bufs.setNext_prev,
          eq_comm]
      · rfl
      · rfl

end Removing

section Histories

variable {s : Bufs} {queued : List Ptr} {b : Ptr} {fuel : Nat}

/-- Enqueueing a buffer, whatever its links are. -/
theorem enqueue_represents (h : Represents s queued) (hb : b ≠ 0)
    (hnew : b ∉ queued) (hfuel : queued.length ≤ fuel) :
    ∃ s', enqueue fuel s b = .ok s' ∧
      (Represents s' (queued ++ [b]) ↔
        s.next b = 0 ∧ (queued = [] → s.prev b = 0)) := by
  rcases List.eq_nil_or_concat' queued with rfl | ⟨pre, a, rfl⟩
  · obtain ⟨s', hcall, hiff⟩ := @enqueue_empty s b fuel h hb
    exact ⟨s', hcall, hiff.trans (by simp)⟩
  · rw [List.length_append, List.length_singleton] at hfuel
    obtain ⟨s', hcall, hiff⟩ := enqueue_behind h hb hnew hfuel
    exact ⟨s', hcall, hiff.trans (by simp)⟩

/-- Removing a queued buffer. -/
theorem bufRemove_represents (h : Represents s queued) (hb : b ∈ queued)
    (hfuel : queued.length ≤ fuel) :
    ∃ s', bufRemove fuel s b = .ok s' ∧
      (Represents s' (queued.erase b) ↔
        (queued.head? = some b → queued = [b])) := by
  obtain ⟨pre, post, rfl, hpre⟩ := List.eq_append_cons_of_mem hb
  have hshort : pre.length < fuel := by
    rw [List.length_append, List.length_cons] at hfuel
    omega
  refine ⟨unlinkBuf s b, walk_remove h.linked hpre hshort, ?_⟩
  rw [erase_middle hpre]
  rcases List.eq_nil_or_concat' pre with rfl | ⟨pre, a, rfl⟩
  · cases post with
    | nil => exact iff_of_true (unlinkBuf_only h) fun _ => rfl
    | cons c post =>
        apply iff_of_false (unlinkBuf_first h)
        intro honly
        have hnil := honly rfl
        simp at hnil
  · have hkept : Represents s (pre ++ a :: b :: post) := by simpa using h
    have hne : (pre ++ [a] ++ b :: post).head? ≠ some b := by
      intro hhead
      apply hpre
      cases pre with
      | nil => simpa using hhead.symm
      | cons c pre => simp_all
    refine iff_of_true ?_ fun hhead => absurd hhead hne
    simpa using unlinkBuf_behind hkept

/-- The fresh block of a read has no links. -/
theorem Represents.fresh (h : Represents s queued) (hnew : b ∉ queued)
    (lock : Ptr) (dev blockno : UInt32) :
    Represents (initBuf (s.setBuf b zeroBuf) b lock dev blockno) queued ∧
      (initBuf (s.setBuf b zeroBuf) b lock dev blockno).next b = 0 ∧
      (initBuf (s.setBuf b zeroBuf) b lock dev blockno).prev b = 0 := by
  refine ⟨⟨h.linked.congr ?_, h.back.congr ?_, h.nodup, h.count, h.oldest⟩,
    ?_, ?_⟩
  · intro p hp
    have hpb : p ≠ b := ne_of_mem_of_not_mem hp hnew
    simp [Bufs.next, initBuf, Bufs.setBuf, hpb]
  · intro p hp
    have hpb : p ≠ b := ne_of_mem_of_not_mem hp hnew
    simp [Bufs.prev, initBuf, Bufs.setBuf, hpb]
  · simp [Bufs.next, initBuf, Bufs.setBuf, zeroBuf]
  · simp [Bufs.prev, initBuf, Bufs.setBuf, zeroBuf]

/-- One call: it returns, and keeps the queue exactly when the links are
clear. -/
theorem queueCall_represents {r : QueueRun} (h : Represents r.bufs r.queued)
    {call : QueueCall} (hallowed : call.Allowed r.queued)
    (hfuel : r.queued.length ≤ fuel) :
    ∃ s', queueCall fuel call r = .ok ⟨s', call.after r.queued⟩ ∧
      (Represents s' (call.after r.queued) ↔ LinksClear r call) := by
  cases call with
  | read b lock dev blockno =>
      obtain ⟨hb, hnew⟩ := hallowed
      obtain ⟨hfresh, hnext, hprev⟩ := h.fresh hnew lock dev blockno
      obtain ⟨s', hcall, hiff⟩ := enqueue_represents hfresh hb hnew hfuel
      refine ⟨s', ?_, hiff.trans (iff_of_true ⟨hnext, fun _ => hprev⟩ trivial)⟩
      rw [queueCall, hcall, ok_bind]
      rfl
  | write b =>
      obtain ⟨hb, hnew⟩ := hallowed
      obtain ⟨s', hcall, hiff⟩ := enqueue_represents h hb hnew hfuel
      refine ⟨s', ?_, hiff⟩
      rw [queueCall, hcall, ok_bind]
      rfl
  | remove b =>
      obtain ⟨s', hcall, hiff⟩ := bufRemove_represents h hallowed hfuel
      refine ⟨s', ?_, hiff⟩
      rw [queueCall, hcall, ok_bind]
      rfl

theorem queueCall_queued {r r' : QueueRun} {call : QueueCall}
    (hcall : queueCall fuel call r = .ok r') :
    r'.queued = call.after r.queued := by
  cases call with
  | read b lock dev blockno =>
      obtain ⟨s', -, hs'⟩ := ok_of_bind hcall
      cases hs'
      rfl
  | write b =>
      obtain ⟨s', -, hs'⟩ := ok_of_bind hcall
      cases hs'
      rfl
  | remove b =>
      obtain ⟨s', -, hs'⟩ := ok_of_bind hcall
      cases hs'
      rfl

theorem bufInit_represents (s : Bufs) : Represents (bufInit s) [] :=
  ⟨rfl, trivial, List.nodup_nil, rfl, rfl⟩

end Histories

/-- After the call the queue is the list of the buffers. -/
def KeepsQueue (_ : QueueRun) (_ : QueueCall) (r : QueueRun) : Prop :=
  Represents r.bufs r.queued

/-- From an empty queue, every call keeps the queue exactly when every call is
made with clear links. -/
theorem keepsQueue_iff (s : Bufs) {calls : List QueueCall}
    (hallowed : AllowedCalls calls []) {fuel : Nat}
    (hfuel : calls.length ≤ fuel) :
    EachReturns (queueCall fuel) KeepsQueue calls ⟨bufInit s, []⟩ ↔
      EachMeets (queueCall fuel) LinksClear calls ⟨bufInit s, []⟩ := by
  apply eachReturns_iff fun calls r =>
    Represents r.bufs r.queued ∧ AllowedCalls calls r.queued ∧
      r.queued.length + calls.length ≤ fuel
  · rintro r call calls ⟨hrep, ⟨hcall, hcalls⟩, hlength⟩ hclear
    rw [List.length_cons] at hlength
    obtain ⟨s', hstep, hiff⟩ := queueCall_represents hrep hcall
      (show r.queued.length ≤ fuel by omega)
    refine ⟨_, hstep, hiff.mpr hclear, hiff.mpr hclear, hcalls, ?_⟩
    have hafter : (call.after r.queued).length ≤ r.queued.length + 1 := by
      cases call with
      | read b lock dev blockno => simp [QueueCall.after]
      | write b => simp [QueueCall.after]
      | remove b => exact Nat.le_succ_of_le List.length_erase_le
    dsimp only
    omega
  · rintro r call calls r' ⟨hrep, ⟨hcall, -⟩, hlength⟩ hstep hkeeps
    rw [List.length_cons] at hlength
    obtain ⟨s', hstep', hiff⟩ := queueCall_represents hrep hcall
      (show r.queued.length ≤ fuel by omega)
    rw [hstep] at hstep'
    cases hstep'
    exact hiff.mp hkeeps
  · refine ⟨bufInit_represents s, hallowed, ?_⟩
    rw [List.length_nil]
    omega

/-- Memory in which nothing was queued yet. -/
def noBufs : Bufs := ⟨0, 0, fun _ => zeroBuf⟩

theorem keepsQueue_last_removed :
    EachReturns (queueCall 3) KeepsQueue
      [.read 0xC0400000 0xC0401000 0 7, .read 0xC0402000 0xC0403000 0 8,
        .remove 0xC0402000] ⟨bufInit noBufs, []⟩ := by
  apply (keepsQueue_iff noBufs ?_ (by decide)).mpr
  · refine ⟨trivial, fun r₁ h₁ => ⟨trivial, fun r₂ h₂ => ⟨?_, fun _ _ => trivial⟩⟩⟩
    intro hhead
    rw [queueCall_queued h₂, queueCall_queued h₁] at hhead
    exact absurd hhead (by decide)
  · simp [AllowedCalls, QueueCall.Allowed, QueueCall.after]

/-- Two reads, and the first of them removed: the queue now starts with a
buffer whose `prev` is the removed one. -/
theorem first_removed_breaks :
    ¬ EachReturns (queueCall 3) KeepsQueue
      [.read 0xC0400000 0xC0401000 0 7, .read 0xC0402000 0xC0403000 0 8,
        .remove 0xC0400000] ⟨bufInit noBufs, []⟩ := by
  rintro ⟨r₁, h₁, -, r₂, h₂, hrep, r₃, h₃, hkept, -⟩
  have hqueued : r₂.queued = [0xC0400000, 0xC0402000] := by
    rw [queueCall_queued h₂, queueCall_queued h₁]
    rfl
  have hmem : (0xC0400000 : Ptr) ∈ r₂.queued := by
    rw [hqueued]
    exact List.mem_cons_self
  obtain ⟨s', hcall, hiff⟩ := bufRemove_represents hrep hmem
    (show r₂.queued.length ≤ 3 by rw [hqueued]; decide)
  rw [queueCall, hcall, ok_bind] at h₃
  cases h₃
  have honly := hiff.mp hkept
  rw [hqueued] at honly
  exact absurd (honly rfl) (by decide)

end Linda
