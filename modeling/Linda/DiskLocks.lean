/-
The locks of the disk path: whether every acquisition is released by the time
its request is finished.
-/
import Linda.DiskRequests

namespace Linda

open CallHistory FuelLoop

/-- Interrupts may arrive at any time. -/
def lockStep (fuel : Nat) (call : DiskCall) (r : DiskRun) :
    Except DiskHalt DiskRun := do
  let d ← diskCall false fuel call r.disk
  let completed :=
    match call with
    | .interrupt _ => r.completed + 1
    | _ => r.completed
  .ok ⟨d, r.requested ++ call.request.toList, completed⟩

/-- No buffer's lock is left held, and with all requests completed `idelock`
is free and interrupts are as they were. -/
structure Balanced (d₀ : Disk) (r : DiskRun) : Prop where
  buffers : ∀ p, p ≠ r.disk.idelock → r.disk.locked p = true →
    d₀.locked p = true
  finished : r.pending = [] → r.disk.locked r.disk.idelock = false ∧
    r.disk.irq.ncli = d₀.irq.ncli ∧ r.disk.irq.enabled = d₀.irq.enabled

/-- No interrupt arrives, and at most one call gets as far as queueing. -/
def Quiet (calls : List DiskCall) : Prop :=
  (∀ c, .interrupt c ∉ calls) ∧ (calls.filterMap DiskCall.request).length ≤ 1

section Locks

variable {d d' : Disk} {fuel : Nat}

theorem ideExecute_locked (hnull : d.idelock ≠ 0)
    (hlocked : d.locked d.idelock = true) :
    ideExecute false d = .error .acquireLocked := by
  have hacquire : d.acquire false d.idelock = .error .acquireLocked := by
    simp [Disk.acquire, hnull, hlocked]
  rw [ideExecute, hacquire]
  rfl

/-- `ide_execute` keeps the lock it has taken. -/
theorem ideExecute_free (hnull : d.idelock ≠ 0)
    (hfree : d.locked d.idelock = false) :
    ∃ d', ideExecute false d = .ok d' ∧ d'.idelock = d.idelock ∧
      ∀ p, d'.locked p = if p = d.idelock then true else d.locked p := by
  have hacquire : d.acquire false d.idelock =
      .ok ({ d with irq := d.irq.pushcli }.setLocked d.idelock true) := by
    simp [Disk.acquire, hnull, hfree]
  rw [ideExecute, hacquire, ok_bind]
  dsimp only [Disk.setLocked]
  by_cases hempty : bufGet d.bufs = 0
  · exact ⟨_, if_pos hempty, rfl, fun p => rfl⟩
  · exact ⟨_, if_neg hempty, rfl, fun p => rfl⟩

theorem ideInterrupt_empty (c : Completion) (hqueue : d.bufs.queue = 0) :
    ideInterrupt false fuel c d = .error .null := by
  have hget : bufGet d.bufs = 0 := (bufGet_eq d.bufs).trans hqueue
  unfold ideInterrupt ideHandler
  dsimp only
  rw [if_pos hget]
  rfl

/-- An acquisition that succeeds was of a free lock. -/
theorem acquire_ok {lock : Ptr} (hcall : d.acquire false lock = .ok d') :
    d.locked lock = false ∧ d'.idelock = d.idelock ∧ d'.bufs = d.bufs ∧
      ∀ p, p ≠ lock → d'.locked p = d.locked p := by
  unfold Disk.acquire at hcall
  dsimp only at hcall
  split_ifs at hcall with hnull hheld
  cases hcall
  refine ⟨?_, rfl, rfl, fun p hp => if_neg hp⟩
  simpa using hheld

theorem release_ok {lock : Ptr} (hcall : d.release lock = .ok d') :
    d'.idelock = d.idelock ∧ ∀ p, p ≠ lock → d'.locked p = d.locked p := by
  unfold Disk.release at hcall
  split_ifs at hcall
  obtain ⟨irq, -, hd'⟩ := ok_of_bind hcall
  cases hd'
  exact ⟨rfl, fun p hp => if_neg hp⟩

/-- No interrupt gives `idelock` back. -/
theorem ideInterrupt_locked {c : Completion}
    (hlocked : d.locked d.idelock = true)
    (hcall : ideInterrupt false fuel c d = .ok d') :
    d'.locked d'.idelock = true := by
  unfold ideInterrupt at hcall
  obtain ⟨d₁, hhandler, hd'⟩ := ok_of_bind hcall
  cases hd'
  unfold ideHandler at hhandler
  dsimp only at hhandler
  split_ifs at hhandler
  obtain ⟨d₂, hacquire, hhandler⟩ := ok_of_bind hhandler
  obtain ⟨d₃, hrelease, hhandler⟩ := ok_of_bind hhandler
  obtain ⟨bufs, -, hd₁⟩ := ok_of_bind hhandler
  cases hd₁
  obtain ⟨hfree, hidelock₂, hbufs, hkept₂⟩ := acquire_ok hacquire
  obtain ⟨hidelock₃, hkept₃⟩ := release_ok hrelease
  dsimp only at hfree hidelock₂ hbufs hkept₂ hidelock₃ hkept₃ ⊢
  rw [received_lock, hbufs] at hkept₃
  have hne : d.idelock ≠ (d.bufs.buf (bufGet d.bufs)).lock := by
    intro hsame
    rw [← hsame, hlocked] at hfree
    cases hfree
  rw [hidelock₃, hidelock₂, hkept₃ _ hne, hkept₂ _ hne, hlocked]

/-- With `idelock` held a request stops the kernel. -/
theorem request_locked {call : DiskCall} {b : Ptr}
    (hrequest : call.request = some b) (hnull : d.idelock ≠ 0)
    (hlocked : d.locked d.idelock = true)
    (hlock : ∀ b dev blockno, call ≠ .read b d.idelock dev blockno) :
    diskCall false fuel call d ≠ .ok d' := by
  obtain ⟨d₀, hsame, -, hkept, hcall⟩ := diskCall_request hrequest
  rw [hcall]
  intro hok
  obtain ⟨bufs, -, hexecute⟩ := ok_of_bind hok
  have hlocked' : d₀.locked d₀.idelock = true := by
    rw [hsame.idelock, hkept d.idelock (hlock b), hlocked]
  have hstops := @ideExecute_locked { d₀ with bufs := bufs }
    (by rw [hsame.idelock]; exact hnull) hlocked'
  rw [hstops] at hexecute
  cases hexecute

/-- The first request leaves `idelock` held. -/
theorem request_unlocked {call : DiskCall} {b : Ptr}
    (hrequest : call.request = some b) (hnull : d.idelock ≠ 0)
    (hfree : d.locked d.idelock = false) (hqueue : d.bufs.queue = 0) :
    ∃ d', diskCall false fuel call d = .ok d' ∧ d'.idelock = d.idelock ∧
      d'.locked d.idelock = true ∧
      ∀ p, p ≠ d.idelock → d'.locked p = true → d.locked p = true := by
  obtain ⟨d₀, hsame, hlocked, -, hcall⟩ := diskCall_request hrequest
  rw [← hsame.queue] at hqueue
  rw [enqueue_first hqueue, ok_bind] at hcall
  have hfree' : d₀.locked d₀.idelock = false := by
    by_contra hheld
    rw [Bool.not_eq_false, hsame.idelock] at hheld
    rw [hlocked _ hheld] at hfree
    cases hfree
  obtain ⟨d', hexecute, hidelock, hafter⟩ := @ideExecute_free
    { d₀ with bufs := { d₀.bufs with queue := b, count := d₀.bufs.count + 1 } }
    (by rw [hsame.idelock]; exact hnull) hfree'
  refine ⟨d', hcall.trans hexecute, hidelock.trans hsame.idelock, ?_, ?_⟩
  · rw [hafter]
    exact if_pos hsame.idelock.symm
  · intro p hp hheld
    rw [hafter, if_neg (by rw [hsame.idelock]; exact hp)] at hheld
    exact hlocked p hheld

end Locks

section Runs

variable {d₀ : Disk} {r r' : DiskRun} {fuel : Nat}

/-- No request has been made yet. -/
structure Unused (d₀ : Disk) (r : DiskRun) : Prop where
  queue : r.disk.bufs.queue = 0
  requested : r.requested = []
  completed : r.completed = 0
  idelock : r.disk.idelock = d₀.idelock
  free : r.disk.locked r.disk.idelock = false
  balanced : Balanced d₀ r

/-- A request is waiting for its completion, and `idelock` is held. -/
structure Waiting (d₀ : Disk) (r : DiskRun) : Prop where
  pending : r.pending.length = 1
  idelock : r.disk.idelock = d₀.idelock
  held : r.disk.locked r.disk.idelock = true
  balanced : Balanced d₀ r

theorem lockStep_failed {call : DiskCall} (hrequest : call.request = none)
    (hcall : ∀ c, call ≠ .interrupt c) : lockStep fuel call r = .ok r := by
  rw [lockStep, diskCall_failed hrequest hcall, ok_bind, hrequest,
    Option.toList_none, List.append_nil]
  exact hcall

theorem quiet_cons_failed {call : DiskCall} {calls : List DiskCall}
    (hrequest : call.request = none) (hcall : ∀ c, call ≠ .interrupt c)
    (bound : Nat) :
    ((∀ c, .interrupt c ∉ call :: calls) ∧
        ((call :: calls).filterMap DiskCall.request).length ≤ bound) ↔
      (∀ c, .interrupt c ∉ calls) ∧
        (calls.filterMap DiskCall.request).length ≤ bound := by
  rw [List.filterMap_cons_none hrequest]
  simp only [List.mem_cons, not_or, Ne.symm (hcall _), not_false_eq_true, true_and]

/-- Behind the first request only calls that fail keep the balance. -/
theorem Waiting.balanced_iff (h : Waiting d₀ r) (hnull : d₀.idelock ≠ 0)
    {calls : List DiskCall}
    (hlocks : ∀ b dev blockno, .read b d₀.idelock dev blockno ∉ calls) :
    EachReturns (lockStep fuel) (fun _ _ r => Balanced d₀ r) calls r ↔
      (∀ c, .interrupt c ∉ calls) ∧
        (calls.filterMap DiskCall.request).length ≤ 0 := by
  induction calls with
  | nil => simp [EachReturns]
  | cons call calls ih =>
      by_cases hinterrupt : ∃ c, call = .interrupt c
      · obtain ⟨c, rfl⟩ := hinterrupt
        apply iff_of_false
        · rintro ⟨r', hstep, hbalanced, -⟩
          obtain ⟨d', hcall, hr'⟩ := ok_of_bind hstep
          cases hr'
          have hlocked := ideInterrupt_locked h.held hcall
          have hdone : r.requested.drop (r.completed + 1) = [] := by
            have hpending := h.pending
            rw [DiskRun.pending, List.length_drop] at hpending
            rw [List.drop_eq_nil_iff]
            omega
          have hpending : (⟨d', r.requested ++ [], r.completed + 1⟩ :
              DiskRun).pending = [] := by
            rw [DiskRun.pending, List.append_nil, hdone]
          have hfree := (hbalanced.finished hpending).1
          rw [hlocked] at hfree
          cases hfree
        · rintro ⟨hnone, -⟩
          exact hnone c List.mem_cons_self
      · rw [not_exists] at hinterrupt
        cases hrequest : call.request with
        | none =>
            rw [eachReturns_cons (lockStep_failed hrequest hinterrupt),
              quiet_cons_failed hrequest hinterrupt, ih fun b dev blockno hmem =>
                hlocks b dev blockno (List.mem_cons_of_mem call hmem)]
            exact and_iff_right h.balanced
        | some b =>
            apply iff_of_false
            · rintro ⟨r', hstep, -, -⟩
              obtain ⟨d', hcall, -⟩ := ok_of_bind hstep
              refine request_locked hrequest ?_ h.held ?_ hcall
              · rw [h.idelock]
                exact hnull
              · rintro b' dev blockno rfl
                rw [h.idelock] at hlocks
                exact hlocks b' dev blockno List.mem_cons_self
            · rw [List.filterMap_cons_some hrequest, List.length_cons]
              rintro ⟨-, hlength⟩
              omega

/-- The first request starts the wait for its completion. -/
theorem Unused.request (h : Unused d₀ r) (hnull : d₀.idelock ≠ 0)
    {call : DiskCall} {b : Ptr} (hrequest : call.request = some b) :
    ∃ r', lockStep fuel call r = .ok r' ∧ Waiting d₀ r' := by
  have hidelock : r.disk.idelock ≠ 0 := by
    rw [h.idelock]
    exact hnull
  have hinterrupt : ∀ c, call = .interrupt c → False := by
    rintro c rfl
    cases hrequest
  obtain ⟨d', hdisk, hidelock', hheld, hkept⟩ :=
    @request_unlocked r.disk fuel call b hrequest hidelock h.free h.queue
  refine ⟨⟨d', [b], 0⟩, ?_, rfl, hidelock'.trans h.idelock, ?_, ?_, ?_⟩
  · rw [lockStep, hdisk, ok_bind, hrequest, h.requested, h.completed]
    · rfl
    · exact hinterrupt
  · dsimp only
    rw [hidelock', hheld]
  · intro p hp hlocked
    dsimp only at hp hlocked
    rw [hidelock'] at hp
    exact h.balanced.buffers p hp (hkept p hp hlocked)
  · intro hpending
    cases hpending

/-- Until the first request the balance is kept by everything but interrupts
and a second request. -/
theorem Unused.balanced_iff (h : Unused d₀ r) (hnull : d₀.idelock ≠ 0)
    {calls : List DiskCall} (hcalls : .write 0 ∉ calls)
    (hlocks : ∀ b dev blockno, .read b d₀.idelock dev blockno ∉ calls) :
    EachReturns (lockStep fuel) (fun _ _ r => Balanced d₀ r) calls r ↔
      Quiet calls := by
  induction calls with
  | nil => simp [EachReturns, Quiet]
  | cons call calls ih =>
      obtain ⟨hcall, hcalls⟩ := not_or.mp (List.mem_cons.not.mp hcalls)
      have hlocks' : ∀ b dev blockno,
          .read b d₀.idelock dev blockno ∉ calls := fun b dev blockno hmem =>
        hlocks b dev blockno (List.mem_cons_of_mem call hmem)
      by_cases hinterrupt : ∃ c, call = .interrupt c
      · obtain ⟨c, rfl⟩ := hinterrupt
        apply iff_of_false
        · rintro ⟨r', hstep, -⟩
          obtain ⟨d', hnone, -⟩ := ok_of_bind hstep
          rw [diskCall, ideInterrupt_empty c h.queue] at hnone
          cases hnone
        · rintro ⟨hnone, -⟩
          exact hnone c List.mem_cons_self
      · rw [not_exists] at hinterrupt
        cases hrequest : call.request with
        | none =>
            rw [eachReturns_cons (lockStep_failed hrequest hinterrupt), Quiet,
              quiet_cons_failed hrequest hinterrupt, ← Quiet, ih hcalls hlocks']
            exact and_iff_right h.balanced
        | some b =>
            obtain ⟨r₁, hstep, hwaiting⟩ :=
              @Unused.request d₀ r fuel h hnull call b hrequest
            have hquiet : Quiet (call :: calls) ↔
                (∀ c, .interrupt c ∉ calls) ∧
                  (calls.filterMap DiskCall.request).length ≤ 0 := by
              rw [Quiet, List.filterMap_cons_some hrequest, List.length_cons]
              simp only [List.mem_cons, not_or, Ne.symm (hinterrupt _),
                not_false_eq_true, true_and, Nat.succ_le_succ_iff]
            rw [eachReturns_cons hstep, hquiet, hwaiting.balanced_iff hnull hlocks']
            exact and_iff_right hwaiting.balanced

end Runs

/-- The locks of the disk path are balanced in exactly the runs without
interrupts that queue at most one request. -/
theorem diskLocks_iff (d : Disk) {idelock : Ptr} (hnull : idelock ≠ 0)
    {calls : List DiskCall} (hcalls : .write 0 ∉ calls)
    (hlocks : ∀ b dev blockno, .read b idelock dev blockno ∉ calls)
    (fuel : Nat) :
    EachReturns (lockStep fuel) (fun _ _ r => Balanced (diskInit d idelock) r)
        calls ⟨diskInit d idelock, [], 0⟩ ↔ Quiet calls := by
  have hfree : (diskInit d idelock).locked idelock = false := if_pos rfl
  have hunused : Unused (diskInit d idelock) ⟨diskInit d idelock, [], 0⟩ := by
    refine ⟨rfl, rfl, rfl, rfl, hfree, ?_, ?_⟩
    · exact fun _ _ hlocked => hlocked
    · exact fun _ => ⟨hfree, rfl, rfl⟩
  exact hunused.balanced_iff hnull hcalls hlocks

theorem diskLocks_single :
    EachReturns (lockStep 1)
      (fun _ _ r => Balanced (diskInit bootDisk 0xC0404000) r)
      [.read 0 0 0 7, .read 0xC0400000 0xC0401000 0 7]
      ⟨diskInit bootDisk 0xC0404000, [], 0⟩ := by
  apply (diskLocks_iff bootDisk (by decide) (by simp) (by simp) 1).mpr
  constructor
  · simp
  · decide

/-- A read and its completion: `idelock` is never given back. -/
theorem idelock_kept :
    ¬ EachReturns (lockStep 1)
      (fun _ _ r => Balanced (diskInit bootDisk 0xC0404000) r)
      [.read 0xC0400000 0xC0401000 0 7, .interrupt ⟨false, fun _ => 0⟩]
      ⟨diskInit bootDisk 0xC0404000, [], 0⟩ := by
  rintro ⟨r₁, h₁, -, r₂, h₂, hbalanced, -⟩
  cases h₁
  cases h₂
  exact absurd (hbalanced.finished rfl).1 (by decide)

end Linda
