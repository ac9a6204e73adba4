/-
Disk requests and completions: which commands reach the controller, in which
order, when every lock acquisition succeeds.
-/
import Linda.Disk

namespace Linda

open CallHistory FuelLoop

/-- A disk, the buffers queued so far in order, and how many commands the
controller has completed. -/
structure DiskRun where
  disk : Disk
  requested : List Ptr
  completed : Nat

/-- The buffers commands were given for, in order. -/
def DiskRun.issued (r : DiskRun) : List Ptr := r.disk.commands.map Prod.fst

def DiskRun.pending (r : DiskRun) : List Ptr := r.requested.drop r.completed

/-- The controller interrupts once for each command, after it was given. -/
def requestStep (fuel : Nat) (call : DiskCall) (r : DiskRun) :
    Except DiskHalt DiskRun :=
  match call with
  | .interrupt c =>
      if r.issued.length ≤ r.completed then .ok r
      else do
        let d ← ideInterrupt true fuel c r.disk
        .ok { r with disk := d, completed := r.completed + 1 }
  | call => do
      let d ← diskCall true fuel call r.disk
      .ok { r with disk := d, requested := r.requested ++ call.request.toList }

/-- The commands are the requests in queue order, each given once and never
while an earlier one is outstanding, and no request is left behind. -/
structure InOrder (r : DiskRun) : Prop where
  order : r.issued <+: r.requested
  served : r.completed ≤ r.issued.length
  single : r.issued.length ≤ r.completed + 1
  head : r.disk.bufs.queue = r.pending.headD 0
  started : r.disk.bufs.queue ≠ 0 → r.issued.length = r.completed + 1

/-- Requests are made while the queue is empty, and a buffer that is completed
has no links. -/
def MadeAlone (r : DiskRun) : DiskCall → Prop
  | .interrupt _ => r.completed < r.issued.length →
      r.disk.bufs.next r.disk.bufs.queue = 0 ∧
        r.disk.bufs.prev r.disk.bufs.queue = 0
  | call => call.request ≠ none → r.disk.bufs.queue = 0

/-- At most one request is in the queue, and its command has been given. -/
structure OneAtATime (r : DiskRun) : Prop where
  issued : r.issued = r.requested
  served : r.completed ≤ r.requested.length
  pending : r.pending =
    if r.disk.bufs.queue = 0 then [] else [r.disk.bufs.queue]
  ncli : 0 ≤ r.disk.irq.ncli

section Calls

variable {d d' : Disk} {b : Ptr} {fuel : Nat} {call : DiskCall}

theorem acquire_granted (d : Disk) (lock : Ptr) :
    d.acquire true lock =
      .ok ({ d with irq := d.irq.pushcli }.setLocked lock true) := by
  simp [Disk.acquire]

/-- With the lock granted the command of the head is given. -/
theorem ideExecute_granted (d : Disk) :
    ∃ d', ideExecute true d = .ok d' ∧ d'.bufs = d.bufs ∧
      d'.irq.ncli = d.irq.ncli + 1 ∧
      d'.commands.map Prod.fst = d.commands.map Prod.fst ++
        (if d.bufs.queue = 0 then [] else [d.bufs.queue]) := by
  rw [ideExecute, acquire_granted, ok_bind]
  dsimp only [Disk.setLocked]
  rw [bufGet_eq]
  by_cases hqueue : d.bufs.queue = 0
  · refine ⟨_, if_pos hqueue, rfl, rfl, ?_⟩
    rw [if_pos hqueue, List.append_nil]
  · refine ⟨_, if_neg hqueue, rfl, rfl, ?_⟩
    rw [if_neg hqueue, List.map_append]
    rfl

theorem enqueue_first {s : Bufs} (hqueue : s.queue = 0) :
    enqueue fuel s b = .ok { s with queue := b, count := s.count + 1 } :=
  if_pos hqueue

theorem enqueue_queue {s s' : Bufs} (hqueue : s.queue ≠ 0)
    (hcall : enqueue fuel s b = .ok s') : s'.queue = s.queue := by
  rw [enqueue, if_neg hqueue] at hcall
  obtain ⟨header, -, hs'⟩ := ok_of_bind hcall
  cases hs'
  rfl

/-- A request of an empty queue is issued at once. -/
theorem request_first (hrequest : call.request = some b)
    (hqueue : d.bufs.queue = 0) (hb : b ≠ 0) :
    ∃ d', diskCall true fuel call d = .ok d' ∧ d'.bufs.queue = b ∧
      d'.irq.ncli = d.irq.ncli + 1 ∧
      d'.commands.map Prod.fst = d.commands.map Prod.fst ++ [b] := by
  obtain ⟨d₀, hsame, -, -, hcall⟩ := diskCall_request hrequest
  rw [← hsame.queue] at hqueue
  rw [enqueue_first hqueue, ok_bind] at hcall
  obtain ⟨d', hexecute, hbufs, hncli, hcommands⟩ := ideExecute_granted
    { d₀ with bufs := { d₀.bufs with queue := b, count := d₀.bufs.count + 1 } }
  refine ⟨d', hcall.trans hexecute, by rw [hbufs], ?_, ?_⟩
  · rw [hncli, hsame.irq]
  · rw [hcommands, if_neg hb, hsame.commands]

/-- A request behind another one issues the command of the head again. -/
theorem request_behind (hrequest : call.request = some b)
    (hqueue : d.bufs.queue ≠ 0)
    (hcall : diskCall true fuel call d = .ok d') :
    d'.commands.length = d.commands.length + 1 := by
  obtain ⟨d₀, hsame, -, -, hcall'⟩ := diskCall_request hrequest
  rw [hcall'] at hcall
  obtain ⟨bufs, henqueue, hexecute⟩ := ok_of_bind hcall
  rw [← hsame.queue] at hqueue
  have hkept := enqueue_queue hqueue henqueue
  obtain ⟨d'', hexecute', -, -, hcommands⟩ :=
    ideExecute_granted { d₀ with bufs := bufs }
  rw [hexecute] at hexecute'
  cases hexecute'
  dsimp only at hcommands
  rw [hkept, if_neg hqueue, hsame.commands] at hcommands
  have hlength := congrArg List.length hcommands
  simpa using hlength

theorem unlinkBuf_queue {s : Bufs} (hqueue : s.queue ≠ 0) :
    (unlinkBuf s s.queue).queue = 0 ↔
      s.next s.queue = 0 ∧ s.prev s.queue = 0 := by
  unfold unlinkBuf
  split_ifs with hprev hnext hnext
  · simp [hprev, hnext]
  · simp [hnext]
  · simp [hprev, hqueue]
  · simp [hprev, hqueue]

theorem bufRemove_head {s : Bufs} (hqueue : s.queue ≠ 0) (hfuel : 0 < fuel) :
    bufRemove fuel s s.queue = .ok (unlinkBuf s s.queue) := by
  obtain ⟨n, rfl⟩ := Nat.exists_eq_add_of_lt hfuel
  rw [bufRemove, Nat.zero_add, loop, removeBody, if_neg hqueue, if_pos rfl]

/-- A lock that was granted is given back. -/
theorem release_granted (d : Disk) (lock : Ptr) (bufs : Bufs)
    (hncli : 0 ≤ d.irq.ncli) :
    ∃ d', Disk.release { ({ d with irq := d.irq.pushcli }.setLocked lock true)
        with bufs := bufs } lock = .ok d' ∧
      d'.bufs = bufs ∧ d'.irq.ncli = d.irq.ncli ∧
      d'.commands = d.commands := by
  have hheld : ¬ (if lock = lock then true else d.locked lock) = false := by
    simp
  have hcount : ¬ d.irq.ncli + 1 - 1 < 0 := by omega
  rw [Disk.release]
  simp only [Disk.setLocked, ↓reduceIte, Bool.true_eq_false, IrqState.popcli,
    IrqState.pushcli, Bool.false_eq_true, hcount, ok_bind]
  refine ⟨_, rfl, rfl, ?_, rfl⟩
  exact Int.add_sub_cancel _ _

/-- The interrupt takes the head out of the queue if it has no links. -/
theorem interrupt_granted (c : Completion) (hqueue : d.bufs.queue ≠ 0)
    (hncli : 0 ≤ d.irq.ncli) (hfuel : 0 < fuel) :
    ∃ d', ideInterrupt true fuel c d = .ok d' ∧
      d'.irq.ncli = d.irq.ncli ∧ d'.commands = d.commands ∧
      (d'.bufs.queue = 0 ↔
        d.bufs.next d.bufs.queue = 0 ∧ d.bufs.prev d.bufs.queue = 0) := by
  have hlinks := received_links c d.bufs d.bufs.queue d.bufs.queue
  obtain ⟨d', hrelease, hbufs, hncli', hcommands⟩ := release_granted
    { d with irq.enabled := false } (d.bufs.buf d.bufs.queue).lock
    (d.bufs.setBuf d.bufs.queue (received c (d.bufs.buf d.bufs.queue))) hncli
  have hremove := @bufRemove_head fuel
    (d.bufs.setBuf d.bufs.queue (received c (d.bufs.buf d.bufs.queue)))
    hqueue hfuel
  have hget : bufGet d.bufs = d.bufs.queue := bufGet_eq d.bufs
  have hhandler : ideHandler true fuel c { d with irq.enabled := false } =
      .ok { d' with bufs := unlinkBuf (d.bufs.setBuf d.bufs.queue
        (received c (d.bufs.buf d.bufs.queue))) d.bufs.queue } := by
    rw [ideHandler]
    dsimp only
    rw [hget, if_neg hqueue, acquire_granted, ok_bind]
    dsimp only [Disk.setLocked] at hrelease ⊢
    rw [received_lock, hrelease, ok_bind, hbufs]
    dsimp only [Bufs.setBuf] at hremove ⊢
    rw [hremove, ok_bind]
  have hcall : ideInterrupt true fuel c d =
      .ok { d' with
        bufs := unlinkBuf (d.bufs.setBuf d.bufs.queue
          (received c (d.bufs.buf d.bufs.queue))) d.bufs.queue
        irq.enabled := d.irq.enabled } := by
    unfold ideInterrupt
    dsimp only
    rw [hhandler, ok_bind]
  refine ⟨_, hcall, hncli', hcommands, ?_⟩
  have hunlink := @unlinkBuf_queue
    (d.bufs.setBuf d.bufs.queue (received c (d.bufs.buf d.bufs.queue))) hqueue
  rw [show (d.bufs.setBuf d.bufs.queue
    (received c (d.bufs.buf d.bufs.queue))).queue = d.bufs.queue from rfl,
    hlinks.1, hlinks.2] at hunlink
  exact hunlink

end Calls

section Runs

variable {fuel : Nat} {r r' : DiskRun} {call : DiskCall} {b : Ptr}

theorem OneAtATime.inOrder (h : OneAtATime r) : InOrder r := by
  have hlength : r.pending.length = r.requested.length - r.completed := by
    rw [DiskRun.pending, List.length_drop]
  have hserved := h.served
  have hpending := h.pending
  constructor
  · exact h.issued ▸ List.prefix_rfl
  · rwa [h.issued]
  · rw [h.issued]
    rw [hpending] at hlength
    split_ifs at hlength
    · rw [List.length_nil] at hlength
      omega
    · rw [List.length_singleton] at hlength
      omega
  · rw [hpending]
    split_ifs with hqueue
    · exact hqueue
    · rfl
  · intro hqueue
    rw [hpending, if_neg hqueue, List.length_singleton] at hlength
    rw [h.issued]
    omega

/-- The queue is empty exactly when every request has been completed. -/
theorem OneAtATime.idle_iff (h : OneAtATime r) :
    r.disk.bufs.queue = 0 ↔ r.completed = r.requested.length := by
  have hserved := h.served
  have hpending := h.pending
  have hdone : r.completed = r.requested.length ↔ r.pending = [] := by
    rw [DiskRun.pending, List.drop_eq_nil_iff]
    omega
  rw [hdone, hpending]
  split_ifs with hqueue
  · simp [hqueue]
  · simp [hqueue]

/-- A call with a request is the next one to be issued exactly when the queue
is empty. -/
theorem OneAtATime.request (h : OneAtATime r)
    (hrequest : call.request = some b) (hb : b ≠ 0) :
    (r.disk.bufs.queue = 0 → ∃ r', requestStep fuel call r = .ok r' ∧
      OneAtATime r') ∧
    (∀ r', requestStep fuel call r = .ok r' → InOrder r' →
      r.disk.bufs.queue = 0) := by
  have hstep : requestStep fuel call r = (do
      let d ← diskCall true fuel call r.disk
      .ok { r with disk := d, requested := r.requested ++ [b] }) := by
    cases call with
    | interrupt c => cases hrequest
    | read b' lock dev blockno =>
        rw [requestStep, hrequest]
        · rfl
        · exact fun c hc => DiskCall.noConfusion hc
    | write b' =>
        rw [requestStep, hrequest]
        · rfl
        · exact fun c hc => DiskCall.noConfusion hc
  constructor
  · intro hqueue
    obtain ⟨d', hcall, hqueue', hncli, hcommands⟩ :=
      request_first hrequest hqueue hb
    rw [hcall, ok_bind] at hstep
    refine ⟨_, hstep, ?_⟩
    have hdone := h.idle_iff.mp hqueue
    constructor
    · rw [DiskRun.issued, hcommands, ← DiskRun.issued, h.issued]
    · rw [List.length_append]
      exact Nat.le_add_right_of_le h.served
    · rw [DiskRun.pending, hdone, hqueue', if_neg hb, List.drop_left]
    · have hcount := h.ncli
      dsimp only
      rw [hncli]
      omega
  · intro r' hcall hinorder
    by_contra hqueue
    rw [hstep] at hcall
    obtain ⟨d', hdisk, hr'⟩ := ok_of_bind hcall
    cases hr'
    have hlength := request_behind hrequest hqueue hdisk
    have hsingle := hinorder.single
    have hstarted := h.inOrder.started hqueue
    rw [DiskRun.issued, List.length_map] at hsingle hstarted
    dsimp only at hsingle
    omega

/-- A completion leaves the requests in order exactly when the completed
buffer has no links. -/
theorem OneAtATime.complete (h : OneAtATime r) (c : Completion)
    (hfuel : 0 < fuel) (hissued : r.completed < r.issued.length) :
    ∃ r', requestStep fuel (.interrupt c) r = .ok r' ∧
      (InOrder r' → r.disk.bufs.next r.disk.bufs.queue = 0 ∧
        r.disk.bufs.prev r.disk.bufs.queue = 0) ∧
      (r.disk.bufs.next r.disk.bufs.queue = 0 ∧
        r.disk.bufs.prev r.disk.bufs.queue = 0 → OneAtATime r') := by
  have hqueue : r.disk.bufs.queue ≠ 0 := by
    rw [Ne, h.idle_iff]
    rw [h.issued] at hissued
    omega
  obtain ⟨d', hcall, hncli, hcommands, hempty⟩ :=
    interrupt_granted c hqueue h.ncli hfuel
  have hstarted := h.inOrder.started hqueue
  rw [h.issued] at hstarted
  have hdone : r.requested.drop (r.completed + 1) = [] := by
    rw [List.drop_eq_nil_iff]
    omega
  have hstep : requestStep fuel (.interrupt c) r =
      .ok { r with disk := d', completed := r.completed + 1 } := by
    rw [requestStep, if_neg (by omega), hcall, ok_bind]
  refine ⟨_, hstep, ?_, ?_⟩
  · intro hinorder
    rw [← hempty]
    have hhead := hinorder.head
    rw [DiskRun.pending, hdone] at hhead
    exact hhead
  · intro hlinks
    have hqueue' := hempty.mpr hlinks
    constructor
    · rw [DiskRun.issued, hcommands]
      exact h.issued
    · dsimp only
      omega
    · rw [DiskRun.pending, hdone, if_pos hqueue']
    · have hcount := h.ncli
      dsimp only
      omega

theorem requestStep_failed (hrequest : call.request = none)
    (hcall : ∀ c, call ≠ .interrupt c) :
    requestStep fuel call r = .ok r := by
  rw [requestStep, diskCall_failed hrequest hcall, ok_bind, hrequest]
  · rw [Option.toList_none, List.append_nil]
  · exact hcall

theorem DiskCall.request_ne_null (hcall : call ≠ .write 0)
    (hrequest : call.request = some b) : b ≠ 0 := by
  rintro rfl
  cases call with
  | interrupt c => cases hrequest
  | write b' => exact hcall (by rw [Option.some.inj hrequest])
  | read b' lock dev blockno =>
      rw [DiskCall.request] at hrequest
      split_ifs at hrequest with hnull
      exact hnull (Or.inl (Option.some.inj hrequest))

/-- One call: made alone it returns and keeps one request at a time, and
requests that stay in order were made alone. -/
theorem OneAtATime.step (h : OneAtATime r) (hfuel : 0 < fuel)
    (hcall : call ≠ .write 0) :
    (MadeAlone r call → ∃ r', requestStep fuel call r = .ok r' ∧
      OneAtATime r') ∧
    (∀ r', requestStep fuel call r = .ok r' → InOrder r' →
      MadeAlone r call) := by
  by_cases hinterrupt : ∃ c, call = .interrupt c
  · obtain ⟨c, rfl⟩ := hinterrupt
    by_cases hissued : r.completed < r.issued.length
    · obtain ⟨r', hstep, hlinks, hkeeps⟩ := h.complete c hfuel hissued
      constructor
      · intro halone
        exact ⟨r', hstep, hkeeps (halone hissued)⟩
      · intro r'' hstep' hinorder _
        rw [hstep] at hstep'
        cases hstep'
        exact hlinks hinorder
    · have hnone : requestStep fuel (.interrupt c) r = .ok r :=
        if_pos (Nat.not_lt.mp hissued)
      exact ⟨fun _ => ⟨r, hnone, h⟩, fun _ _ _ hlt => absurd hlt hissued⟩
  · rw [not_exists] at hinterrupt
    have halone : MadeAlone r call ↔
        (call.request ≠ none → r.disk.bufs.queue = 0) := by
      rw [MadeAlone]
      exact hinterrupt
    rw [halone]
    cases hrequest : call.request with
    | none =>
        have hkept := @requestStep_failed fuel r call hrequest hinterrupt
        exact ⟨fun _ => ⟨r, hkept, h⟩, fun _ _ _ hne => absurd rfl hne⟩
    | some b =>
        obtain ⟨hreturns, hmeets⟩ := @OneAtATime.request fuel r call b h hrequest
          (DiskCall.request_ne_null hcall hrequest)
        exact ⟨fun hqueue => hreturns (hqueue (Option.some_ne_none b)),
          fun r' hstep hinorder _ => hmeets r' hstep hinorder⟩

end Runs

/-- Every command is a request's, in order, exactly when every request is made
alone. -/
theorem inOrder_iff (d : Disk) (idelock : Ptr) (hncli : 0 ≤ d.irq.ncli)
    {calls : List DiskCall} (hcalls : .write 0 ∉ calls) {fuel : Nat}
    (hfuel : 0 < fuel) :
    EachReturns (requestStep fuel) (fun _ _ r => InOrder r) calls
        ⟨diskInit d idelock, [], 0⟩ ↔
      EachMeets (requestStep fuel) MadeAlone calls
        ⟨diskInit d idelock, [], 0⟩ := by
  apply eachReturns_iff fun calls r => OneAtATime r ∧ .write 0 ∉ calls
  · rintro r call calls ⟨hone, hnull⟩ halone
    obtain ⟨hcall, hrest⟩ := not_or.mp (List.mem_cons.not.mp hnull)
    obtain ⟨r', hstep, hkept⟩ := (hone.step hfuel (Ne.symm hcall)).1 halone
    exact ⟨r', hstep, hkept.inOrder, hkept, hrest⟩
  · rintro r call calls r' ⟨hone, hnull⟩ hstep hinorder
    obtain ⟨hcall, -⟩ := not_or.mp (List.mem_cons.not.mp hnull)
    exact (hone.step hfuel (Ne.symm hcall)).2 r' hstep hinorder
  · exact ⟨⟨rfl, Nat.le_refl 0, rfl, hncli⟩, hcalls⟩

/-- A kernel that has not used its disk yet. -/
def bootDisk : Disk := ⟨noBufs, 0, fun _ => false, ⟨0, false, true⟩, []⟩

theorem inOrder_alone :
    EachReturns (requestStep 1) (fun _ _ r => InOrder r)
      [.read 0xC0400000 0xC0401000 0 7, .interrupt ⟨false, fun _ => 0⟩,
        .read 0xC0402000 0xC0403000 0 8]
      ⟨diskInit bootDisk 0xC0404000, [], 0⟩ := by
  apply (inOrder_iff bootDisk 0xC0404000 (by decide) (by simp) (by decide)).mpr
  refine ⟨fun _ => rfl, fun r₁ h₁ => ?_⟩
  cases h₁
  refine ⟨fun _ => ⟨rfl, rfl⟩, fun r₂ h₂ => ?_⟩
  cases h₂
  exact ⟨fun _ => rfl, fun _ _ => trivial⟩

/-- Two reads at once: the command of the first is given twice. -/
theorem head_issued_twice :
    ¬ EachReturns (requestStep 1) (fun _ _ r => InOrder r)
      [.read 0xC0400000 0xC0401000 0 7, .read 0xC0402000 0xC0403000 0 8]
      ⟨diskInit bootDisk 0xC0404000, [], 0⟩ := by
  rintro ⟨r₁, h₁, -, r₂, h₂, hinorder, -⟩
  cases h₁
  cases h₂
  exact absurd hinorder.single (by decide)

end Linda
