/-
The disk path: ide.c with the locks of spinlock.c, and buf_read and buf_write
as they drive it.
-/
import Linda.BufQueue
import Mathlib

namespace Linda

open FuelLoop

def blockSize : Nat := 1024
def sectorSize : Nat := 512

def ideCmdRead : UInt8 := 0x20
def ideCmdWrite : UInt8 := 0x30

/-- `ncli` and `intena` of `curcpu`, and the interrupt flag. -/
structure IrqState where
  ncli : Int
  intena : Bool
  enabled : Bool
deriving Repr, DecidableEq

def IrqState.pushcli (irq : IrqState) : IrqState where
  ncli := irq.ncli + 1
  intena := if irq.ncli = 0 then irq.enabled else irq.intena
  enabled := false

def IrqState.popcli (irq : IrqState) : Except DiskHalt IrqState :=
  if irq.enabled then .error .popEnabled
  else if irq.ncli - 1 < 0 then .error .popEmpty
  else .ok {
    ncli := irq.ncli - 1
    intena := irq.intena
    enabled := irq.ncli - 1 = 0 && irq.intena }

/-- What `ide_execute` writes to the ports, and the data behind a write. -/
structure Command where
  control : UInt8
  count : UInt8
  lba0 : UInt8
  lba1 : UInt8
  lba2 : UInt8
  drive : UInt8
  command : UInt8
  data : Option (Nat → UInt8)

/-- The queue, the locks by their addresses, and the commands given so far
with the buffers they were for. -/
structure Disk where
  bufs : Bufs
  idelock : Ptr
  locked : Ptr → Bool
  irq : IrqState
  commands : List (Ptr × Command)

namespace Disk

def setLocked (d : Disk) (lock : Ptr) (locked : Bool) : Disk :=
  { d with locked := fun p => if p = lock then locked else d.locked p }

/-- `acquire`. When acquisitions are `granted`, they are taken to succeed. -/
def acquire (granted : Bool) (d : Disk) (lock : Ptr) : Except DiskHalt Disk :=
  let d := { d with irq := d.irq.pushcli }
  if lock = 0 ∧ granted = false then .error .null
  else if d.locked lock = true ∧ granted = false then .error .acquireLocked
  else .ok (d.setLocked lock true)

def release (d : Disk) (lock : Ptr) : Except DiskHalt Disk :=
  if d.locked lock = false then .error .releaseFree
  else do
    let irq ← d.irq.popcli
    .ok { d.setLocked lock false with irq := irq }

end Disk

/-- The port writes of `ide_execute` for a buffer. -/
def ideCommand (buf : Buf) : Command where
  control := 0
  count := UInt8.ofNat (blockSize / sectorSize)
  lba0 := (buf.blockno &&& 0xFF).toUInt8
  lba1 := ((buf.blockno >>> 8) &&& 0xFF).toUInt8
  lba2 := ((buf.blockno >>> 16) &&& 0xFF).toUInt8
  drive :=
    let head := (buf.blockno >>> 24) &&& 0x0F
    let device := buf.dev <<< 4
    ((0xE0 : UInt32) ||| head ||| device).toUInt8
  command := if buf.flags &&& bDirty ≠ 0 then ideCmdWrite else ideCmdRead
  data := if buf.flags &&& bDirty ≠ 0 then some buf.data else none

/-- `ide_execute`; `ide_wait` waits for a drive that becomes ready, and its
result is not looked at. -/
def ideExecute (granted : Bool) (d : Disk) : Except DiskHalt Disk := do
  let d ← d.acquire granted d.idelock
  let b := bufGet d.bufs
  if b = 0 then .ok d
  else .ok { d with commands := d.commands ++ [(b, ideCommand (d.bufs.buf b))] }

/-- What the drive answers a completed command with: the write fault bit and
the data on its port. -/
structure Completion where
  fault : Bool
  input : Nat → UInt8

/-- The buffer after `ide_handler` has looked at it. -/
def received (c : Completion) (buf : Buf) : Buf :=
  if buf.flags &&& bValid ≠ 0 ∧ c.fault = false then
    { buf with data := c.input, flags := bDirty }
  else buf

/-- `ide_handler` -/
def ideHandler (granted : Bool) (fuel : Nat) (c : Completion) (d : Disk) :
    Except DiskHalt Disk := do
  let b := bufGet d.bufs
  if b = 0 then .error .null
  else
    let d ← d.acquire granted (d.bufs.buf b).lock
    let buf := received c (d.bufs.buf b)
    let d := { d with bufs := d.bufs.setBuf b buf }
    let d ← d.release buf.lock
    .ok { d with bufs := ← bufRemove fuel d.bufs b }

/-- The interrupt: its gate clears the flag, and `iret` restores it. -/
def ideInterrupt (granted : Bool) (fuel : Nat) (c : Completion) (d : Disk) :
    Except DiskHalt Disk := do
  let enabled := d.irq.enabled
  let d ← ideHandler granted fuel c { d with irq.enabled := false }
  .ok { d with irq.enabled := enabled }

/-- `buf_read`, with what `kmalloc` returns for the buffer and for its lock;
the links of the buffer are what its block holds. -/
def bufRead (granted : Bool) (fuel : Nat) (b lock : Ptr) (dev blockno : UInt32)
    (d : Disk) : Except DiskHalt Disk :=
  if b = 0 ∨ lock = 0 then .ok d
  else do
    let d := d.setLocked lock false
    let bufs ← enqueue fuel (initBuf d.bufs b lock dev blockno) b
    ideExecute granted { d with bufs := bufs }

def bufWrite (granted : Bool) (fuel : Nat) (b : Ptr) (d : Disk) :
    Except DiskHalt Disk := do
  let bufs ← enqueue fuel d.bufs b
  ideExecute granted { d with bufs := bufs }

/-- The calls of the disk path. -/
inductive DiskCall where
  | read (b lock : Ptr) (dev blockno : UInt32)
  | write (b : Ptr)
  | interrupt (c : Completion)

/-- The buffer a call queues, if it gets that far. -/
def DiskCall.request : DiskCall → Option Ptr
  | .read b lock _ _ => if b = 0 ∨ lock = 0 then none else some b
  | .write b => some b
  | .interrupt _ => none

def diskCall (granted : Bool) (fuel : Nat) : DiskCall → Disk →
    Except DiskHalt Disk
  | .read b lock dev blockno, d => bufRead granted fuel b lock dev blockno d
  | .write b, d => bufWrite granted fuel b d
  | .interrupt c, d => ideInterrupt granted fuel c d

/-- `ide_init` and `buf_init`, with the block `kmalloc` gave the lock. -/
def diskInit (d : Disk) (idelock : Ptr) : Disk :=
  { (d.setLocked idelock false) with
    idelock := idelock, bufs := bufInit d.bufs, commands := [] }

theorem received_lock (c : Completion) (buf : Buf) :
    (received c buf).lock = buf.lock := by
  unfold received
  split_ifs <;> rfl

/-- The transfer leaves the queue as it is. -/
theorem received_links (c : Completion) (s : Bufs) (b p : Ptr) :
    (s.setBuf b (received c (s.buf b))).next p = s.next p ∧
      (s.setBuf b (received c (s.buf b))).prev p = s.prev p := by
  by_cases hp : p = b
  · subst hp
    simp only [Bufs.next, Bufs.prev, Bufs.setBuf, received]
    split_ifs <;> exact ⟨rfl, rfl⟩
  · simp [Bufs.next, Bufs.prev, Bufs.setBuf, hp]

section Requests

variable {granted : Bool} {fuel : Nat} {call : DiskCall} {d : Disk} {b : Ptr}

/-- A disk whose buffers and buffer locks alone differ. -/
structure SameDisk (d d' : Disk) : Prop where
  queue : d'.bufs.queue = d.bufs.queue
  idelock : d'.idelock = d.idelock
  irq : d'.irq = d.irq
  commands : d'.commands = d.commands

/-- A call without a request changes nothing. -/
theorem diskCall_failed (hrequest : call.request = none)
    (hcall : ∀ c, call ≠ .interrupt c) :
    diskCall granted fuel call d = .ok d := by
  cases call with
  | read b lock dev blockno =>
      by_cases hnull : b = 0 ∨ lock = 0
      · exact if_pos hnull
      · rw [DiskCall.request, if_neg hnull] at hrequest
        cases hrequest
  | write b => cases hrequest
  | interrupt c => exact absurd rfl (hcall c)

/-- A call with one queues its buffer and runs `ide_execute`. -/
theorem diskCall_request (hrequest : call.request = some b) :
    ∃ d₀, SameDisk d d₀ ∧
      (∀ p, d₀.locked p = true → d.locked p = true) ∧
      (∀ p, (∀ dev blockno, call ≠ .read b p dev blockno) →
        d₀.locked p = d.locked p) ∧
      diskCall granted fuel call d = (do
        let bufs ← enqueue fuel d₀.bufs b
        ideExecute granted { d₀ with bufs := bufs }) := by
  cases call with
  | read b' lock dev blockno =>
      by_cases hnull : b' = 0 ∨ lock = 0
      · rw [DiskCall.request, if_pos hnull] at hrequest
        cases hrequest
      · rw [DiskCall.request, if_neg hnull, Option.some.injEq] at hrequest
        subst hrequest
        refine ⟨{ (d.setLocked lock false) with
          bufs := initBuf d.bufs b' lock dev blockno }, ⟨rfl, rfl, rfl, rfl⟩,
          ?_, ?_, if_neg hnull⟩
        · intro p hp
          dsimp only [Disk.setLocked] at hp
          split_ifs at hp
          exact hp
        · intro p hp
          apply if_neg
          rintro rfl
          exact hp dev blockno rfl
  | write b' =>
      rw [DiskCall.request, Option.some.injEq] at hrequest
      subst hrequest
      exact ⟨d, ⟨rfl, rfl, rfl, rfl⟩, fun _ hp => hp, fun _ _ => rfl, rfl⟩
  | interrupt c => cases hrequest

end Requests

end Linda
