/-
Descriptors of the x86 as the processor reads them from memory, and the
registers that point to their tables.
-/
import Linda.Bitfields
import Linda.X86

namespace X86

open ByteMemory Bitfields WordStack

/-- What a segment descriptor says; a limit in pages counts the bytes of the
last one. -/
structure Segment where
  base : Nat
  limit : Nat
  type : Nat
  system : Bool
  dpl : Nat
  present : Bool
  big : Bool
deriving Repr, DecidableEq

def Segment.ofBits (bits : Nat) : Segment where
  base := bitsFrom 16 16 bits + 65536 * bitsFrom 32 8 bits +
    16777216 * bitsFrom 56 8 bits
  limit :=
    let limit := bitsFrom 0 16 bits + 65536 * bitsFrom 48 4 bits
    if bitsFrom 55 1 bits = 1 then 4096 * limit + 4095 else limit
  type := bitsFrom 40 4 bits
  system := bitsFrom 44 1 bits = 0
  dpl := bitsFrom 45 2 bits
  present := bitsFrom 47 1 bits = 1
  big := bitsFrom 54 1 bits = 1

/-- What a gate descriptor says: where it leads, and the level from which a
program may call it. -/
structure GateDescriptor where
  gate : Gate
  dpl : Nat

/-- Only present gates of the two kinds lead anywhere. -/
def GateDescriptor.ofBits (bits : Nat) : Option GateDescriptor :=
  if bitsFrom 47 1 bits = 1 ∧ bitsFrom 44 1 bits = 0 ∧
      (bitsFrom 40 4 bits = 0xE ∨ bitsFrom 40 4 bits = 0xF) then
    some {
      gate := {
        offset := BitVec.ofNat 32 (bitsFrom 0 16 bits +
          65536 * bitsFrom 48 16 bits)
        cs := BitVec.ofNat 16 (bitsFrom 16 16 bits)
        trap := bitsFrom 40 4 bits = 0xF }
      dpl := bitsFrom 45 2 bits }
  else none

/-- The limit and the base of a descriptor table. -/
structure TableRegister where
  limit : Nat
  base : Nat
deriving Repr, DecidableEq

def TableRegister.load (first second third : BitVec 16) : TableRegister :=
  ⟨first.toNat, second.toNat + 65536 * third.toNat⟩

def TableRegister.read (r : TableRegister) (m : Memory) (index : Nat) :
    Option Nat :=
  if 8 * index + 7 ≤ r.limit then some (load64 m (r.base + 8 * index)) else none

def TableRegister.gateAt (r : TableRegister) (m : Memory) (vector : Nat) :
    Option GateDescriptor :=
  (r.read m vector).bind GateDescriptor.ofBits

def TableRegister.segmentAt (r : TableRegister) (m : Memory) (sel : Selector) :
    Option Segment :=
  if sel.toNat / 4 % 2 = 0 ∧ sel.toNat / 8 ≠ 0 then
    (r.read m (sel.toNat / 8)).map Segment.ofBits
  else none

/-- `ltr`: the task state is found at the base that the processor keeps, and
its descriptor marked busy; only one that is available is accepted. -/
def ltr (r : TableRegister) (sel : Selector) (m : Memory) :
    Option (Segment × Memory) :=
  match r.segmentAt m sel with
  | none => none
  | some task =>
      if task.system = true ∧ task.type = 9 ∧ task.present = true then
        let a := r.base + 8 * (sel.toNat / 8)
        some (task, store64 m a (load64 m a + 2 ^ 41))
      else none

/-- The stack that a task state names for the outermost kernel level. -/
def tssAt (m : Memory) (base : Nat) : Tss :=
  ⟨BitVec.ofNat 32 (load32 m (base + 4)), BitVec.ofNat 16 (load32 m (base + 8))⟩

end X86
