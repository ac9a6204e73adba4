/-
The descriptor tables of the kernel: the segments of `segment_init` and the
entry code, the gates of `trap_init`, and the task state of `switch_to_uvm`, as
the processor finds them in memory.
-/
import Linda.DescriptorTables
import Linda.TrapDispatch

namespace Linda

open ByteMemory Bitfields WordStack X86

/-- `struct segdesc` -/
structure Segdesc where
  lim_15_0 : Nat
  base_15_0 : Nat
  base_23_16 : Nat
  type : Nat
  s : Nat
  dpl : Nat
  p : Nat
  lim_19_16 : Nat
  avl : Nat
  rsv1 : Nat
  db : Nat
  g : Nat
  base_31_24 : Nat

def Segdesc.fields (d : Segdesc) : List (Nat × Nat) :=
  [(16, d.lim_15_0), (16, d.base_15_0), (8, d.base_23_16), (4, d.type),
    (1, d.s), (2, d.dpl), (1, d.p), (4, d.lim_19_16), (1, d.avl), (1, d.rsv1),
    (1, d.db), (1, d.g), (8, d.base_31_24)]

def Segdesc.bits (d : Segdesc) : Nat := pack d.fields

/-- `SEG` -/
def seg (type : Nat) (base lim : Word) (dpl : Nat) : Segdesc where
  lim_15_0 := lim.toNat >>> 12 &&& 0xffff
  base_15_0 := base.toNat &&& 0xffff
  base_23_16 := base.toNat >>> 16 &&& 0xff
  type := type
  s := 1
  dpl := dpl
  p := 1
  lim_19_16 := lim.toNat >>> 28
  avl := 0
  rsv1 := 0
  db := 1
  g := 1
  base_31_24 := base.toNat >>> 24

/-- `SEG16` -/
def seg16 (type : Nat) (base lim : Word) (dpl : Nat) : Segdesc where
  lim_15_0 := lim.toNat &&& 0xffff
  base_15_0 := base.toNat &&& 0xffff
  base_23_16 := base.toNat >>> 16 &&& 0xff
  type := type
  s := 1
  dpl := dpl
  p := 1
  lim_19_16 := lim.toNat >>> 16
  avl := 0
  rsv1 := 0
  db := 1
  g := 0
  base_31_24 := base.toNat >>> 24

def staX : Nat := 0x8
def staW : Nat := 0x2
def staR : Nat := 0x2
def stsT32a : Nat := 0x9
def stsIg32 : Nat := 0xE
def stsTg32 : Nat := 0xF
def dplKern : Nat := 0

def segKcode : Nat := 1
def segTss : Nat := 5
def nsegs : Nat := 6

/-- `struct gatedesc` -/
structure Gatedesc where
  off_15_0 : Nat
  cs : Nat
  args : Nat
  rsv1 : Nat
  type : Nat
  s : Nat
  dpl : Nat
  p : Nat
  off_31_16 : Nat

def Gatedesc.fields (d : Gatedesc) : List (Nat × Nat) :=
  [(16, d.off_15_0), (16, d.cs), (5, d.args), (3, d.rsv1), (4, d.type),
    (1, d.s), (2, d.dpl), (1, d.p), (16, d.off_31_16)]

def Gatedesc.bits (d : Gatedesc) : Nat := pack d.fields

/-- `SETGATE`, which assigns every field. -/
def setgate (istrap : Bool) (sel : Selector) (off : Word) (d : Nat) :
    Gatedesc where
  off_15_0 := off.toNat &&& 0xffff
  cs := sel.toNat
  args := 0
  rsv1 := 0
  type := if istrap then stsTg32 else stsIg32
  s := 0
  dpl := d
  p := 1
  off_31_16 := off.toNat >>> 16

/-- The `SEG_CRT` of entry.S: its two words and four bytes, as a number. -/
def segCrt (type : Nat) (base lim : Word) : Nat :=
  pack [(16, lim.toNat >>> 12 &&& 0xFFFF), (16, base.toNat &&& 0xFFFF),
    (8, base.toNat >>> 16 &&& 0xFF), (8, type &&& 0xFF),
    (8, 0xC0 ||| (lim.toNat >>> 28 &&& 0xF)), (8, base.toNat >>> 24 &&& 0xFF)]

section Fields

variable (d : Segdesc) (type dpl : Nat) (base lim : Word)

/-- The processor sees the fields as the structure has them. -/
theorem Segdesc.segment : Segment.ofBits d.bits =
    { base := d.base_15_0 % 65536 + 65536 * (d.base_23_16 % 256) +
        16777216 * (d.base_31_24 % 256)
      limit :=
        let limit := d.lim_15_0 % 65536 + 65536 * (d.lim_19_16 % 16)
        if d.g % 2 = 1 then 4096 * limit + 4095 else limit
      type := d.type % 16
      system := d.s % 2 = 0
      dpl := d.dpl % 4
      present := d.p % 2 = 1
      big := d.db % 2 = 1 } := by
  have h₀ : bitsFrom 0 16 d.bits = _ := bitsFrom_get 0 rfl rfl
  have h₁ : bitsFrom 16 16 d.bits = _ := bitsFrom_get 1 rfl rfl
  have h₂ : bitsFrom 32 8 d.bits = _ := bitsFrom_get 2 rfl rfl
  have h₃ : bitsFrom 40 4 d.bits = _ := bitsFrom_get 3 rfl rfl
  have h₄ : bitsFrom 44 1 d.bits = _ := bitsFrom_get 4 rfl rfl
  have h₅ : bitsFrom 45 2 d.bits = _ := bitsFrom_get 5 rfl rfl
  have h₆ : bitsFrom 47 1 d.bits = _ := bitsFrom_get 6 rfl rfl
  have h₇ : bitsFrom 48 4 d.bits = _ := bitsFrom_get 7 rfl rfl
  have h₁₀ : bitsFrom 54 1 d.bits = _ := bitsFrom_get 10 rfl rfl
  have h₁₁ : bitsFrom 55 1 d.bits = _ := bitsFrom_get 11 rfl rfl
  have h₁₂ : bitsFrom 56 8 d.bits = _ := bitsFrom_get 12 rfl rfl
  rw [Segment.ofBits, h₀, h₁, h₂, h₃, h₄, h₅, h₆, h₇, h₁₀, h₁₁, h₁₂]
  rfl

theorem Segdesc.bits_lt : d.bits < 2 ^ 64 := pack_lt d.fields

theorem Gatedesc.bits_lt (d : Gatedesc) : d.bits < 2 ^ 64 := pack_lt d.fields

theorem and_ffff (n : Nat) : n &&& 0xffff = n % 65536 :=
  Nat.and_two_pow_sub_one_eq_mod n 16

theorem and_ff (n : Nat) : n &&& 0xff = n % 256 :=
  Nat.and_two_pow_sub_one_eq_mod n 8

theorem base_pieces (base : Word) :
    (base.toNat &&& 0xffff) % 65536 +
      65536 * ((base.toNat >>> 16 &&& 0xff) % 256) +
      16777216 * ((base.toNat >>> 24) % 256) = base.toNat := by
  have hlt := base.isLt
  simp only [and_ffff, and_ff, Nat.shiftRight_eq_div_pow]
  omega

/-- A segment made by `SEG` has its base, and its limit to the end of the last
page. -/
theorem seg_segment : Segment.ofBits (seg type base lim dpl).bits =
    ⟨base.toNat, lim.toNat / 4096 * 4096 + 4095, type % 16, false, dpl % 4,
      true, true⟩ := by
  have hlim : 4096 * ((lim.toNat >>> 12 &&& 0xffff) % 65536 +
      65536 * ((lim.toNat >>> 28) % 16)) + 4095 =
        lim.toNat / 4096 * 4096 + 4095 := by
    have hlt := lim.isLt
    simp only [and_ffff, Nat.shiftRight_eq_div_pow]
    omega
  have hbase := base_pieces base
  rw [Segdesc.segment]
  simp only [seg, hbase, hlim]
  rfl

theorem seg16_segment : Segment.ofBits { seg16 type base lim dpl with s := 0 }.bits =
    ⟨base.toNat, lim.toNat % 1048576, type % 16, true, dpl % 4, true, true⟩ := by
  have hlim : (lim.toNat &&& 0xffff) % 65536 +
      65536 * ((lim.toNat >>> 16) % 16) = lim.toNat % 1048576 := by
    have hlt := lim.isLt
    simp only [and_ffff, Nat.shiftRight_eq_div_pow]
    omega
  have hbase := base_pieces base
  rw [Segdesc.segment]
  simp only [seg16, hbase, hlim]
  rfl

theorem Gatedesc.descriptor (d : Gatedesc) : GateDescriptor.ofBits d.bits =
    if d.p % 2 = 1 ∧ d.s % 2 = 0 ∧ (d.type % 16 = 0xE ∨ d.type % 16 = 0xF) then
      some {
        gate := {
          offset := BitVec.ofNat 32 (d.off_15_0 % 65536 +
            65536 * (d.off_31_16 % 65536))
          cs := BitVec.ofNat 16 (d.cs % 65536)
          trap := d.type % 16 = 0xF }
        dpl := d.dpl % 4 }
    else none := by
  have h₀ : bitsFrom 0 16 d.bits = _ := bitsFrom_get 0 rfl rfl
  have h₁ : bitsFrom 16 16 d.bits = _ := bitsFrom_get 1 rfl rfl
  have h₄ : bitsFrom 40 4 d.bits = _ := bitsFrom_get 4 rfl rfl
  have h₅ : bitsFrom 44 1 d.bits = _ := bitsFrom_get 5 rfl rfl
  have h₆ : bitsFrom 45 2 d.bits = _ := bitsFrom_get 6 rfl rfl
  have h₇ : bitsFrom 47 1 d.bits = _ := bitsFrom_get 7 rfl rfl
  have h₈ : bitsFrom 48 16 d.bits = _ := bitsFrom_get 8 rfl rfl
  rw [GateDescriptor.ofBits, h₀, h₁, h₄, h₅, h₆, h₇, h₈]
  rfl

/-- A gate made by `SETGATE` leads where it says. -/
theorem setgate_descriptor (istrap : Bool) (sel : Selector) (off : Word)
    (dpl : Nat) :
    GateDescriptor.ofBits (setgate istrap sel off dpl).bits =
      some ⟨⟨off, sel, istrap⟩, dpl % 4⟩ := by
  have hoff : BitVec.ofNat 32 ((off.toNat &&& 0xffff) % 65536 +
      65536 * ((off.toNat >>> 16) % 65536)) = off := by
    have hsum : (off.toNat &&& 0xffff) % 65536 +
        65536 * ((off.toNat >>> 16) % 65536) = off.toNat := by
      have hlt := off.isLt
      simp only [and_ffff, Nat.shiftRight_eq_div_pow]
      omega
    rw [hsum, BitVec.ofNat_toNat, BitVec.setWidth_eq]
  have hsel : BitVec.ofNat 16 (sel.toNat % 65536) = sel := by
    rw [Nat.mod_eq_of_lt sel.isLt, BitVec.ofNat_toNat, BitVec.setWidth_eq]
  rw [Gatedesc.descriptor]
  simp only [setgate, hoff, hsel]
  cases istrap <;> rfl

/-- A descriptor of entry.S is the one that `SEG` makes of the same segment. -/
theorem segCrt_seg (happlication : type / 16 % 2 = 1)
    (hpresent : type / 128 % 2 = 1) :
    segCrt type base lim =
      (seg (type % 16) base lim (type / 32 % 4)).bits := by
  have hlim : 0xC0 ||| (lim.toNat >>> 28 &&& 0xF) =
      192 + lim.toNat >>> 28 % 16 := by
    have hsum : ∀ n < 16, 0xC0 ||| n = 192 + n := by decide
    have hlow : lim.toNat >>> 28 &&& 0xF = lim.toNat >>> 28 % 16 :=
      Nat.and_two_pow_sub_one_eq_mod _ 4
    rw [hlow, hsum _ (Nat.mod_lt _ (by decide))]
  have hbase : base.toNat >>> 24 &&& 0xFF = base.toNat >>> 24 % 256 :=
    and_ff _
  have htype : type &&& 0xFF = type % 256 := and_ff _
  rw [segCrt, hlim, hbase, htype, Segdesc.bits]
  simp only [Segdesc.fields, seg, pack]
  generalize lim.toNat >>> 12 &&& 0xffff = l
  generalize lim.toNat >>> 28 = l'
  generalize base.toNat &&& 0xffff = b
  generalize base.toNat >>> 16 &&& 0xff = b'
  generalize base.toNat >>> 24 = b''
  omega

/-- The code segment of the kernel. -/
theorem segCrt_seg_kernCode : segCrt 0x9A 0 0xFFFFFFFF =
    (seg (0x9A % 16) 0 0xFFFFFFFF (0x9A / 32 % 4)).bits :=
  segCrt_seg 0x9A 0 0xFFFFFFFF rfl rfl

end Fields

/-- `lidt` and `lgdt`: the operand is three `ushort_t`. -/
def lidt (table : Word) (size : Nat) : TableRegister :=
  .load (BitVec.ofNat 16 (size - 1)) (table.setWidth 16)
    ((table >>> 16).setWidth 16)

def lgdt (table : Word) (size : Nat) : TableRegister :=
  .load (BitVec.ofNat 16 (size - 1)) (table.setWidth 16)
    ((table >>> 16).setWidth 16)

theorem lidt_eq (table : Word) {size : Nat} (hsize : size ≤ 65536) :
    lidt table size = ⟨size - 1, table.toNat⟩ := by
  have hlimit : (size - 1) % 65536 = size - 1 := Nat.mod_eq_of_lt (by omega)
  have hbase : table.toNat % 65536 + 65536 * (table.toNat / 65536 % 65536) =
      table.toNat := by
    have hlt := table.isLt
    omega
  simp [lidt, TableRegister.load, Nat.shiftRight_eq_div_pow, hlimit, hbase]

/-- Where the fields of `struct cpu` and of `struct taskstate` lie. -/
def tssOffset : Nat := 8
def gdtOffset : Nat := 112
def esp0Offset : Nat := 4
def ss0Offset : Nat := 8
def iombOffset : Nat := 102
def taskstateSize : Nat := 104
def gatedescSize : Nat := 8
def segdescSize : Nat := 8

/-- The memory with the tables and the registers that lead to them. -/
structure DescriptorState where
  mem : Memory
  idtr : TableRegister
  gdtr : TableRegister
  tr : Option Segment

/-- `trap_init`, for the interrupt table; the gates of the loop are interrupt
gates. -/
def trapInit (idtAddr : Word) (table : Nat → Word) (s : DescriptorState) :
    DescriptorState :=
  let m := fill s.mem idtAddr.toNat (nidt * gatedescSize) 0
  let m := storeAll idtAddr.toNat
    (fun i => (setgate false 0x08 (table i) dplKern).bits) nidt m
  let m := store64 m (idtAddr.toNat + gatedescSize * irqSyscall)
    (setgate true 0x08 (table irqSyscall) dplUser).bits
  { s with mem := m, idtr := lidt idtAddr (nidt * gatedescSize) }

/-- `curcpu->gdt[i] = d` -/
def setGdt (cpu : Word) (i : Nat) (d : Segdesc) (m : Memory) : Memory :=
  store64 m (cpu.toNat + gdtOffset + segdescSize * i) d.bits

def segmentInit (cpu : Word) (s : DescriptorState) : DescriptorState :=
  let m := setGdt cpu segKcode (seg (staX ||| staR) 0 0xFFFFFFFF dplKern) s.mem
  let m := setGdt cpu segKdata (seg staW 0 0xFFFFFFFF dplKern) m
  let m := setGdt cpu segUcode (seg (staX ||| staR) 0 0xFFFFFFFF dplUser) m
  let m := setGdt cpu segUdata (seg staW 0 0xFFFFFFFF dplUser) m
  { s with
    mem := m
    gdtr := lgdt (cpu + BitVec.ofNat 32 gdtOffset) (nsegs * segdescSize) }

/-- What `switch_to_uvm` stores before it loads the task register. -/
def taskMemory (cpu : Word) (proc : ProcessSlot) (m : Memory) : Memory :=
  let tss := cpu + BitVec.ofNat 32 tssOffset
  let d := seg16 stsT32a tss (BitVec.ofNat 32 (taskstateSize - 1)) 0
  let m := setGdt cpu segTss d m
  let m := setGdt cpu segTss { d with s := 0 } m
  let m := store16 m (cpu.toNat + tssOffset + ss0Offset) (segKdata <<< 3)
  let m := store32 m (cpu.toNat + tssOffset + esp0Offset)
    (proc.kstack + kstackSize).toNat
  store16 m (cpu.toNat + tssOffset + iombOffset) 0xFFFF

/-- The tables' part of `switch_to_uvm`; `none` is a panic, or the fault of
`ltr`. -/
def loadTask (cpu : Word) (proc : ProcessSlot) (s : DescriptorState) :
    Option DescriptorState :=
  if proc.kstack = 0 ∨ proc.pgdir = 0 then none
  else
    match ltr s.gdtr (BitVec.ofNat 16 (segTss <<< 3))
        (taskMemory cpu proc s.mem) with
    | none => none
    | some (task, m) => some { s with mem := m, tr := some task }

/-- What the kernel does after boot: it switches to a process, or writes a
byte. -/
inductive TableEvent where
  | switchToUvm (proc : ProcessSlot)
  | write (a : Nat) (b : UInt8)

def TableEvent.step (cpu : Word) (s : DescriptorState) :
    TableEvent → Option DescriptorState
  | .switchToUvm proc => loadTask cpu proc s
  | .write a b => some { s with mem := store8 s.mem a b }

def runTables (cpu : Word) : List TableEvent → DescriptorState →
    Option DescriptorState
  | [], s => some s
  | event :: events, s => (event.step cpu s).bind (runTables cpu events)

/-- The processes switched to have a stack and a directory, and the bytes
written are neither in the interrupt table nor in the processor's structure. -/
def TableEvent.Spares (idtAddr cpu : Word) : TableEvent → Prop
  | .switchToUvm proc => proc.kstack ≠ 0 ∧ proc.pgdir ≠ 0
  | .write a _ =>
      (a < idtAddr.toNat ∨ idtAddr.toNat + nidt * gatedescSize ≤ a) ∧
        (a < cpu.toNat + tssOffset ∨
          cpu.toNat + gdtOffset + nsegs * segdescSize ≤ a)

/-- From `trap_init` to `segment_init`, with the bytes written in between. -/
def bootTables (idtAddr cpu : Word) (table : Nat → Word)
    (writes : List (Nat × UInt8)) (s : DescriptorState) : DescriptorState :=
  let s := trapInit idtAddr table s
  segmentInit cpu { s with
    mem := writes.foldl (fun m write => store8 m write.1 write.2) s.mem }

/-- The process of the last switch. -/
def switchedTo : List TableEvent → Option ProcessSlot
  | [] => none
  | .switchToUvm proc :: events => (switchedTo events).or (some proc)
  | .write _ _ :: events => switchedTo events

/-- The tables lie in memory, apart from each other. -/
structure TablesFit (idtAddr cpu : Word) : Prop where
  idt_fits : idtAddr.toNat + nidt * gatedescSize ≤ 4294967296
  cpu_fits : cpu.toNat + gdtOffset + nsegs * segdescSize ≤ 4294967296
  apart : idtAddr.toNat + nidt * gatedescSize ≤ cpu.toNat + tssOffset ∨
    cpu.toNat + gdtOffset + nsegs * segdescSize ≤ idtAddr.toNat

/-- A segment over all addresses. -/
def flat (type dpl : Nat) : Segment :=
  ⟨0, 0xFFFFFFFF, type, false, dpl, true, true⟩

/-- What the processor finds: the gates of the interrupt table, the segments of
the selectors, and the stack of the process switched to. -/
structure TablesServe (table : Nat → Word) (proc : Option ProcessSlot)
    (s : DescriptorState) : Prop where
  gates : ∀ vector < nidt, s.idtr.gateAt s.mem vector =
    some ⟨idt table vector, if vector = irqSyscall then 3 else 0⟩
  kernelCode : s.gdtr.segmentAt s.mem 0x08 = some (flat (staX ||| staR) 0)
  kernelData : s.gdtr.segmentAt s.mem 0x10 = some (flat staW 0)
  userCode : s.gdtr.segmentAt s.mem (userSelector segUcode) =
    some (flat (staX ||| staR) 3)
  userData : s.gdtr.segmentAt s.mem (userSelector segUdata) =
    some (flat staW 3)
  stack : ∀ p ∈ proc, ∃ task, s.tr = some task ∧
    ss0Offset + 3 ≤ task.limit ∧ tssAt s.mem task.base = p.tss

section Runs

variable {idtAddr cpu : Word} {table : Nat → Word} {proc : Option ProcessSlot}
  {s s' : DescriptorState} {m m' : Memory}

/-- What the kernel stores for a vector. -/
def gateBits (table : Nat → Word) (vector : Nat) : Nat :=
  if vector = irqSyscall then (setgate true 0x08 (table irqSyscall) dplUser).bits
  else (setgate false 0x08 (table vector) dplKern).bits

/-- What it stores for the selectors of the kernel and of programs. -/
def segmentBits : Nat → Nat
  | 1 => (seg (staX ||| staR) 0 0xFFFFFFFF dplKern).bits
  | 2 => (seg staW 0 0xFFFFFFFF dplKern).bits
  | 3 => (seg (staX ||| staR) 0 0xFFFFFFFF dplUser).bits
  | _ => (seg staW 0 0xFFFFFFFF dplUser).bits

def GatesHold (idtAddr : Word) (table : Nat → Word) (m : Memory) : Prop :=
  ∀ vector < 256, load64 m (idtAddr.toNat + 8 * vector) = gateBits table vector

def SegmentsHold (cpu : Word) (m : Memory) : Prop :=
  ∀ i, 1 ≤ i → i ≤ 4 → load64 m (cpu.toNat + 112 + 8 * i) = segmentBits i

/-- The stack of `p` stands in the task state. -/
structure StackHolds (cpu : Word) (p : ProcessSlot) (m : Memory) : Prop where
  esp0 : load32 m (cpu.toNat + 12) = (p.kstack + kstackSize).toNat
  ss0 : load32 m (cpu.toNat + 16) % 65536 = 16

/-- The task register after `ltr`. -/
def taskSegment (cpu : Word) : Segment :=
  ⟨cpu.toNat + 8, 103, 9, true, 0, true, true⟩

/-- The invariant of the runs. -/
structure TablesHold (idtAddr cpu : Word) (table : Nat → Word)
    (proc : Option ProcessSlot) (s : DescriptorState) : Prop where
  idtr : s.idtr = ⟨2047, idtAddr.toNat⟩
  gdtr : s.gdtr = ⟨47, cpu.toNat + 112⟩
  gates : GatesHold idtAddr table s.mem
  segments : SegmentsHold cpu s.mem
  task : ∀ p ∈ proc, s.tr = some (taskSegment cpu)
  stack : ∀ p ∈ proc, StackHolds cpu p s.mem

theorem GatesHold.congr (h : GatesHold idtAddr table m)
    (hsame : ∀ x, idtAddr.toNat ≤ x → x < idtAddr.toNat + 2048 → m' x = m x) :
    GatesHold idtAddr table m' := by
  intro vector hvector
  rw [← h vector hvector]
  exact load64_congr fun x hx hx' => hsame x (by omega) (by omega)

theorem SegmentsHold.congr (h : SegmentsHold cpu m)
    (hsame : ∀ x, cpu.toNat + 120 ≤ x → x < cpu.toNat + 152 → m' x = m x) :
    SegmentsHold cpu m' := by
  intro i hi hi'
  rw [← h i hi hi']
  exact load64_congr fun x hx hx' => hsame x (by omega) (by omega)

theorem StackHolds.congr {p : ProcessSlot} (h : StackHolds cpu p m)
    (hsame : ∀ x, cpu.toNat + 12 ≤ x → x < cpu.toNat + 20 → m' x = m x) :
    StackHolds cpu p m' := by
  have hesp0 : load32 m' (cpu.toNat + 12) = load32 m (cpu.toNat + 12) :=
    load32_congr fun x hx hx' => hsame x (by omega) (by omega)
  have hss0 : load32 m' (cpu.toNat + 16) = load32 m (cpu.toNat + 16) :=
    load32_congr fun x hx hx' => hsame x (by omega) (by omega)
  exact ⟨hesp0.trans h.esp0, (congrArg (· % 65536) hss0).trans h.ss0⟩

theorem trapInit_gates (idtAddr : Word) (table : Nat → Word)
    (s : DescriptorState) : GatesHold idtAddr table (trapInit idtAddr table s).mem := by
  intro vector hvector
  have hbits : ∀ i, (setgate false 0x08 (table i) dplKern).bits < 2 ^ 64 :=
    fun i => Gatedesc.bits_lt _
  have hsize : gatedescSize * irqSyscall = 8 * 64 := rfl
  simp only [trapInit, hsize]
  by_cases hsyscall : vector = irqSyscall
  · have hslot : 8 * vector = 8 * 64 := congrArg (8 * ·) hsyscall
    rw [hslot, load64_store64_same _ (Gatedesc.bits_lt _), gateBits,
      if_pos hsyscall]
  · have hother : vector ≠ 64 := hsyscall
    rw [gateBits, if_neg hsyscall, ← load64_storeAll (n := nidt)
      (fill s.mem idtAddr.toNat (nidt * gatedescSize) 0) hbits hvector]
    exact load64_congr fun x hx hx' => store64_of_outside _ (by omega)

/-- A store to a slot of the table. -/
theorem setGdt_of_outside {i x : Nat} (d : Segdesc)
    (h : x < cpu.toNat + 112 + 8 * i ∨ cpu.toNat + 120 + 8 * i ≤ x) :
    setGdt cpu i d m x = m x := by
  have hslot : cpu.toNat + gdtOffset + segdescSize * i =
      cpu.toNat + 112 + 8 * i := rfl
  rw [setGdt, hslot, store64_of_outside _ (by omega)]

theorem load64_setGdt (i : Nat) (d : Segdesc) :
    load64 (setGdt cpu i d m) (cpu.toNat + 112 + 8 * i) = d.bits :=
  load64_store64_same _ d.bits_lt

theorem load64_setGdt_of_ne {i j : Nat} (d : Segdesc) (hij : j ≠ i) :
    load64 (setGdt cpu i d m) (cpu.toNat + 112 + 8 * j) =
      load64 m (cpu.toNat + 112 + 8 * j) :=
  load64_congr fun x hx hx' => setGdt_of_outside d (by omega)

theorem segmentInit_segments (cpu : Word) (s : DescriptorState) :
    SegmentsHold cpu (segmentInit cpu s).mem := by
  intro i hi hi'
  have hcases : i = 1 ∨ i = 2 ∨ i = 3 ∨ i = 4 := by omega
  simp only [segmentInit, segKcode, segKdata, segUcode, segUdata]
  rcases hcases with rfl | rfl | rfl | rfl
  · rw [load64_setGdt_of_ne _ (by decide), load64_setGdt_of_ne _ (by decide),
      load64_setGdt_of_ne _ (by decide), load64_setGdt]
    rfl
  · rw [load64_setGdt_of_ne _ (by decide), load64_setGdt_of_ne _ (by decide),
      load64_setGdt]
    rfl
  · rw [load64_setGdt_of_ne _ (by decide), load64_setGdt]
    rfl
  · rw [load64_setGdt]
    rfl

theorem TablesFit.fields (h : TablesFit idtAddr cpu) :
    idtAddr.toNat + 2048 ≤ 4294967296 ∧ cpu.toNat + 160 ≤ 4294967296 ∧
      (idtAddr.toNat + 2048 ≤ cpu.toNat + 8 ∨ cpu.toNat + 160 ≤ idtAddr.toNat) :=
  ⟨h.idt_fits, h.cpu_fits, h.apart⟩

theorem lgdt_eq (table : Word) {size : Nat} (hsize : size ≤ 65536) :
    lgdt table size = ⟨size - 1, table.toNat⟩ := lidt_eq table hsize

theorem bootTables_hold (hfit : TablesFit idtAddr cpu) (table : Nat → Word)
    (writes : List (Nat × UInt8))
    (hspares : ∀ write ∈ writes, TableEvent.Spares idtAddr cpu
      (.write write.1 write.2)) (s : DescriptorState) :
    TablesHold idtAddr cpu table none (bootTables idtAddr cpu table writes s) := by
  obtain ⟨hidt, hcpu, hapart⟩ := hfit.fields
  have hwrites : ∀ m, GatesHold idtAddr table m → GatesHold idtAddr table
      (writes.foldl (fun m write => store8 m write.1 write.2) m) := by
    intro m hm
    induction writes generalizing m with
    | nil => exact hm
    | cons write writes ih =>
        obtain ⟨⟨hout, -⟩, hrest⟩ := List.forall_mem_cons.mp hspares
        change _ ∨ idtAddr.toNat + 2048 ≤ write.1 at hout
        refine ih hrest _ (hm.congr fun x hx hx' => store8_of_ne m _ ?_)
        omega
  have hgates := hwrites _ (trapInit_gates idtAddr table s)
  have hgdt : (cpu + BitVec.ofNat 32 gdtOffset).toNat = cpu.toNat + 112 := by
    rw [BitVec.toNat_add, BitVec.toNat_ofNat]
    simp only [gdtOffset]
    omega
  refine ⟨lidt_eq idtAddr (by decide), ?_, ?_, segmentInit_segments _ _, ?_, ?_⟩
  · exact (lgdt_eq _ (by decide)).trans (by rw [hgdt]; rfl)
  · refine hgates.congr fun x hx hx' => ?_
    simp only [bootTables, segmentInit, segKcode, segKdata, segUcode, segUdata]
    rw [setGdt_of_outside _ (by omega), setGdt_of_outside _ (by omega),
      setGdt_of_outside _ (by omega), setGdt_of_outside _ (by omega)]
  · intro p hp
    cases hp
  · intro p hp
    cases hp

theorem taskMemory_of_outside (p : ProcessSlot) (m : Memory) {x : Nat}
    (h : x < cpu.toNat + 8 ∨ cpu.toNat + 112 ≤ x ∧ x < cpu.toNat + 152 ∨
      cpu.toNat + 160 ≤ x) : taskMemory cpu p m x = m x := by
  have hslot {d : Segdesc} {m : Memory} : setGdt cpu segTss d m x = m x :=
    setGdt_of_outside d (by simp only [segTss]; omega)
  simp only [taskMemory, tssOffset, ss0Offset, esp0Offset, iombOffset]
  rw [store16_of_outside _ (by omega), store32_of_outside _ _ (by omega),
    store16_of_outside _ (by omega), hslot, hslot]

theorem taskMemory_segment (hfit : TablesFit idtAddr cpu) (p : ProcessSlot)
    (m : Memory) :
    Segment.ofBits (load64 (taskMemory cpu p m) (cpu.toNat + 152)) =
      taskSegment cpu := by
  obtain ⟨-, hcpu, -⟩ := hfit.fields
  have hbase : (cpu + BitVec.ofNat 32 tssOffset).toNat = cpu.toNat + 8 := by
    rw [BitVec.toNat_add, BitVec.toNat_ofNat]
    simp only [tssOffset]
    omega
  have hsegment := seg16_segment stsT32a 0 (cpu + BitVec.ofNat 32 tssOffset)
    (BitVec.ofNat 32 (taskstateSize - 1))
  rw [hbase] at hsegment
  have hstored {d : Segdesc} {m : Memory} :
      load64 (setGdt cpu segTss d m) (cpu.toNat + 152) = d.bits :=
    load64_setGdt segTss d
  have hafter {m m' : Memory}
      (h : ∀ x, cpu.toNat + 152 ≤ x → m' x = m x) :
      load64 m' (cpu.toNat + 152) = load64 m (cpu.toNat + 152) :=
    load64_congr fun x hx _ => h x hx
  simp only [taskMemory, tssOffset, ss0Offset, esp0Offset, iombOffset]
  rw [hafter fun x hx => store16_of_outside _ (by omega),
    hafter fun x hx => store32_of_outside _ _ (by omega),
    hafter fun x hx => store16_of_outside _ (by omega), hstored]
  exact hsegment

theorem taskMemory_stack (p : ProcessSlot) (m : Memory) :
    StackHolds cpu p (taskMemory cpu p m) := by
  have hafter {m m' : Memory} {a : Nat}
      (h : ∀ x, a ≤ x → x < a + 4 → m' x = m x) : load32 m' a = load32 m a :=
    load32_congr h
  simp only [taskMemory, tssOffset, ss0Offset, esp0Offset, iombOffset]
  constructor
  · rw [hafter fun x hx hx' => store16_of_outside _ (by omega)]
    have hlt := (p.kstack + kstackSize).isLt
    exact (load32_store32_same _ _ _).trans (Nat.mod_eq_of_lt hlt)
  · rw [hafter fun x hx hx' => store16_of_outside _ (by omega),
      hafter fun x hx hx' => store32_of_outside _ _ (by omega)]
    exact load32_store16_mod _ _ _

/-- The segment of a selector of the kernel's table. -/
theorem segmentAt_gdt {a : Nat} {sel : Selector} (i : Nat)
    (hsel : sel.toNat / 4 % 2 = 0 ∧ sel.toNat / 8 = i) (hi : 1 ≤ i)
    (hi' : i ≤ 5) : TableRegister.segmentAt ⟨47, a⟩ m sel =
      some (Segment.ofBits (load64 m (a + 8 * i))) := by
  obtain ⟨htable, hindex⟩ := hsel
  have hlimit : 8 * i + 7 ≤ 47 := by omega
  rw [TableRegister.segmentAt, hindex, if_pos ⟨htable, by omega⟩,
    TableRegister.read, if_pos hlimit]
  rfl

/-- A switch to a process with a stack and a directory passes `ltr`, and leaves
the tables to the processor. -/
theorem loadTask_hold (hfit : TablesFit idtAddr cpu)
    (h : TablesHold idtAddr cpu table proc s) (p : ProcessSlot)
    (hstack : p.kstack ≠ 0) (hpgdir : p.pgdir ≠ 0) :
    ∃ s', loadTask cpu p s = some s' ∧
      TablesHold idtAddr cpu table (some p) s' := by
  obtain ⟨hidt, hcpu, hapart⟩ := hfit.fields
  have hslot : cpu.toNat + 112 + 8 * 5 = cpu.toNat + 152 := by omega
  have htask : TableRegister.segmentAt ⟨47, cpu.toNat + 112⟩
      (taskMemory cpu p s.mem) (BitVec.ofNat 16 (segTss <<< 3)) = _ :=
    segmentAt_gdt 5 (by decide) (by decide) (by decide)
  rw [hslot, taskMemory_segment hfit] at htask
  let m := store64 (taskMemory cpu p s.mem) (cpu.toNat + 152)
    (load64 (taskMemory cpu p s.mem) (cpu.toNat + 152) + 2 ^ 41)
  have hltr : ltr s.gdtr (BitVec.ofNat 16 (segTss <<< 3))
      (taskMemory cpu p s.mem) = some (taskSegment cpu, m) := by
    rw [h.gdtr, ltr, htask]
    rfl
  have hmem : ∀ x, x < cpu.toNat + 152 ∨ cpu.toNat + 160 ≤ x →
      m x = taskMemory cpu p s.mem x := fun x hx =>
    store64_of_outside _ (by omega)
  refine ⟨{ s with mem := m, tr := some (taskSegment cpu) }, ?_,
    ⟨h.idtr, h.gdtr, ?_, ?_, fun _ _ => rfl, ?_⟩⟩
  · rw [loadTask, if_neg (not_or.mpr ⟨hstack, hpgdir⟩), hltr]
  · refine h.gates.congr fun x hx hx' => ?_
    exact (hmem x (by omega)).trans (taskMemory_of_outside p s.mem (by omega))
  · refine h.segments.congr fun x hx hx' => ?_
    exact (hmem x (by omega)).trans (taskMemory_of_outside p s.mem (by omega))
  · intro p' hp'
    obtain rfl := Option.some.inj hp'
    exact (taskMemory_stack p s.mem).congr fun x hx hx' => hmem x (by omega)

theorem write_hold (hfit : TablesFit idtAddr cpu)
    (h : TablesHold idtAddr cpu table proc s) {a : Nat} {b : UInt8}
    (hspares : TableEvent.Spares idtAddr cpu (.write a b)) :
    TablesHold idtAddr cpu table proc { s with mem := store8 s.mem a b } := by
  obtain ⟨hidt, hcpu, hapart⟩ := hfit.fields
  obtain ⟨hidtOut, hcpuOut⟩ := hspares
  change _ ∨ idtAddr.toNat + 2048 ≤ a at hidtOut
  change a < cpu.toNat + 8 ∨ cpu.toNat + 160 ≤ a at hcpuOut
  refine ⟨h.idtr, h.gdtr, ?_, ?_, h.task, fun p hp => ?_⟩
  · exact h.gates.congr fun x hx hx' => store8_of_ne _ _ (by omega)
  · exact h.segments.congr fun x hx hx' => store8_of_ne _ _ (by omega)
  · exact (h.stack p hp).congr fun x hx hx' => store8_of_ne _ _ (by omega)

/-- The run. -/
theorem runTables_hold (hfit : TablesFit idtAddr cpu)
    (h : TablesHold idtAddr cpu table proc s) (events : List TableEvent)
    (hspares : ∀ event ∈ events, event.Spares idtAddr cpu) :
    ∃ s', runTables cpu events s = some s' ∧
      TablesHold idtAddr cpu table ((switchedTo events).or proc) s' := by
  induction events generalizing s proc with
  | nil => exact ⟨s, rfl, h⟩
  | cons event events ih =>
      obtain ⟨hevent, hrest⟩ := List.forall_mem_cons.mp hspares
      cases event with
      | switchToUvm p =>
          obtain ⟨s₁, hs₁, h₁⟩ := loadTask_hold hfit h p hevent.1 hevent.2
          obtain ⟨s', hs', h'⟩ := ih h₁ hrest
          refine ⟨s', ?_, ?_⟩
          · rw [runTables, TableEvent.step, hs₁]
            exact hs'
          · rw [switchedTo, Option.or_assoc, Option.some_or]
            exact h'
      | write a b =>
          obtain ⟨s', hs', h'⟩ := ih (write_hold hfit h hevent) hrest
          exact ⟨s', hs', h'⟩

/-- What the invariant gives the processor. -/
theorem TablesHold.serve (h : TablesHold idtAddr cpu table proc s) :
    TablesServe table proc s := by
  have hsegment (i : Nat) {sel : Selector}
      (hsel : sel.toNat / 4 % 2 = 0 ∧ sel.toNat / 8 = i) (hi : 1 ≤ i)
      (hi' : i ≤ 4) : s.gdtr.segmentAt s.mem sel =
        some (Segment.ofBits (segmentBits i)) := by
    rw [h.gdtr, segmentAt_gdt i hsel hi (by omega), h.segments i hi hi']
  have hflat (type dpl : Nat) :
      Segment.ofBits (seg type 0 0xFFFFFFFF dpl).bits =
        flat (type % 16) (dpl % 4) := seg_segment type dpl 0 0xFFFFFFFF
  refine ⟨?_, ?_, ?_, ?_, ?_, ?_⟩
  · intro vector hvector
    have hlimit : 8 * vector + 7 ≤ 2047 := by
      simp only [nidt] at hvector
      omega
    rw [h.idtr, TableRegister.gateAt, TableRegister.read, if_pos hlimit,
      Option.bind_some, h.gates vector hvector, gateBits]
    split_ifs with hsyscall
    · rw [setgate_descriptor, hsyscall]
      rfl
    · have hidt : idt table vector = ⟨table vector, 0x08, false⟩ := by
        rw [idt, decide_eq_false hsyscall]
      rw [setgate_descriptor, hidt]
      rfl
  · rw [hsegment 1 (by decide) (by decide) (by decide)]
    exact congrArg some (hflat _ _)
  · rw [hsegment 2 (by decide) (by decide) (by decide)]
    exact congrArg some (hflat _ _)
  · rw [hsegment 3 (by decide) (by decide) (by decide)]
    exact congrArg some (hflat _ _)
  · rw [hsegment 4 (by decide) (by decide) (by decide)]
    exact congrArg some (hflat _ _)
  · intro p hp
    obtain ⟨hesp0, hss0⟩ := h.stack p hp
    have hlimit : ss0Offset + 3 ≤ 103 := by decide
    refine ⟨taskSegment cpu, h.task p hp, hlimit, ?_⟩
    have hstack : tssAt s.mem (cpu.toNat + 8) =
        ⟨p.kstack + kstackSize, BitVec.ofNat 16 (segKdata <<< 3)⟩ := by
      have hsel : BitVec.ofNat 16 (load32 s.mem (cpu.toNat + 16)) =
          BitVec.ofNat 16 16 := by
        apply BitVec.eq_of_toNat_eq
        rw [BitVec.toNat_ofNat, BitVec.toNat_ofNat]
        exact hss0
      have hesp : BitVec.ofNat 32 (load32 s.mem (cpu.toNat + 12)) =
          p.kstack + kstackSize := by
        rw [hesp0, BitVec.ofNat_toNat, BitVec.setWidth_eq]
      simp only [tssAt, Nat.add_assoc, Nat.reduceAdd, hsel, hesp]
      rfl
    exact hstack

/-- From boot on, whatever the kernel writes elsewhere and however often it
switches between processes, no switch faults, every vector has the gate that
`trap_init` means for it, only that of the system call is open to programs, the
selectors are segments over all addresses, and an interrupt of a program starts
on the kernel stack of the process that was switched to last. -/
theorem tablesServe_of_run (hfit : TablesFit idtAddr cpu) (table : Nat → Word)
    (s : DescriptorState) (writes : List (Nat × UInt8))
    (hwrites : ∀ write ∈ writes, TableEvent.Spares idtAddr cpu
      (.write write.1 write.2))
    (events : List TableEvent)
    (hspares : ∀ event ∈ events, event.Spares idtAddr cpu) :
    ∃ s', runTables cpu events (bootTables idtAddr cpu table writes s) = some s' ∧
      TablesServe table (switchedTo events) s' := by
  have hboot := bootTables_hold hfit table writes hwrites s
  obtain ⟨s', hs', h'⟩ := runTables_hold hfit hboot events hspares
  rw [Option.or_none] at h'
  exact ⟨s', hs', h'.serve⟩

/-- A process with a stack and a directory. -/
def smallSlot : ProcessSlot := ⟨1, 0xC0400000, 0xC05E0000, .running, 0xC0400FB4⟩

theorem smallTables_fit : TablesFit 0xC0110000 0xC0120000 :=
  ⟨by decide, by decide, .inl (by decide)⟩

theorem smallEvents_spare (a : Nat) (ha : a < 0xC0110000) (b : UInt8) :
    ∀ event ∈ [TableEvent.switchToUvm smallSlot, .write a b],
      event.Spares 0xC0110000 0xC0120000 := by
  have hidt : (0xC0110000 : Word).toNat = 0xC0110000 := rfl
  have hcpu : (0xC0120000 : Word).toNat = 0xC0120000 := rfl
  have hwrite : TableEvent.Spares 0xC0110000 0xC0120000 (.write a b) := by
    refine ⟨.inl (by omega), .inl ?_⟩
    simp only [tssOffset]
    omega
  have hswitch : TableEvent.Spares 0xC0110000 0xC0120000
      (.switchToUvm smallSlot) := ⟨by decide, by decide⟩
  exact List.forall_mem_cons.mpr ⟨hswitch, List.forall_mem_singleton.mpr hwrite⟩

theorem tablesServe_of_run_small : ∃ s', runTables 0xC0120000
    [.switchToUvm smallSlot, .write 0x1000 1]
    (bootTables 0xC0110000 0xC0120000 (fun _ => 0xC0100000) []
      ⟨fun _ => 0, ⟨0, 0⟩, ⟨0, 0⟩, none⟩) = some s' ∧
      TablesServe (fun _ => 0xC0100000) (some smallSlot) s' :=
  tablesServe_of_run smallTables_fit (fun _ => 0xC0100000)
    ⟨fun _ => 0, ⟨0, 0⟩, ⟨0, 0⟩, none⟩ [] (by simp)
    [.switchToUvm smallSlot, .write 0x1000 1]
    (smallEvents_spare 0x1000 (by decide) 1)

end Runs

end Linda
