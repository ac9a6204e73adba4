/-
A few instructions as the bytes they are in memory.  Of two forms of an
instruction the operand tells which one the assembler takes.
-/
import Linda.X86

namespace X86

open ByteMemory WordStack

inductive Coded where
  /-- `pushl $v`, with four bytes of operand -/
  | pushl (v : Word)
  /-- `pushl $v`, with one -/
  | pushb (v : BitVec 8)
  | movlEax (v : Word)
  | int (vector : UInt8)
  | addlEsp (v : BitVec 8)
  /-- `d` counts from the instruction behind -/
  | jmp (d : BitVec 8)
deriving Repr, DecidableEq

/-- The bytes of a word in memory. -/
def wordBytes (v : Word) : List UInt8 :=
  [byteOf v 0, byteOf v 1, byteOf v 2, byteOf v 3]

namespace Coded

def encode : Coded → List UInt8
  | .pushl v => 0x68 :: wordBytes v
  | .pushb v => [0x6A, .ofBitVec v]
  | .movlEax v => 0xB8 :: wordBytes v
  | .int vector => [0xCD, vector]
  | .addlEsp v => [0x83, 0xC4, .ofBitVec v]
  | .jmp d => [0xEB, .ofBitVec d]

/-- The instruction at an address. -/
def decode (m : Memory) (a : Word) : Option Coded :=
  match m a.toNat with
  | 0x68 => some (.pushl (wordAt m (a + 1)))
  | 0x6A => some (.pushb (m (a + 1).toNat).toBitVec)
  | 0xB8 => some (.movlEax (wordAt m (a + 1)))
  | 0xCD => some (.int (m (a + 1).toNat))
  | 0x83 =>
      if m (a + 1).toNat = 0xC4 then
        some (.addlEsp (m (a + 1 + 1).toNat).toBitVec)
      else none
  | 0xEB => some (.jmp (m (a + 1).toNat).toBitVec)
  | _ => none

/-- What an instruction does; of an `int` it is what comes before the
interrupt. -/
def exec (s : State) (instr : Coded) : State :=
  let s : State := { s with
    cpu := { s.cpu with
      eip := s.cpu.eip + BitVec.ofNat 32 instr.encode.length } }
  match instr with
  | .pushl v => s.push v
  | .pushb v => s.push (v.signExtend 32)
  | .movlEax v => { s with cpu := { s.cpu with eax := v } }
  | .int _ => s
  | .addlEsp v => { s with cpu := { s.cpu with
      esp := s.cpu.esp + v.signExtend 32 } }
  | .jmp d => { s with cpu := { s.cpu with
      eip := s.cpu.eip + d.signExtend 32 } }

end Coded

/-- The bytes stand in memory from an address on. -/
def CodeAt (m : Memory) : Word → List UInt8 → Prop
  | _, [] => True
  | a, b :: bytes => m a.toNat = b ∧ CodeAt m (a + 1) bytes

/-- Where the `k`-th instruction of a program begins. -/
def codeOffset (code : List Coded) (k : Nat) : Nat :=
  ((code.take k).flatMap Coded.encode).length

variable {m m' : Memory} {a : Word} {bytes other : List UInt8}
  {code : List Coded} {instr : Coded} {k : Nat}

theorem codeAt_append : CodeAt m a (bytes ++ other) ↔
    CodeAt m a bytes ∧ CodeAt m (a + BitVec.ofNat 32 bytes.length) other := by
  induction bytes generalizing a with
  | nil =>
      rw [List.nil_append, List.length_nil, BitVec.add_zero, CodeAt,
        true_and]
  | cons b bytes ih =>
      have hplace : a + BitVec.ofNat 32 (b :: bytes).length =
          a + 1 + BitVec.ofNat 32 bytes.length := by
        rw [List.length_cons, Nat.add_comm, BitVec.ofNat_add,
          ← BitVec.add_assoc]
        rfl
      rw [List.cons_append, CodeAt, CodeAt, ih, and_assoc, hplace]

theorem CodeAt.congr (h : CodeAt m a bytes)
    (hsame : SameFrom m m' a bytes.length) : CodeAt m' a bytes := by
  induction bytes generalizing a with
  | nil => trivial
  | cons b bytes ih =>
      have hfirst := hsame 0 (Nat.succ_pos _)
      rw [BitVec.add_zero] at hfirst
      rw [List.length_cons, Nat.add_comm] at hsame
      exact ⟨hfirst.trans h.1, ih h.2 hsame.skip⟩

/-- One byte of it, where addresses do not wrap around. -/
theorem CodeAt.get {i : Nat} (h : CodeAt m a bytes) (hi : i < bytes.length)
    (hfit : a.toNat + bytes.length ≤ 4294967296) :
    m (a.toNat + i) = bytes[i] := by
  induction bytes generalizing a i with
  | nil => exact absurd hi (Nat.not_lt_zero i)
  | cons b bytes ih =>
      rw [List.length_cons] at hi hfit
      cases i with
      | zero => exact h.1
      | succ i =>
          have hnext : (a + 1).toNat = a.toNat + 1 := by bv_omega
          have hbyte := ih (i := i) h.2 (by omega) (by rw [hnext]; omega)
          rw [hnext, Nat.add_assoc, Nat.add_comm 1 i] at hbyte
          exact hbyte

theorem codeAt_of_bytes (hfit : a.toNat + bytes.length ≤ 4294967296)
    (h : ∀ i (hi : i < bytes.length), m (a.toNat + i) = bytes[i]) :
    CodeAt m a bytes := by
  induction bytes generalizing a with
  | nil => trivial
  | cons b bytes ih =>
      rw [List.length_cons] at hfit
      have hnext : bytes ≠ [] → (a + 1).toNat = a.toNat + 1 := by
        intro hne
        have hlength := List.length_pos_iff.mpr hne
        bv_omega
      refine ⟨h 0 (Nat.succ_pos _), ?_⟩
      by_cases hne : bytes = []
      · rw [hne]
        trivial
      · refine ih (by rw [hnext hne]; omega) fun i hi => ?_
        rw [hnext hne, Nat.add_assoc, Nat.add_comm 1]
        exact h (i + 1) (Nat.succ_lt_succ hi)

theorem CodeAt.word {v : Word} (h : CodeAt m a (wordBytes v)) :
    wordAt m a = v := by
  obtain ⟨h0, h1, h2, h3, -⟩ := h
  have htwo : a + 1 + 1 = a + 2 := by bv_omega
  have hthree : a + 1 + 1 + 1 = a + 3 := by bv_omega
  rw [htwo] at h2
  rw [hthree] at h3
  rw [wordAt, h0, h1, h2, h3]
  exact bytes_word v

/-- An instruction is found where it was put. -/
theorem CodeAt.decode (h : CodeAt m a instr.encode) :
    Coded.decode m a = some instr := by
  rw [Coded.decode]
  cases instr with
  | pushl v =>
      rw [h.1]
      exact congrArg (fun w => some (Coded.pushl w)) h.2.word
  | pushb v =>
      rw [h.1]
      exact congrArg (fun b => some (Coded.pushb b.toBitVec)) h.2.1
  | movlEax v =>
      rw [h.1]
      exact congrArg (fun w => some (Coded.movlEax w)) h.2.word
  | int vector =>
      rw [h.1]
      exact congrArg (fun b => some (Coded.int b)) h.2.1
  | addlEsp v =>
      rw [h.1]
      simp only [h.2.1, h.2.2.1, ↓reduceIte]
  | jmp d =>
      rw [h.1]
      exact congrArg (fun b => some (Coded.jmp b.toBitVec)) h.2.1

theorem codeOffset_succ (hk : code[k]? = some instr) :
    codeOffset code (k + 1) = codeOffset code k + instr.encode.length := by
  rw [codeOffset, codeOffset, List.take_add_one, hk, List.flatMap_append,
    List.length_append, Option.toList_some, List.flatMap_singleton]

/-- So is every instruction of a program. -/
theorem CodeAt.decode_code (h : CodeAt m a (code.flatMap Coded.encode))
    (hk : code[k]? = some instr) :
    Coded.decode m (a + BitVec.ofNat 32 (codeOffset code k)) = some instr := by
  have hsplit : code = code.take k ++ instr :: code.drop (k + 1) := by
    obtain ⟨hlt, hget⟩ := List.getElem?_eq_some_iff.mp hk
    rw [← hget, ← List.drop_eq_getElem_cons hlt, List.take_append_drop]
  rw [hsplit, List.flatMap_append, List.flatMap_cons, codeAt_append,
    codeAt_append] at h
  exact h.2.1.decode

/-- An instruction that is no jump is followed by the next one. -/
theorem Coded.exec_eip (s : State) (hjmp : ∀ d, instr ≠ .jmp d) :
    (instr.exec s).cpu.eip =
      s.cpu.eip + BitVec.ofNat 32 instr.encode.length := by
  cases instr with
  | jmp d => exact absurd rfl (hjmp d)
  | _ => rfl

end X86
