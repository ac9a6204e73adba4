/-
What code that only pushes writes: the bytes by which the stack grows.
-/
import Linda.X86
import Mathlib.Algebra.BigOperators.Group.List.Basic

namespace X86

open ByteMemory WordStack

/-- The stack has grown by `n` bytes, and nothing else was written. -/
structure Grows (s s' : State) (n : Nat) : Prop where
  esp : s'.cpu.esp = s.cpu.esp - BitVec.ofNat 32 n
  mem : ∀ x, (∀ i < n, x ≠ (s.cpu.esp - BitVec.ofNat 32 (i + 1)).toNat) →
    s'.mem x = s.mem x

section Growth

variable {s s' s'' : State} {n k : Nat} {pad : Word → Selector}

theorem Grows.refl (s : State) : Grows s s 0 :=
  ⟨(BitVec.sub_zero _).symm, fun _ _ => rfl⟩

theorem Grows.trans (h : Grows s s' n) (h' : Grows s' s'' k) :
    Grows s s'' (n + k) := by
  constructor
  · rw [h'.esp, h.esp, BitVec.ofNat_add, BitVec.sub_sub]
  · intro x hx
    have hlower : ∀ i < k,
        x ≠ (s'.cpu.esp - BitVec.ofNat 32 (i + 1)).toNat := by
      intro i hi
      have hne := hx (n + i) (by omega)
      rwa [h.esp, BitVec.sub_sub, ← BitVec.ofNat_add, ← Nat.add_assoc]
    exact (h'.mem x hlower).trans (h.mem x fun i hi => hx i (by omega))

theorem Grows.push (s : State) (v : Word) : Grows s (s.push v) 4 := by
  refine ⟨rfl, fun x hx => putWord_of_outside fun i hi => ?_⟩
  have hne := hx (3 - i) (by omega)
  have hplace : s.cpu.esp - BitVec.ofNat 32 (3 - i + 1) =
      s.cpu.esp - 4 + BitVec.ofNat 32 i := by
    bv_omega
  rwa [hplace] at hne

theorem Grows.pushSelector (pad : Word → Selector) (s : State)
    (sel : Selector) : Grows s (s.pushSelector pad sel) 4 := Grows.push s _

theorem Grows.pushes (s : State) (ws : List Word) :
    Grows s (ws.foldl State.push s) (4 * ws.length) := by
  induction ws generalizing s with
  | nil => exact Grows.refl s
  | cons w ws ih =>
      have hboth := (Grows.push s w).trans (ih (s.push w))
      rwa [List.length_cons, Nat.mul_succ, Nat.add_comm]

/-- The bytes that an instruction pushes, if it does no more than that. -/
def Instr.pushed : Instr → Option Nat
  | .pushl _ => some 4
  | .pushImm _ => some 4
  | .pushSeg _ => some 4
  | .pushal => some 32
  | .movAx _ => some 0
  | .movSeg _ => some 0
  | _ => none

theorem exec_grows (pad : Word → Selector) (s : State) {instr : Instr}
    (h : instr.pushed = some n) : Grows s (exec pad s instr) n := by
  cases instr with
  | pushl r =>
      cases h
      exact Grows.push s _
  | pushImm v =>
      cases h
      exact Grows.push s _
  | pushSeg g =>
      cases h
      exact Grows.push s _
  | pushal =>
      cases h
      exact Grows.pushes s _
  | movAx v =>
      cases h
      exact ⟨(BitVec.sub_zero _).symm, fun _ _ => rfl⟩
  | movSeg g =>
      cases h
      refine ⟨?_, fun _ _ => rfl⟩
      cases g <;> exact (BitVec.sub_zero _).symm
  | _ => cases h

/-- Code that only pushes. -/
theorem run_grows (pad : Word → Selector) (instrs : List Instr) (s : State)
    (h : ∀ instr ∈ instrs, instr.pushed.isSome) :
    Grows s (run pad instrs s)
      (instrs.map fun instr => instr.pushed.getD 0).sum := by
  induction instrs generalizing s with
  | nil => exact Grows.refl s
  | cons instr instrs ih =>
      obtain ⟨n, hn⟩ := Option.isSome_iff_exists.mp (h instr List.mem_cons_self)
      have hrest := ih (exec pad s instr)
        (fun other hother => h other (List.mem_cons_of_mem _ hother))
      rw [run_cons, List.map_cons, List.sum_cons, hn]
      exact (exec_grows pad s hn).trans hrest

end Growth

end X86
