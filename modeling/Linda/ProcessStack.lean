/-
The kernel stack of a new process: the context and the trap frame, and that
nothing else is written with them.
-/
import Linda.TrapEntry

namespace Linda

open ByteMemory WordStack X86

variable {m : Memory} {tf kstack : Word}

/-- The frame `uinitproc_setup` fills, as a stack from `tf` on. -/
theorem setupFrame_slots (hfit : tf.toNat + 76 ≤ 4294967296) :
    StackAt (setupFrame tf m) tf (frameSlots 0 initialCpu 0 0 0) := by
  have hzero : StackAt (fill m tf.toNat (4 * 19) 0) tf
      (List.replicate 19 (.word 0)) := .zeros hfit
  have hcs := hzero.setHalf (k := 15) (by decide) (by decide)
    (userSelector segUcode)
  have hds := hcs.setHalf (k := 11) (by decide) (by decide)
    (userSelector segUdata)
  have hes := hds.copyHalf (j := 11) (k := 10) rfl (by decide) (by decide)
  have hss := hes.copyHalf (j := 11) (k := 18) rfl (by decide) (by decide)
  have heflags := hss.setWord (k := 16) (by decide) (by decide) interruptFlag
  have hesp := heflags.setWord (k := 17) (by decide) (by decide)
    (BitVec.ofNat 32 pgSize)
  have heip := hesp.setWord (k := 14) (by decide) (by decide) 0
  -- `gs` and `fs` were zeroed as parts of words
  have hgs := heip.toHalf (k := 8) (w := 0) rfl
  exact hgs.toHalf (k := 9) (w := 0) rfl

theorem setupFrame_of_outside {x : Nat} (hfit : tf.toNat + 76 ≤ 4294967296)
    (hx : x < tf.toNat ∨ tf.toNat + 76 ≤ x) : setupFrame tf m x = m x := by
  have hword (k : Nat) (hk : k + 4 ≤ 76) (m : Memory) (v : Word) :
      putWord m (tf + BitVec.ofNat 32 k) v x = m x :=
    putWord_of_beside (by bv_omega) (by bv_omega)
  have hhalf (k : Nat) (hk : k + 4 ≤ 76) (m : Memory) (v : Selector) :
      putHalf m (tf + BitVec.ofNat 32 k) v x = m x :=
    putHalf_of_outside fun i hi => by bv_omega
  simp only [setupFrame]
  rw [hword _ (by decide), hword _ (by decide), hword _ (by decide),
    hhalf _ (by decide), hhalf _ (by decide), hhalf _ (by decide),
    hhalf _ (by decide)]
  exact fill_of_outside m 0 (by rw [trapframeSize_eq]; omega)

theorem tfOf_toNat (hfit : kstack.toNat + 4096 ≤ 4294967296) :
    (tfOf kstack).toNat = kstack.toNat + 4020 := by
  rw [tfOf, trapframeSize_eq, kstackSize]
  bv_omega

theorem contextOf_toNat (hfit : kstack.toNat + 4096 ≤ 4294967296) :
    (contextOf kstack).toNat = kstack.toNat + 3996 := by
  have htf := tfOf_toNat hfit
  rw [contextOf, contextSize_eq]
  bv_omega

/-- What `alloc_process` leaves under the frame. -/
def freshSlots (sym : Symbols) : List Slot :=
  [.word 0, .word 0, .word 0, .word 0, .word sym.forkret, .word sym.trapret]

variable {sym : Symbols} {i : Nat}

theorem returnSlot_toNat (hfit : kstack.toNat + 4096 ≤ 4294967296) :
    (tfOf kstack - 4).toNat = kstack.toNat + 4016 := by
  have htf := tfOf_toNat hfit
  bv_omega

theorem contextEip_toNat (hfit : kstack.toNat + 4096 ≤ 4294967296) :
    (contextOf kstack + BitVec.ofNat 32 (ContextField.offset .eip)).toNat =
      kstack.toNat + 4012 := by
  have hctx := contextOf_toNat hfit
  have heip : ContextField.offset .eip = 16 := by decide
  rw [heip]
  bv_omega

theorem stackMemory_of_outside {x : Nat}
    (hfit : kstack.toNat + 4096 ≤ 4294967296)
    (hcontext : (sym.context i).toNat + 4 ≤ 4294967296)
    (hx : x < kstack.toNat ∨ kstack.toNat + 4096 ≤ x)
    (hx' : x < (sym.context i).toNat ∨ (sym.context i).toNat + 4 ≤ x) :
    stackMemory sym i kstack m x = m x := by
  have hret := returnSlot_toNat hfit
  have hctx := contextOf_toNat hfit
  have heip := contextEip_toNat hfit
  have hsize := contextSize_eq
  rw [stackMemory, putWord_of_beside (by omega) (by omega),
    fill_of_outside _ _ (by omega), putWord_of_beside hcontext hx',
    putWord_of_beside (by omega) (by omega)]

/-- The stack of a new process, as `alloc_process` leaves it. -/
theorem stackMemory_slots (hfit : kstack.toNat + 4096 ≤ 4294967296)
    (hcontext : (sym.context i).toNat + 4 ≤ 4294967296)
    (hover : NoOverlap (sym.context i).toNat 4 kstack.toNat 4096) :
    StackAt (stackMemory sym i kstack m) (contextOf kstack) (freshSlots sym) ∧
      wordAt (stackMemory sym i kstack m) (sym.context i) =
        contextOf kstack := by
  have hret := returnSlot_toNat hfit
  have hctx := contextOf_toNat hfit
  have heip := contextEip_toNat hfit
  have hsize := contextSize_eq
  have hbehind : contextOf kstack + BitVec.ofNat 32 (4 * 5) =
      tfOf kstack - 4 := by
    rw [contextOf, hsize]
    bv_omega
  rw [NoOverlap] at hover
  let m₁ := putWord m (tfOf kstack - 4) sym.trapret
  let m₂ := putWord m₁ (sym.context i) (contextOf kstack)
  let m₃ := fill m₂ (contextOf kstack).toNat (4 * 5) 0
  have hmem : stackMemory sym i kstack m =
      putWord m₃ (contextOf kstack + BitVec.ofNat 32 (4 * 4)) sym.forkret := by
    rw [stackMemory, hsize]
    rfl
  have houtside (x : Nat) (hx : x < kstack.toNat + 3996 ∨
      kstack.toNat + 4016 ≤ x) : m₃ x = m₂ x :=
    fill_of_outside m₂ 0 (by omega)
  rw [hmem]
  constructor
  · have hzeros : StackAt m₃ (contextOf kstack) (List.replicate 5 (.word 0)) :=
      .zeros (by omega)
    have hreturn : wordAt m₃ (tfOf kstack - 4) = sym.trapret := by
      have hsame : SameFrom m₁ m₃ (tfOf kstack - 4) 4 :=
        .of_bytes (by omega) fun x hlo hhi => by
          rw [houtside x (by omega)]
          exact putWord_of_beside hcontext (by omega)
      rw [hsame.wordAt le_rfl]
      exact wordAt_putWord_same m _ _
    have hall : StackAt m₃ (contextOf kstack)
        (List.replicate 5 (.word 0) ++ [.word sym.trapret]) := by
      refine hzeros.append ⟨?_, trivial⟩
      rw [List.length_replicate, hbehind]
      exact hreturn
    exact hall.setWord (k := 4) (Nat.le_of_ble_eq_true rfl)
      (Nat.le_of_ble_eq_true rfl) sym.forkret
  · have hsame : SameFrom m₂ (putWord m₃ (contextOf kstack +
        BitVec.ofNat 32 (4 * 4)) sym.forkret) (sym.context i) 4 :=
      .of_bytes hcontext fun x hlo hhi => by
        rw [putWord_of_beside (by bv_omega) (by bv_omega),
          houtside x (by omega)]
    rw [hsame.wordAt le_rfl]
    exact wordAt_putWord_same m₁ _ _

/-- The stack of a process that was never dispatched, up to its top. -/
def startSlots (sym : Symbols) : List Slot :=
  freshSlots sym ++ frameSlots 0 initialCpu 0 0 0

/-- `uinitproc_setup` leaves what lies under the frame. -/
theorem setupFrame_start (hfit : kstack.toNat + 4096 ≤ 4294967296)
    (hfresh : StackAt m (contextOf kstack) (freshSlots sym)) :
    StackAt (setupFrame (tfOf kstack) m) (contextOf kstack)
      (startSlots sym) := by
  have htf := tfOf_toNat hfit
  have hctx := contextOf_toNat hfit
  refine StackAt.append (hfresh.congr (.of_bytes ?_ fun a hlo hhi => ?_)) ?_
  · simp only [freshSlots, List.length_cons, List.length_nil]
    omega
  · simp only [freshSlots, List.length_cons, List.length_nil] at hhi
    exact setupFrame_of_outside (by omega) (by omega)
  · have hbehind : contextOf kstack + BitVec.ofNat 32 (4 * 6) =
        tfOf kstack := by
      bv_omega
    have hlength : (freshSlots sym).length = 6 := rfl
    rw [hlength, hbehind]
    exact setupFrame_slots (by omega)

theorem initialCpu_level : initialCpu.cpl = 3 := by decide

end Linda
