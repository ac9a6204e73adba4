/-
The print system call of sysapi.c: a string of the process used as the format
of `kprintf`.
-/
import Linda.Syscalls
import Linda.PrintfScan

namespace Linda

open ByteMemory

/-- `"syscall[print]: arg error!\n"` -/
def printArgError : List UInt8 :=
  [0x73, 0x79, 0x73, 0x63, 0x61, 0x6C, 0x6C, 0x5B, 0x70, 0x72, 0x69, 0x6E,
   0x74, 0x5D, 0x3A, 0x20, 0x61, 0x72, 0x67, 0x20, 0x65, 0x72, 0x72, 0x6F,
   0x72, 0x21, 0x0A]

def bytesAt (mem : Memory) (start len : Nat) : List UInt8 :=
  (List.range len).map fun i => mem (start + i)

/-- `print`: what it prints and what it returns. The variadic arguments of its
`kprintf` are whatever the kernel stack holds there. -/
def print (va : VaList) (proc : Process) (mem : Memory) :
    Except Formatted (Printed × Int) :=
  let arg := argstr proc mem 0
  match arg.res with
  | none => do
      let printed ← kprintf va printArgError
      .ok (printed, -1)
  | some msg =>
      if arg.ret < 0 then do
        let printed ← kprintf va printArgError
        .ok (printed, -1)
      else do
        let printed ← kprintf va (bytesAt mem msg.toNat arg.ret.toNat)
        .ok (printed, printed.ret)

/-- The string the process passes, one that `argstr` accepts. -/
structure PassesString (proc : Process) (mem : Memory) (msg : List UInt8) :
    Prop where
  accepted : 0 ≤ (argstr proc mem 0).ret
  bytes : ∃ start, argWord proc mem 0 = some start ∧
    FirstNul proc mem start.toNat (start.toNat + msg.length) ∧
      msg = bytesAt mem start.toNat msg.length

/-- The message reaches the console as it is, and nothing else is read or
written. -/
structure CopiesOut (msg : List UInt8) (printed : Printed) (ret : Int) :
    Prop where
  console : printed.console = msg
  ret : ret = msg.length
  taken : printed.taken = 0
  stores : printed.stores = []
  buf : printed.buf.length ≤ printBuffer

/-- `print` comes back, and has copied the message. -/
def Verbatim (va : VaList) (proc : Process) (mem : Memory)
    (msg : List UInt8) : Prop :=
  ∃ printed ret, print va proc mem = .ok (printed, ret) ∧
    CopiesOut msg printed ret

section Strings

variable {proc : Process} {mem : Memory} {msg : List UInt8}

theorem PassesString.noNul (h : PassesString proc mem msg) : 0 ∉ msg := by
  obtain ⟨start, -, ⟨-, -, -, hfirst⟩, hbytes⟩ := h.bytes
  rw [hbytes]
  intro hmem
  obtain ⟨i, hi, hzero⟩ := List.mem_map.mp hmem
  have hlt := List.mem_range.mp hi
  exact hfirst (start.toNat + i) (by omega) (by omega) hzero

theorem PassesString.print_eq (h : PassesString proc mem msg) (va : VaList) :
    print va proc mem = (do
      let printed ← kprintf va msg
      .ok (printed, (printed.ret : Int))) := by
  obtain ⟨start, hword, hnul, hbytes⟩ := h.bytes
  have hret : (argstr proc mem 0).ret = asInt (UInt32.ofNat msg.length) := by
    rw [argstr_some hword, fetchStr_found hnul, Nat.add_sub_cancel_left]
  have hlength : (argstr proc mem 0).ret.toNat = msg.length := by
    have haccepted := h.accepted
    have hsize := proc.size.toNat_lt
    have hend := hnul.2.1
    by_cases hsmall : msg.length < 2147483648
    · rw [hret, asInt_ofNat hsmall, Int.toNat_natCast]
    · have hneg := asInt_ofNat_neg (d := msg.length) (by omega) (by omega)
      rw [hret] at haccepted
      omega
  have hres : (argstr proc mem 0).res = some start := by
    have hinside : ¬ proc.size.toNat ≤ start.toNat := by
      have hend := hnul.2.1
      omega
    rw [argstr, argint_res, hword]
    simp only [fetchStr, if_neg hinside]
  have hneg : ¬ (argstr proc mem 0).ret < 0 := by
    have haccepted := h.accepted
    omega
  simp only [print, hres, hneg, ↓reduceIte, hlength, ← hbytes]

end Strings

/-- A text with no conversion in it is printed as it is. -/
theorem kprintf_copies (va : VaList) {msg : List UInt8} (hne : msg ≠ [])
    (hnul : 0 ∉ msg) (hmsg : NoConversion msg) :
    kprintf va msg = .ok ⟨msg ++ [0], msg, 0, [], msg.length⟩ := by
  have hcopied : vsprintf va msg = .ok ⟨msg, 0, []⟩ := by
    rw [vsprintf, formatLoop_copies _ le_rfl hnul hmsg, List.nil_append]
  have hwritten : consoleWrite (msg ++ [0]) = msg := by
    rw [consoleWrite, List.takeWhile_append_of_pos]
    · rw [List.takeWhile_cons_of_neg (by decide), List.append_nil]
    · intro c hc
      have hzero : c ≠ 0 := by
        rintro rfl
        exact hnul hc
      exact decide_eq_true hzero
  rw [kprintf, printWith_ok hcopied, if_neg hne, hwritten]

/-- `print` is verbatim on exactly the messages that are not empty, fit the
buffer and hold no conversion. -/
theorem verbatim_iff {proc : Process} {mem : Memory} {msg : List UInt8}
    (h : PassesString proc mem msg) (va : VaList) :
    Verbatim va proc mem msg ↔
      msg ≠ [] ∧ msg.length ≤ 1023 ∧ NoConversion msg := by
  have hprint := h.print_eq va
  constructor
  · rintro ⟨printed, ret, hreturns, hconsole, hret, htaken, -, hbuf⟩
    rw [hprint] at hreturns
    obtain ⟨found, hfound, hsame⟩ := FuelLoop.ok_of_bind hreturns
    obtain ⟨rfl, rfl⟩ := Prod.mk.inj (Except.ok.inj hsame)
    obtain ⟨s, hs⟩ := printWith_returns hfound
    rw [kprintf, printWith_ok hs, Except.ok.injEq] at hfound
    subst hfound
    simp only [Nat.cast_inj, List.length_append, List.length_singleton,
      printBuffer] at hconsole hret htaken hbuf
    refine ⟨?_, by omega, ?_⟩
    · rintro rfl
      rw [List.length_nil, List.length_eq_zero_iff] at hret
      rw [if_pos hret] at hconsole
      exact absurd hconsole (by decide)
    · apply (formatLength_le h.noNul hs htaken).2
      exact (vsprintf_length hs).symm.trans hret
  · rintro ⟨hne, hfits, hmsg⟩
    rw [kprintf_copies va hne h.noNul hmsg] at hprint
    refine ⟨_, _, hprint, rfl, rfl, rfl, rfl, ?_⟩
    rw [List.length_append, List.length_singleton, printBuffer]
    omega

/-- The memory of a process whose first argument points to two characters. -/
def twoCharacters (first second : UInt8) : Memory := fun a =>
  if a = 4 then 8 else if a = 8 then first else if a = 9 then second else 0

theorem passesString_two {first second : UInt8} (hfirst : first ≠ 0)
    (hsecond : second ≠ 0) :
    PassesString userProcess (twoCharacters first second) [first, second] := by
  have hword : argWord userProcess (twoCharacters first second) 0 = some 8 := rfl
  have hnul : FirstNul userProcess (twoCharacters first second)
      (8 : UInt32).toNat 10 := by
    refine ⟨by decide, by decide, rfl, ?_⟩
    intro a hlow hhigh
    obtain rfl | rfl : a = 8 ∨ a = 9 := by
      have hstart : (8 : UInt32).toNat = 8 := rfl
      omega
    · exact hfirst
    · exact hsecond
  constructor
  · rw [argstr_some hword, fetchStr_found hnul]
    decide
  · exact ⟨8, hword, hnul, rfl⟩

theorem verbatim_hi :
    Verbatim ⟨fun _ => 0, fun _ => []⟩ userProcess (twoCharacters 0x68 0x69)
      [0x68, 0x69] := by
  apply (verbatim_iff (passesString_two (by decide) (by decide)) _).mpr
  refine ⟨by decide, by decide, ?_⟩
  unfold NoConversion
  decide

/-- The string `%d` prints a word of the kernel stack. -/
theorem format_not_verbatim :
    PassesString userProcess (twoCharacters 0x25 0x64) [0x25, 0x64] ∧
      ¬ Verbatim ⟨fun _ => 7, fun _ => []⟩ userProcess (twoCharacters 0x25 0x64)
        [0x25, 0x64] := by
  have hpasses : PassesString userProcess (twoCharacters 0x25 0x64)
      [0x25, 0x64] := passesString_two (by decide) (by decide)
  refine ⟨hpasses, ?_⟩
  have hprinted : kprintf ⟨fun _ => 7, fun _ => []⟩ [0x25, 0x64] =
      .ok ⟨[0x37, 0], [0x37], 1, [], 1⟩ := by decide +kernel
  rintro ⟨printed, ret, hreturns, hcopies⟩
  rw [hpasses.print_eq, hprinted] at hreturns
  cases hreturns
  cases hcopies.taken

end Linda
