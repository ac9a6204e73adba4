/-
The system call layer of syscall.c: how arguments are fetched from the stack
and the memory of the process, and how the number selects a function.
-/
import Linda.ByteMemory
import Linda.Printf

namespace Linda

open ByteMemory

def userSize : Nat := 0xC0000000

/-- The padding words of the frame are left out. -/
structure TrapFrame where
  edi : UInt32
  esi : UInt32
  ebp : UInt32
  oesp : UInt32
  ebx : UInt32
  edx : UInt32
  ecx : UInt32
  eax : UInt32
  gs : UInt16
  fs : UInt16
  es : UInt16
  ds : UInt16
  trapno : UInt32
  err : UInt32
  eip : UInt32
  cs : UInt16
  eflags : UInt32
  esp : UInt32
  ss : UInt16
deriving Repr, DecidableEq

/-- What syscall.c reads of `struct process`; `name` ends before its NUL. -/
structure Process where
  size : UInt32
  pid : UInt32
  name : List UInt8
  tf : TrapFrame
  size_le : size.toNat ≤ userSize

/-- The outcome of a fetch: what it returns, what it stores behind `res` and
the user addresses it reads. -/
structure Fetched where
  ret : Int
  res : Option UInt32
  reads : List Nat
deriving Repr, DecidableEq

def fetchInt (proc : Process) (mem : Memory) (addr : UInt32) : Fetched :=
  if proc.size.toNat ≤ addr.toNat ∨ proc.size.toNat < (addr + 4).toNat then
    ⟨-1, none, []⟩
  else
    ⟨0, some (UInt32.ofNat (load32 mem addr.toNat)),
      (List.range 4).map (addr.toNat + ·)⟩

/-- The loop of `fetch_str` with `n` bytes from `s` to the end; the distance
is returned as an `int`. -/
def strScan (mem : Memory) (start : Nat) : Nat → Nat → Int × List Nat
  | 0, _ => (-1, [])
  | n + 1, s =>
      if mem s = 0 then (asInt (UInt32.ofNat (s - start)), [s])
      else
        let found := strScan mem start n (s + 1)
        (found.1, s :: found.2)

def fetchStr (proc : Process) (mem : Memory) (addr : UInt32) : Fetched :=
  if proc.size.toNat ≤ addr.toNat then ⟨-1, none, []⟩
  else
    let found := strScan mem addr.toNat (proc.size.toNat - addr.toNat) addr.toNat
    ⟨found.1, some addr, found.2⟩

def argint (proc : Process) (mem : Memory) (n : UInt32) : Fetched :=
  fetchInt proc mem (proc.tf.esp + n * 4 + 4)

def argptr (proc : Process) (mem : Memory) (n size : UInt32) : Fetched :=
  let arg := argint proc mem n
  match arg.res with
  | none => ⟨-1, none, arg.reads⟩
  | some addr =>
      if asInt size < 0 ∨ proc.size.toNat ≤ addr.toNat ∨
          proc.size.toNat < (addr + size).toNat then
        ⟨-1, none, arg.reads⟩
      else ⟨0, some addr, arg.reads⟩

def argstr (proc : Process) (mem : Memory) (n : UInt32) : Fetched :=
  let arg := argint proc mem n
  match arg.res with
  | none => ⟨-1, none, arg.reads⟩
  | some addr =>
      let str := fetchStr proc mem addr
      ⟨str.ret, str.res, arg.reads ++ str.reads⟩

/-- The functions of the table. -/
inductive SysFn where
  | print
deriving Repr, DecidableEq

/-- `syscalls`: 22 null entries before `[SYS_PRINT]`. -/
def syscalls : List (Option SysFn) := List.replicate 22 none ++ [some .print]

/-- What the table entry makes the kernel call; behind the table it is
whatever word the kernel has there. -/
inductive Callee where
  | listed (fn : SysFn)
  | unlisted (addr : UInt32)
deriving Repr, DecidableEq

/-- `syscalls[idx]`, with `behind` the words after the table. -/
def syscallEntry (behind : Nat → UInt32) (idx : Nat) : Option Callee :=
  if idx < syscalls.length then (syscalls.getD idx none).map .listed
  else if behind idx = 0 then none
  else some (.unlisted (behind idx))

/-- The arguments of the message for an unknown number. -/
structure UnknownCall where
  pid : UInt32
  name : List UInt8
  idx : Int
deriving Repr, DecidableEq

def UnknownCall.text : String := "%d %s: unknown system call %d!\n"

/-- A run of `syscall`: the index it reads the table at, what it calls, what
it prints and the trap frame it leaves. -/
structure Dispatched where
  indexed : Option Nat
  called : Option Callee
  unknown : Option UnknownCall
  tf : TrapFrame
deriving Repr, DecidableEq

/-- `syscall`; `result` is what the called function returns. -/
def syscall (behind : Nat → UInt32) (result : Callee → UInt32)
    (proc : Process) : Dispatched :=
  let idx := asInt proc.tf.eax
  let refused (indexed : Option Nat) : Dispatched :=
    ⟨indexed, none, some ⟨proc.pid, proc.name, idx⟩,
      { proc.tf with eax := 0xFFFFFFFF }⟩
  if 0 < idx then
    match syscallEntry behind idx.toNat with
    | some callee =>
        ⟨some idx.toNat, some callee, none, { proc.tf with eax := result callee }⟩
    | none => refused (some idx.toNat)
  else refused none

section Fetching

variable (proc : Process) (mem : Memory)

/-- A NUL of the process, the first from `start` on. -/
def FirstNul (start nul : Nat) : Prop :=
  start ≤ nul ∧ nul < proc.size.toNat ∧ mem nul = 0 ∧
    ∀ a, start ≤ a → a < nul → mem a ≠ 0

/-- The word of the `n`-th argument, where the process has one. -/
def argWord (n : UInt32) : Option UInt32 :=
  let addr := proc.tf.esp + n * 4 + 4
  if addr.toNat + 4 ≤ proc.size.toNat then
    some (UInt32.ofNat (load32 mem addr.toNat))
  else none

/-- The fetch of a string tells the distance to its NUL. -/
def FindsString (start : Nat) (fetched : Fetched) : Prop :=
  (0 ≤ fetched.ret ↔ ∃ nul, FirstNul proc mem start nul) ∧
    ∀ nul, FirstNul proc mem start nul → 0 ≤ fetched.ret →
      fetched.ret = (nul - start : Nat)

/-- The arguments are confined to the process. -/
structure Confined (addr n size : UInt32) : Prop where
  reads : ∀ fetched ∈ [fetchInt proc mem addr, argint proc mem n,
      fetchStr proc mem addr, argstr proc mem n, argptr proc mem n size],
    ∀ a ∈ fetched.reads, a < proc.size.toNat
  pointer : 0 ≤ (argptr proc mem n size).ret → ∃ ptr,
    (argptr proc mem n size).res = some ptr ∧
      ptr.toNat + size.toNat ≤ proc.size.toNat
  string : FindsString proc mem addr.toNat (fetchStr proc mem addr)
  argument : ∀ start, argWord proc mem n = some start →
    FindsString proc mem start.toNat (argstr proc mem n)
  missing : argWord proc mem n = none → (argstr proc mem n).ret < 0

/-- The first NUL, if there is one, is near enough for an `int`. -/
def NulInReach (start : UInt32) : Prop :=
  ∀ nul, FirstNul proc mem start.toNat nul → nul - start.toNat < 2147483648

/-- The end of the range does not wrap past the top of memory. -/
def EndsInMemory (ptr size : UInt32) : Prop :=
  0 ≤ asInt size → ptr.toNat < proc.size.toNat →
    ptr.toNat + size.toNat < 4294967296

variable {proc mem} {addr n size start : UInt32}

/-- Below `USERSIZE` the bound of `fetch_int` does not wrap. -/
theorem fetchInt_bound (proc : Process) (addr : UInt32) :
    (proc.size.toNat ≤ addr.toNat ∨ proc.size.toNat < (addr + 4).toNat) ↔
      ¬ addr.toNat + 4 ≤ proc.size.toNat := by
  have hsize := proc.size_le
  have hend : (addr + 4).toNat = (addr.toNat + 4) % 4294967296 := by
    rw [UInt32.toNat_add]
    rfl
  rw [hend]
  simp only [userSize] at hsize
  omega

theorem argint_res : (argint proc mem n).res = argWord proc mem n := by
  rw [argint, fetchInt, argWord]
  simp only [fetchInt_bound]
  split_ifs <;> rfl

theorem fetchInt_reads {a : Nat}
    (ha : a ∈ (fetchInt proc mem addr).reads) : a < proc.size.toNat := by
  unfold fetchInt at ha
  split_ifs at ha with hout
  · cases ha
  · rw [fetchInt_bound, not_not] at hout
    obtain ⟨i, hi, rfl⟩ := List.mem_map.mp ha
    have hlt := List.mem_range.mp hi
    omega

theorem strScan_reads {first k s a : Nat}
    (ha : a ∈ (strScan mem first k s).2) : a < s + k := by
  induction k generalizing s with
  | zero => cases ha
  | succ k ih =>
      rw [strScan] at ha
      split_ifs at ha with hnul
      · rw [List.mem_singleton] at ha
        omega
      · rcases List.mem_cons.mp ha with rfl | ha
        · omega
        · have hlt := ih ha
          omega

theorem strScan_found {first k s nul : Nat} (hs : s ≤ nul) (hk : nul < s + k)
    (hnul : mem nul = 0) (hfirst : ∀ a, s ≤ a → a < nul → mem a ≠ 0) :
    (strScan mem first k s).1 = asInt (UInt32.ofNat (nul - first)) := by
  induction k generalizing s with
  | zero => omega
  | succ k ih =>
      rw [strScan]
      by_cases hhere : s = nul
      · rw [hhere, if_pos hnul]
      · rw [if_neg (hfirst s le_rfl (by omega))]
        exact ih (by omega) (by omega) fun a ha hlt => hfirst a (by omega) hlt

theorem strScan_none {first k s : Nat}
    (hnone : ∀ a, s ≤ a → a < s + k → mem a ≠ 0) :
    (strScan mem first k s).1 = -1 := by
  induction k generalizing s with
  | zero => rfl
  | succ k ih =>
      rw [strScan, if_neg (hnone s le_rfl (by omega))]
      exact ih fun a ha hlt => hnone a (by omega) (by omega)

theorem fetchStr_reads {a : Nat}
    (ha : a ∈ (fetchStr proc mem addr).reads) : a < proc.size.toNat := by
  unfold fetchStr at ha
  split_ifs at ha with hout
  · cases ha
  · have hlt := strScan_reads ha
    omega

theorem fetchStr_found {nul : Nat} (h : FirstNul proc mem addr.toNat nul) :
    (fetchStr proc mem addr).ret = asInt (UInt32.ofNat (nul - addr.toNat)) := by
  obtain ⟨hstart, hend, hnul, hfirst⟩ := h
  rw [fetchStr, if_neg (by omega)]
  exact strScan_found hstart (by omega) hnul hfirst

/-- Where a NUL is, there is a first one. -/
theorem exists_firstNul {first a : Nat} (hfirst : first ≤ a)
    (ha : a < proc.size.toNat) (hnul : mem a = 0) :
    ∃ nul, FirstNul proc mem first nul := by
  have hexists : ∃ b, first ≤ b ∧ b < proc.size.toNat ∧ mem b = 0 :=
    ⟨a, hfirst, ha, hnul⟩
  obtain ⟨hlow, hhigh, hzero⟩ := Nat.find_spec hexists
  refine ⟨Nat.find hexists, hlow, hhigh, hzero, ?_⟩
  intro b hb hlt hbnul
  exact Nat.find_min hexists hlt ⟨hb, hlt.trans hhigh, hbnul⟩

theorem fetchStr_none (h : ¬ ∃ nul, FirstNul proc mem addr.toNat nul) :
    (fetchStr proc mem addr).ret = -1 := by
  by_cases hout : proc.size.toNat ≤ addr.toNat
  · rw [fetchStr, if_pos hout]
  · rw [fetchStr, if_neg hout]
    apply strScan_none
    intro a ha hlt hnul
    exact h (exists_firstNul ha (by omega) hnul)

theorem asInt_ofNat {d : Nat} (h : d < 2147483648) :
    asInt (UInt32.ofNat d) = d := by
  have hd : (UInt32.ofNat d).toNat = d :=
    UInt32.toNat_ofNat_of_lt (by rw [UInt32.size]; omega)
  rw [asInt, hd, if_pos h]

theorem asInt_ofNat_neg {d : Nat} (hlow : 2147483648 ≤ d)
    (hhigh : d < 4294967296) : asInt (UInt32.ofNat d) < 0 := by
  have hd : (UInt32.ofNat d).toNat = d :=
    UInt32.toNat_ofNat_of_lt (by rw [UInt32.size]; omega)
  rw [asInt, hd, if_neg (by omega)]
  omega

theorem findsString_iff :
    FindsString proc mem addr.toNat (fetchStr proc mem addr) ↔
      NulInReach proc mem addr := by
  constructor
  · rintro ⟨hfound, -⟩ nul hnul
    by_contra hfar
    have hret := hfound.mpr ⟨nul, hnul⟩
    have hneg : asInt (UInt32.ofNat (nul - addr.toNat)) < 0 := by
      apply asInt_ofNat_neg (by omega)
      have hlt := hnul.2.1
      have hsize := proc.size.toNat_lt
      omega
    rw [fetchStr_found hnul] at hret
    omega
  · intro hreach
    refine ⟨⟨?_, ?_⟩, ?_⟩
    · intro hret
      by_contra hnone
      rw [fetchStr_none hnone] at hret
      omega
    · rintro ⟨nul, hnul⟩
      rw [fetchStr_found hnul, asInt_ofNat (hreach nul hnul)]
      exact Int.natCast_nonneg _
    · intro nul hnul _
      rw [fetchStr_found hnul, asInt_ofNat (hreach nul hnul)]

theorem argstr_some (h : argWord proc mem n = some start) :
    (argstr proc mem n).ret = (fetchStr proc mem start).ret := by
  rw [argstr, argint_res, h]

theorem argstr_none (h : argWord proc mem n = none) :
    (argstr proc mem n).ret = -1 := by
  rw [argstr, argint_res, h]

theorem argstr_reads {a : Nat}
    (ha : a ∈ (argstr proc mem n).reads) : a < proc.size.toNat := by
  rw [argstr] at ha
  split at ha
  · exact fetchInt_reads ha
  · rcases List.mem_append.mp ha with ha | ha
    · exact fetchInt_reads ha
    · exact fetchStr_reads ha

theorem argptr_reads {a : Nat}
    (ha : a ∈ (argptr proc mem n size).reads) : a < proc.size.toNat := by
  rw [argptr] at ha
  split at ha
  · exact fetchInt_reads ha
  · split_ifs at ha
    · exact fetchInt_reads ha
    · exact fetchInt_reads ha

/-- The range of a pointer argument that was accepted lies in the process
unless its end wrapped. -/
theorem argptr_iff {ptr : UInt32} (h : argWord proc mem n = some ptr) :
    (0 ≤ (argptr proc mem n size).ret → ∃ ptr,
      (argptr proc mem n size).res = some ptr ∧
        ptr.toNat + size.toNat ≤ proc.size.toNat) ↔
      EndsInMemory proc ptr size := by
  have hsize := proc.size_le
  have hlen := size.toNat_lt
  have hend : (ptr + size).toNat = (ptr.toNat + size.toNat) % 4294967296 :=
    UInt32.toNat_add ptr size
  simp only [userSize] at hsize
  rw [argptr, argint_res, h]
  simp only [hend]
  split_ifs with hrefused
  · have hret : ¬ (0 : Int) ≤ -1 := by decide
    simp only [hret, false_implies, true_iff]
    intro hpos hptr
    omega
  · have hret : (0 : Int) ≤ 0 := le_rfl
    simp only [hret, true_implies, Option.some.injEq, exists_eq_left']
    constructor
    · intro hin _ _
      omega
    · intro hmem
      have hlt := hmem (by omega) (by omega)
      omega

end Fetching

/-- The arguments are confined to the process exactly where no range wraps
and no NUL is out of reach. -/
theorem confined_iff (proc : Process) (mem : Memory) (addr n size : UInt32) :
    Confined proc mem addr n size ↔
      NulInReach proc mem addr ∧ ∀ ptr, argWord proc mem n = some ptr →
        NulInReach proc mem ptr ∧ EndsInMemory proc ptr size := by
  constructor
  · rintro ⟨-, hpointer, hstring, hargument, -⟩
    refine ⟨findsString_iff.mp hstring, ?_⟩
    intro ptr hptr
    constructor
    · have hfinds := hargument ptr hptr
      rw [FindsString, argstr_some hptr] at hfinds
      exact findsString_iff.mp hfinds
    · exact (argptr_iff hptr).mp hpointer
  · rintro ⟨haddr, hargs⟩
    refine ⟨?_, ?_, findsString_iff.mpr haddr, ?_, ?_⟩
    · intro fetched hfetched a ha
      simp only [List.mem_cons, List.not_mem_nil, or_false] at hfetched
      rcases hfetched with rfl | rfl | rfl | rfl | rfl
      · exact fetchInt_reads ha
      · exact fetchInt_reads ha
      · exact fetchStr_reads ha
      · exact argstr_reads ha
      · exact argptr_reads ha
    · cases hword : argWord proc mem n with
      | none =>
          intro hret
          rw [argptr, argint_res, hword] at hret
          have hneg : (0 : Int) ≤ -1 := hret
          omega
      | some ptr => exact (argptr_iff hword).mpr (hargs ptr hword).2
    · intro start hstart
      rw [FindsString, argstr_some hstart]
      exact findsString_iff.mpr (hargs start hstart).1
    · intro hnone
      rw [argstr_none hnone]
      decide

/-- A process of the largest size with 22 in eax, at the first instruction of
its page 0. -/
def userProcess : Process where
  size := 0xC0000000
  pid := 1
  name := [0x69, 0x6E, 0x69, 0x74]
  tf := {
    edi := 0, esi := 0, ebp := 0, oesp := 0, ebx := 0, edx := 0, ecx := 0
    eax := 22, gs := 0x23, fs := 0x23, es := 0x23, ds := 0x23, trapno := 64
    err := 0, eip := 0, cs := 0x1B, eflags := 0x202, esp := 0, ss := 0x23 }
  size_le := by decide

/-- The first argument is 0xBFFFFFFF; with 0x7FFFFFFF bytes behind it the sum
wraps. -/
theorem wrapped_range_accepted :
    ¬ Confined userProcess
      (fun a => if a < 4 then 0 else if a < 7 then 0xFF else 0xBF)
      0 0 0x7FFFFFFF := by
  intro hconfined
  obtain ⟨ptr, hptr, hin⟩ := hconfined.pointer (by decide)
  have hword : some (0xBFFFFFFF : UInt32) = some ptr := by
    rw [← hptr]
    decide
  obtain rfl := Option.some.inj hword
  exact absurd hin (by decide)

section Dispatch

variable (behind : Nat → UInt32) (result : Callee → UInt32) (proc : Process)

/-- The dispatch stays in the table, calls what the table lists for the number
and refuses every other number. -/
structure Closed : Prop where
  inside : ∀ idx, (syscall behind result proc).indexed = some idx →
    idx < syscalls.length
  calls : ∀ callee, (syscall behind result proc).called = some callee →
    ∃ fn, callee = .listed fn ∧ some fn ∈ syscalls
  listed : ∀ fn, syscalls[proc.tf.eax.toNat]? = some (some fn) →
    (syscall behind result proc).called = some (.listed fn)
  refused : (∀ fn, syscalls[proc.tf.eax.toNat]? ≠ some (some fn)) →
    (syscall behind result proc).called = none ∧
      (syscall behind result proc).tf = { proc.tf with eax := 0xFFFFFFFF }

/-- A number read as negative is refused before the table. -/
theorem syscall_negative (h : 2147483648 ≤ proc.tf.eax.toNat) :
    (syscall behind result proc).indexed = none ∧
      (syscall behind result proc).called = none ∧
      (syscall behind result proc).tf = { proc.tf with eax := 0xFFFFFFFF } := by
  have hneg : ¬ 0 < asInt proc.tf.eax := by
    have hlt := proc.tf.eax.toNat_lt
    rw [asInt, if_neg (by omega)]
    omega
  simp [syscall, hneg]

theorem syscalls_unlisted {idx : Nat} (h : idx < 22) :
    syscalls.getD idx none = none := by
  have hall : ∀ idx < 22, syscalls.getD idx none = none := by decide
  exact hall idx h

/-- The numbers below `SYS_PRINT` find an empty entry, or are not looked up. -/
theorem syscall_unlisted (h : proc.tf.eax.toNat < 22) :
    (∀ idx, (syscall behind result proc).indexed = some idx → idx < 22) ∧
      (syscall behind result proc).called = none ∧
      (syscall behind result proc).tf = { proc.tf with eax := 0xFFFFFFFF } := by
  have hidx : asInt proc.tf.eax = proc.tf.eax.toNat := by
    rw [asInt, if_pos (by omega)]
  have hlength : proc.tf.eax.toNat < syscalls.length :=
    Nat.lt_of_lt_of_le h (by decide)
  have hentry : syscallEntry behind (asInt proc.tf.eax).toNat = none := by
    rw [hidx, Int.toNat_natCast, syscallEntry, if_pos hlength,
      syscalls_unlisted h]
    rfl
  by_cases hpos : 0 < asInt proc.tf.eax
  · simp only [syscall, hpos, ↓reduceIte, hentry, Option.some.injEq, and_true]
    rintro idx rfl
    rwa [hidx, Int.toNat_natCast]
  · simp [syscall, hpos]

theorem syscall_print (h : proc.tf.eax.toNat = 22) :
    (syscall behind result proc).indexed = some 22 ∧
      (syscall behind result proc).called = some (.listed .print) := by
  have hidx : asInt proc.tf.eax = 22 := by
    rw [asInt, if_pos (by omega), h]
    rfl
  have hentry : syscallEntry behind 22 = some (.listed .print) := by
    rw [syscallEntry, if_pos (by decide)]
    decide
  simp [syscall, hidx, hentry]

/-- Past the table it is indexed all the same. -/
theorem syscall_past (hlow : 23 ≤ proc.tf.eax.toNat)
    (hhigh : proc.tf.eax.toNat < 2147483648) :
    (syscall behind result proc).indexed = some proc.tf.eax.toNat := by
  have hidx : asInt proc.tf.eax = proc.tf.eax.toNat := by
    rw [asInt, if_pos hhigh]
  have hpos : (0 : Int) < proc.tf.eax.toNat := by omega
  simp only [syscall, hidx, hpos, ↓reduceIte, Int.toNat_natCast]
  split <;> rfl

/-- A number without an entry, refused inside the table or before it. -/
theorem closed_of_refused
    (hinside : ∀ idx, (syscall behind result proc).indexed = some idx →
      idx < syscalls.length)
    (hnone : ∀ fn, syscalls[proc.tf.eax.toNat]? ≠ some (some fn))
    (hrefused : (syscall behind result proc).called = none ∧
      (syscall behind result proc).tf = { proc.tf with eax := 0xFFFFFFFF }) :
    Closed behind result proc := by
  refine ⟨hinside, ?_, ?_, fun _ => hrefused⟩
  · intro callee hcallee
    rw [hrefused.1] at hcallee
    cases hcallee
  · intro fn hfn
    exact absurd hfn (hnone fn)

/-- The number of the one call there is. -/
theorem closed_print (hprint : proc.tf.eax.toNat = 22) :
    Closed behind result proc := by
  obtain ⟨hindexed, hcalled⟩ := syscall_print behind result proc hprint
  have hentry : syscalls[proc.tf.eax.toNat]? = some (some .print) := by
    rw [hprint]
    decide
  constructor
  · intro idx hidx
    rw [hindexed, Option.some.injEq] at hidx
    rw [← hidx]
    decide
  · intro callee hcallee
    rw [hcalled, Option.some.injEq] at hcallee
    exact ⟨.print, hcallee.symm, by decide⟩
  · intro fn hfn
    rw [hentry, Option.some.injEq, Option.some.injEq] at hfn
    rw [hcalled, hfn]
  · intro hnone
    exact absurd hentry (hnone .print)

/-- Exactly the numbers up to `SYS_PRINT` and the negative ones are dispatched
within the table. -/
theorem closed_iff :
    Closed behind result proc ↔
      proc.tf.eax.toNat < 23 ∨ 2147483648 ≤ proc.tf.eax.toNat := by
  have hlength : syscalls.length = 23 := by decide
  constructor
  · rintro ⟨hinside, -, -, -⟩
    by_contra hpast
    obtain ⟨hlow, hhigh⟩ := not_or.mp hpast
    have hlt := hinside _ (syscall_past behind result proc (by omega) (by omega))
    omega
  · rintro (hlow | hhigh)
    · rcases Nat.lt_succ_iff_lt_or_eq.mp hlow with hlow | hprint
      · obtain ⟨hindexed, hrefused⟩ := syscall_unlisted behind result proc hlow
        apply closed_of_refused behind result proc _ _ hrefused
        · intro idx hidx
          have hlt := hindexed idx hidx
          omega
        · intro fn hfn
          have hnone := syscalls_unlisted hlow
          rw [List.getD_eq_getElem?_getD, hfn] at hnone
          cases hnone
      · exact closed_print behind result proc hprint
    · obtain ⟨hindexed, hrefused⟩ := syscall_negative behind result proc hhigh
      apply closed_of_refused behind result proc _ _ hrefused
      · intro idx hidx
        rw [hindexed] at hidx
        cases hidx
      · intro fn hfn
        rw [List.getElem?_eq_none (by omega)] at hfn
        cases hfn

end Dispatch

/-- The number 23 reads the word behind the table and calls it. -/
theorem call_past_table :
    ¬ Closed (fun _ => 0xC0100000) (fun _ => 0)
      { userProcess with tf := { userProcess.tf with eax := 23 } } := by
  intro hclosed
  exact absurd (hclosed.inside 23 (by decide)) (by decide)

end Linda
