/-
The physical page allocator of memory.c: a stack of frame addresses behind
`free_list`, indexed by `header`, against the stack of frames that were freed
and not handed out since.
-/
import Mathlib.Data.List.Induction
import Linda.Machine

namespace Linda

/-- `mem_map`.  `freeList` is the memory behind the pointer `free_list`. -/
structure MemMap where
  freeList : Int → Nat
  pageCount : Nat
  header : Int

/-- The zero-initialised `mem_map`, over whatever memory is behind the list. -/
def MemMap.zeroed (slots : Int → Nat) : MemMap := ⟨slots, 0, 0⟩

/-- Returns the frame, `0` for `NULL`. -/
def phyMemAlloc (map : MemMap) : Nat × MemMap :=
  if map.header < 0 then (0, map)
  else (map.freeList map.header, { map with header := map.header - 1 })

def phyMemFree (map : MemMap) (addr : Nat) : MemMap :=
  { map with
    header := map.header + 1
    freeList := fun i =>
      if i = map.header + 1 then pgRoundDown addr else map.freeList i }

inductive FrameCall where
  | free (addr : Nat)
  | alloc
deriving Repr, DecidableEq

def FrameCall.run (map : MemMap) : FrameCall → MemMap
  | .free addr => phyMemFree map addr
  | .alloc => (phyMemAlloc map).2

def runFrameCalls (map : MemMap) (calls : List FrameCall) : MemMap :=
  calls.foldl FrameCall.run map

/-- The frames freed and not handed out since, most recent first: what the
allocator is for. -/
def outstanding (calls : List FrameCall) : List Nat :=
  calls.foldl (fun stack call =>
    match call with
    | .free addr => pgRoundDown addr :: stack
    | .alloc => stack.tail) []

/-- Some allocation of the run was made when every freed frame was out. -/
def Exhausted (calls : List FrameCall) : Prop :=
  ∃ pre post, calls = pre ++ .alloc :: post ∧ outstanding pre = []

/-- What `phy_mem_alloc` returns after the calls `pre`. -/
def allocAnswer (slots : Int → Nat) (pre : List FrameCall) : Nat :=
  (phyMemAlloc (runFrameCalls (.zeroed slots) pre)).1

/-- Every allocation of the run answers a page-aligned frame, the one freed
last and not handed out since, and `NULL` exactly when there is none. -/
def FaithfulStack (slots : Int → Nat) (calls : List FrameCall) : Prop :=
  ∀ pre post, calls = pre ++ .alloc :: post →
    allocAnswer slots pre % pgSize = 0 ∧
      (∀ frame ∈ (outstanding pre).head?, allocAnswer slots pre = frame) ∧
      (allocAnswer slots pre = 0 ↔ outstanding pre = [])

/-- The condition on the calls and the word below the stack: no frame 0 is on
top when an allocation comes, and the first allocation that finds no frame
out reads a zero word in slot 0. -/
def BottomUnread (slots : Int → Nat) (calls : List FrameCall) : Prop :=
  ∀ pre post, calls = pre ++ .alloc :: post →
    (outstanding pre).head? ≠ some 0 ∧
      (outstanding pre = [] → Exhausted pre ∨ slots 0 = 0)

theorem pgRoundDown_mod_pgSize (a : Nat) : pgRoundDown a % pgSize = 0 := by
  have hmask : pgMask % 2 ^ 12 = 0 := rfl
  change (a &&& pgMask) % 2 ^ 12 = 0
  rw [Nat.and_mod_two_pow, hmask, Nat.and_zero]

@[simp] theorem outstanding_nil : outstanding [] = [] := rfl

@[simp] theorem outstanding_free (calls : List FrameCall) (addr : Nat) :
    outstanding (calls ++ [.free addr]) =
      pgRoundDown addr :: outstanding calls := by
  simp [outstanding]

@[simp] theorem outstanding_alloc (calls : List FrameCall) :
    outstanding (calls ++ [.alloc]) = (outstanding calls).tail := by
  simp [outstanding]

theorem runFrameCalls_snoc (map : MemMap) (calls : List FrameCall)
    (call : FrameCall) :
    runFrameCalls map (calls ++ [call]) =
      call.run (runFrameCalls map calls) := by
  simp [runFrameCalls]

theorem outstanding_aligned (calls : List FrameCall) :
    ∀ frame ∈ outstanding calls, frame % pgSize = 0 := by
  induction calls using List.reverseRecOn with
  | nil => simp
  | append_singleton calls call ih =>
      intro frame hframe
      cases call with
      | free addr =>
          simp only [outstanding_free, List.mem_cons] at hframe
          rcases hframe with rfl | hframe
          · exact pgRoundDown_mod_pgSize addr
          · exact ih frame hframe
      | alloc =>
          simp only [outstanding_alloc] at hframe
          exact ih frame (List.mem_of_mem_tail hframe)

theorem not_exhausted_nil : ¬ Exhausted [] := by
  rintro ⟨pre, post, hsplit, _⟩
  simp at hsplit

theorem exhausted_free (calls : List FrameCall) (addr : Nat) :
    Exhausted (calls ++ [.free addr]) ↔ Exhausted calls := by
  constructor
  · rintro ⟨pre, post, hsplit, hpre⟩
    rcases List.eq_nil_or_concat post with rfl | ⟨post, last, rfl⟩
    · have hlast := congrArg List.getLast? hsplit
      simp at hlast
    · rw [List.concat_eq_append, ← List.cons_append, ← List.append_assoc] at hsplit
      exact ⟨pre, post, (List.append_inj' hsplit rfl).1, hpre⟩
  · rintro ⟨pre, post, rfl, hpre⟩
    exact ⟨pre, post ++ [.free addr], by simp, hpre⟩

theorem exhausted_alloc (calls : List FrameCall) :
    Exhausted (calls ++ [.alloc]) ↔
      Exhausted calls ∨ outstanding calls = [] := by
  constructor
  · rintro ⟨pre, post, hsplit, hpre⟩
    rcases List.eq_nil_or_concat post with rfl | ⟨post, last, rfl⟩
    · right
      have heq : calls = pre := (List.append_inj' hsplit rfl).1
      rw [heq]
      exact hpre
    · left
      rw [List.concat_eq_append, ← List.cons_append, ← List.append_assoc] at hsplit
      exact ⟨pre, post, (List.append_inj' hsplit rfl).1, hpre⟩
  · rintro (⟨pre, post, rfl, hpre⟩ | hpre)
    · exact ⟨pre, post ++ [.alloc], by simp, hpre⟩
    · exact ⟨calls, [], rfl, hpre⟩

/-- The `i`-th slot below the top holds the `i`-th outstanding frame, on top
of `bottom`, the index of the lowest slot in use. -/
structure HoldsStack (map : MemMap) (bottom : Int) (stack : List Nat) :
    Prop where
  header_eq : map.header = bottom + stack.length - 1
  slot_eq : ∀ i (hi : i < stack.length),
    map.freeList (map.header - i) = stack[i]

theorem HoldsStack.free {map : MemMap} {bottom : Int} {stack : List Nat}
    (h : HoldsStack map bottom stack) (addr : Nat) :
    HoldsStack (phyMemFree map addr) bottom (pgRoundDown addr :: stack) := by
  constructor
  · simp only [phyMemFree, h.header_eq, List.length_cons]
    omega
  · intro i hi
    cases i with
    | zero => simp [phyMemFree]
    | succ i =>
        have hlt : i < stack.length := by simpa using hi
        have hslot := h.slot_eq i hlt
        have hidx : map.header + 1 - ((i + 1 : Nat) : Int) = map.header - i := by
          omega
        have hne : map.header - (i : Int) ≠ map.header + 1 := by omega
        simp only [phyMemFree, hidx, hne, ↓reduceIte, List.getElem_cons_succ]
        exact hslot

theorem HoldsStack.alloc {map : MemMap} {bottom : Int} {frame : Nat}
    {stack : List Nat} (h : HoldsStack map bottom (frame :: stack))
    (hbottom : 0 ≤ bottom) :
    (phyMemAlloc map).1 = frame ∧ HoldsStack (phyMemAlloc map).2 bottom stack := by
  have hheader := h.header_eq
  simp only [List.length_cons] at hheader
  have hnonneg : ¬ map.header < 0 := by omega
  have htop := h.slot_eq 0 (by simp)
  simp only [phyMemAlloc, hnonneg, ↓reduceIte]
  refine ⟨by simpa using htop, ⟨?_, fun i hi => ?_⟩⟩
  · simp only
    omega
  · have hslot := h.slot_eq (i + 1) (by simpa using hi)
    have hidx : map.header - ((i + 1 : Nat) : Int) = map.header - 1 - i := by
      omega
    rw [hidx] at hslot
    simpa using hslot

/-- The state after any calls: the stack stands on slot 1 while no allocation
has found it empty, with slot 0 as it was, and on slot 0 from then on. -/
theorem runFrameCalls_holds (slots : Int → Nat) (calls : List FrameCall) :
    (Exhausted calls ∧
        HoldsStack (runFrameCalls (.zeroed slots) calls) 0 (outstanding calls)) ∨
      (¬ Exhausted calls ∧
        HoldsStack (runFrameCalls (.zeroed slots) calls) 1 (outstanding calls) ∧
        (runFrameCalls (.zeroed slots) calls).freeList 0 = slots 0) := by
  induction calls using List.reverseRecOn with
  | nil =>
      exact Or.inr ⟨not_exhausted_nil, ⟨rfl, fun i hi => absurd hi (by simp)⟩, rfl⟩
  | append_singleton calls call ih =>
      cases call with
      | free addr =>
          rw [exhausted_free, outstanding_free, runFrameCalls_snoc]
          rcases ih with ⟨hex, hstack⟩ | ⟨hex, hstack, hzero⟩
          · exact Or.inl ⟨hex, hstack.free addr⟩
          · refine Or.inr ⟨hex, hstack.free addr, ?_⟩
            have hheader := hstack.header_eq
            have hne : (0 : Int) ≠
                (runFrameCalls (.zeroed slots) calls).header + 1 := by
              omega
            simpa [FrameCall.run, phyMemFree, hne] using hzero
      | alloc =>
          rw [exhausted_alloc, outstanding_alloc, runFrameCalls_snoc]
          cases hout : outstanding calls with
          | nil =>
              -- the call reads slot 0 the first time and is refused later
              refine Or.inl ⟨Or.inr rfl, ?_, fun i hi => absurd hi (by simp)⟩
              rcases ih with ⟨_, hstack⟩ | ⟨_, hstack, _⟩
              · have hheader := hstack.header_eq
                simp only [hout, List.length_nil] at hheader
                have hneg : (runFrameCalls (.zeroed slots) calls).header < 0 := by
                  omega
                simp only [FrameCall.run, phyMemAlloc, hneg, ↓reduceIte,
                  List.tail_nil, List.length_nil]
                omega
              · have hheader := hstack.header_eq
                simp only [hout, List.length_nil] at hheader
                have hnonneg :
                    ¬ (runFrameCalls (.zeroed slots) calls).header < 0 := by
                  omega
                simp only [FrameCall.run, phyMemAlloc, hnonneg, ↓reduceIte,
                  List.tail_nil, List.length_nil]
                omega
          | cons frame stack =>
              rw [hout] at ih
              rcases ih with ⟨hex, hstack⟩ | ⟨hex, hstack, hzero⟩
              · exact Or.inl ⟨Or.inl hex, (hstack.alloc (by omega)).2⟩
              · refine Or.inr ⟨by simp [hex], (hstack.alloc (by omega)).2, ?_⟩
                unfold FrameCall.run phyMemAlloc
                split_ifs
                · exact hzero
                · exact hzero

/-- The answer of an allocation: the frame on top, or, with no frame out,
slot 0 the first time and `NULL` from then on. -/
theorem allocAnswer_cases (slots : Int → Nat) (pre : List FrameCall) :
    (∀ frame ∈ (outstanding pre).head?, allocAnswer slots pre = frame) ∧
      (outstanding pre = [] → Exhausted pre → allocAnswer slots pre = 0) ∧
      (outstanding pre = [] → ¬ Exhausted pre →
        allocAnswer slots pre = slots 0) := by
  have hholds := runFrameCalls_holds slots pre
  refine ⟨fun frame hframe => ?_, fun hout hex => ?_, fun hout hex => ?_⟩
  · cases hout : outstanding pre with
    | nil => simp [hout] at hframe
    | cons top stack =>
        have htop : top = frame := by simpa [hout] using hframe
        rw [hout] at hholds
        rcases hholds with ⟨_, hstack⟩ | ⟨_, hstack, _⟩
        · exact (hstack.alloc (by omega)).1.trans htop
        · exact (hstack.alloc (by omega)).1.trans htop
  · rcases hholds with ⟨_, hstack⟩ | ⟨hnot, _⟩
    · have hheader := hstack.header_eq
      simp only [hout, List.length_nil] at hheader
      have hneg : (runFrameCalls (.zeroed slots) pre).header < 0 := by omega
      simp [allocAnswer, phyMemAlloc, hneg]
    · exact absurd hex hnot
  · rcases hholds with ⟨hin, _⟩ | ⟨_, hstack, hzero⟩
    · exact absurd hin hex
    · have hheader := hstack.header_eq
      simp only [hout, List.length_nil] at hheader
      have hheader' : (runFrameCalls (.zeroed slots) pre).header = 0 := by omega
      simp [allocAnswer, phyMemAlloc, hheader', hzero]

/-- The allocator is a faithful stack on exactly the runs that never take a
stale word from the bottom of the stack for a frame. -/
theorem faithfulStack_iff_bottomUnread (slots : Int → Nat)
    (calls : List FrameCall) :
    FaithfulStack slots calls ↔ BottomUnread slots calls := by
  unfold FaithfulStack BottomUnread
  refine forall_congr' fun pre => forall_congr' fun post => ?_
  refine imp_congr_right fun _ => ?_
  obtain ⟨htop, hlater, hfirst⟩ := allocAnswer_cases slots pre
  cases hout : outstanding pre with
  | nil =>
      by_cases hex : Exhausted pre
      · simp [hlater hout hex, hex]
      · simp only [hfirst hout hex, hex, List.head?_nil]
        constructor
        · rintro ⟨_, _, hzero⟩
          exact ⟨by simp, fun _ => Or.inr (hzero.mpr trivial)⟩
        · rintro ⟨_, hzero⟩
          have hslot : slots 0 = 0 := by simpa using hzero
          simp [hslot]
  | cons frame stack =>
      have hanswer : allocAnswer slots pre = frame := htop frame (by simp [hout])
      have haligned : frame % pgSize = 0 :=
        outstanding_aligned pre frame (by simp [hout])
      simp [hanswer, haligned]

/-- One allocation on the fresh allocator hands out the stale word behind
`free_list`. -/
theorem fresh_alloc_unfaithful :
    ¬ ∀ (slots : Int → Nat) (calls : List FrameCall),
      FaithfulStack slots calls := by
  intro hall
  have h := (hall (fun _ => 4096) [.alloc] [] [] rfl).2.2.mpr rfl
  exact absurd h (by decide)

end Linda
