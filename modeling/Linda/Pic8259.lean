/-
The 8259A interrupt controller in fully nested mode, and a pair of them with
the second one on a line of the first.  Rotating priorities and the special
mask mode are left out.
-/
import Mathlib.Data.Finset.Max
import Mathlib.Data.Fintype.Basic
import Mathlib.Tactic.Common

namespace Pic8259

abbrev Byte := BitVec 8

abbrev Line := Fin 8

/-- What a byte at the data port is taken for. -/
inductive Stage where
  | icw2
  | icw3
  | icw4
  | ready
deriving Repr, DecidableEq

structure Pic where
  stage : Stage
  /-- the upper five bits of the vectors -/
  base : Byte
  cascade : Byte
  single : Bool
  needsIcw4 : Bool
  autoEoi : Bool
  /-- the requests not yet acknowledged -/
  request : Finset Line
  /-- the requests acknowledged and not yet ended -/
  service : Finset Line
  mask : Finset Line
deriving DecidableEq

variable {p : Pic} {n : Line}

/-- The lines of a byte. -/
def linesOf (value : Byte) : Finset Line :=
  Finset.univ.filter fun n => value.getLsbD n

namespace Pic

/-- The non-specific end of interrupt: the line served with the highest
priority is done. -/
def endOfInterrupt (p : Pic) : Pic :=
  if h : p.service.Nonempty then
    { p with service := p.service.erase (p.service.min' h) }
  else p

/-- A byte at the command port. -/
def command (value : Byte) (p : Pic) : Pic :=
  if value.getLsbD 4 then
    { p with
      stage := .icw2
      needsIcw4 := value.getLsbD 0
      single := value.getLsbD 1
      autoEoi := false
      request := ∅
      service := ∅
      mask := ∅ }
  else if value.getLsbD 3 then p
  else if value.extractLsb 7 5 = 1 then p.endOfInterrupt
  else if value.extractLsb 7 5 = 3 then
    { p with service := p.service \ {⟨value.toNat % 8, by omega⟩} }
  else p

/-- A byte at the data port. -/
def data (value : Byte) (p : Pic) : Pic :=
  match p.stage with
  | .icw2 => { p with
      base := value &&& 0xF8
      stage := if !p.single then .icw3 else if p.needsIcw4 then .icw4
        else .ready }
  | .icw3 => { p with
      cascade := value
      stage := if p.needsIcw4 then .icw4 else .ready }
  | .icw4 => { p with autoEoi := value.getLsbD 1, stage := .ready }
  | .ready => { p with mask := linesOf value }

/-- The line to be acknowledged next, if the controller asks at all. -/
def next (p : Pic) : Option Line :=
  if h : (p.request \ p.mask).Nonempty then
    let n := (p.request \ p.mask).min' h
    if ∀ m ∈ p.service, n < m then some n else none
  else none

/-- A device asks. -/
def raise (n : Line) (p : Pic) : Pic :=
  { p with request := insert n p.request }

/-- A device takes back what it asked for. -/
def lower (n : Line) (p : Pic) : Pic :=
  { p with request := p.request.erase n }

/-- Where nothing is asked for any more, line 7 is answered, and nothing is
served. -/
def acknowledge (p : Pic) : Pic :=
  match p.next with
  | some n => { p with
      request := p.request.erase n
      service := if p.autoEoi then p.service else insert n p.service }
  | none => p

def answer (p : Pic) : Line := p.next.getD 7

def vector (p : Pic) : Nat := p.base.toNat + p.answer

end Pic

/-- Line `n` is asked for, and no line before it is asked for or served. -/
structure Pic.Urgent (p : Pic) (n : Line) : Prop where
  request : n ∈ p.request
  unmasked : n ∉ p.mask
  first : ∀ m ∈ p.request, m ∉ p.mask → n ≤ m
  served : ∀ m ∈ p.service, n < m

theorem Pic.next_eq_some_iff : p.next = some n ↔ p.Urgent n := by
  rw [Pic.next]
  constructor
  · intro h
    by_cases hasked : (p.request \ p.mask).Nonempty
    · rw [dif_pos hasked] at h
      have hmem := (p.request \ p.mask).min'_mem hasked
      by_cases hserved :
          ∀ m ∈ p.service, (p.request \ p.mask).min' hasked < m
      · rw [if_pos hserved] at h
        obtain rfl := Option.some.inj h
        rw [Finset.mem_sdiff] at hmem
        refine ⟨hmem.1, hmem.2, fun m hm hfree => ?_, hserved⟩
        exact Finset.min'_le _ _ (Finset.mem_sdiff.mpr ⟨hm, hfree⟩)
      · rw [if_neg hserved] at h
        cases h
    · rw [dif_neg hasked] at h
      cases h
  · intro h
    have hmem : n ∈ p.request \ p.mask :=
      Finset.mem_sdiff.mpr ⟨h.request, h.unmasked⟩
    have hmin : (p.request \ p.mask).min' ⟨n, hmem⟩ = n := by
      apply le_antisymm (Finset.min'_le _ _ hmem)
      apply Finset.le_min'
      intro m hm
      rw [Finset.mem_sdiff] at hm
      exact h.first m hm.1 hm.2
    rw [dif_pos ⟨n, hmem⟩, hmin, if_pos h.served]

theorem Pic.next_eq_none_iff (hservice : p.service = ∅) :
    p.next = none ↔ ∀ n ∈ p.request, n ∈ p.mask := by
  rw [Pic.next, ← Finset.subset_iff, ← Finset.sdiff_eq_empty_iff_subset]
  by_cases hasked : (p.request \ p.mask).Nonempty
  · simp [hasked, hservice, hasked.ne_empty]
  · simp [Finset.not_nonempty_iff_eq_empty.mp hasked]

/-- With one line served at most, an end of interrupt leaves none. -/
theorem Pic.endOfInterrupt_eq (h : p.service.card ≤ 1) :
    p.endOfInterrupt = { p with service := ∅ } := by
  rw [Pic.endOfInterrupt]
  by_cases hserved : p.service.Nonempty
  · have hmin := p.service.min'_mem hserved
    have hlast : p.service.erase (p.service.min' hserved) = ∅ := by
      rw [← Finset.card_eq_zero, Finset.card_erase_of_mem hmin]
      omega
    rw [dif_pos hserved, hlast]
  · rw [dif_neg hserved, ← Finset.not_nonempty_iff_eq_empty.mp hserved]

/-- A controller asks if some request has priority over all it serves. -/
theorem Pic.next_isSome_iff : p.next.isSome ↔
    ∃ n, n ∈ p.request ∧ n ∉ p.mask ∧ ∀ m ∈ p.service, n < m := by
  constructor
  · intro h
    obtain ⟨n, hn⟩ := Option.isSome_iff_exists.mp h
    have hurgent := next_eq_some_iff.mp hn
    exact ⟨n, hurgent.request, hurgent.unmasked, hurgent.served⟩
  · rintro ⟨n, hrequest, hmask, hserved⟩
    have hmem : n ∈ p.request \ p.mask :=
      Finset.mem_sdiff.mpr ⟨hrequest, hmask⟩
    have hmin := Finset.min'_le _ _ hmem
    rw [Pic.next, dif_pos ⟨n, hmem⟩,
      if_pos fun m hm => hmin.trans_lt (hserved m hm)]
    rfl

/-- It does not ask again for what it has just been granted. -/
theorem Pic.next_acknowledge (hauto : p.autoEoi = false) :
    p.acknowledge.next = none := by
  cases hnext : p.next with
  | none =>
      rw [Pic.acknowledge, hnext]
      exact hnext
  | some n =>
      rw [← Option.not_isSome_iff_eq_none, next_isSome_iff]
      rintro ⟨m, hrequest, hmask, hserved⟩
      simp only [Pic.acknowledge, hnext, hauto, if_neg Bool.false_ne_true]
        at hrequest hmask hserved
      have hlt := hserved n (Finset.mem_insert_self n p.service)
      have hle := (next_eq_some_iff.mp hnext).first m
        (Finset.mem_of_mem_erase hrequest) hmask
      exact absurd hle (not_le.mpr hlt)

/-- Two controllers, the second one on a line of the first. -/
structure Pair where
  master : Pic
  slave : Pic
deriving DecidableEq

namespace Pair

/-- The second controller asks at its line of the first. -/
def link (line : Line) (pics : Pair) : Pair :=
  if pics.slave.next.isSome then
    { pics with master := pics.master.raise line }
  else pics

/-- The processor takes an interrupt, and gets its vector. -/
def acknowledge (line : Line) (pics : Pair) : Pair × Nat :=
  if pics.master.next = some line then
    (⟨pics.master.acknowledge, pics.slave.acknowledge⟩, pics.slave.vector)
  else (⟨pics.master.acknowledge, pics.slave⟩, pics.master.vector)

@[simp] theorem link_slave (line : Line) (pics : Pair) :
    (pics.link line).slave = pics.slave := by
  rw [link]
  split <;> rfl

@[simp] theorem link_service (line : Line) (pics : Pair) :
    (pics.link line).master.service = pics.master.service := by
  rw [link]
  split <;> rfl

/-- The line between the two is up while the second one asks. -/
def Linked (line : Line) (pics : Pair) : Prop :=
  pics.slave.next.isSome → line ∈ pics.master.request

variable {line : Line} {pics : Pair}

theorem linked_link (line : Line) (pics : Pair) :
    (pics.link line).Linked line := by
  by_cases hasks : pics.slave.next.isSome
  · rw [link, if_pos hasks]
    exact fun _ => Finset.mem_insert_self line _
  · rw [link, if_neg hasks]
    exact fun h => absurd h hasks

theorem Linked.acknowledge (h : pics.Linked line)
    (hauto : pics.slave.autoEoi = false) :
    (pics.acknowledge line).1.Linked line := by
  by_cases hline : pics.master.next = some line
  · rw [Pair.acknowledge, if_pos hline]
    intro hasks
    rw [Pic.next_acknowledge hauto] at hasks
    cases hasks
  · rw [Pair.acknowledge, if_neg hline]
    intro hasks
    have hmem : line ∈ pics.master.request := h hasks
    cases hnext : pics.master.next with
    | none => simpa only [Pic.acknowledge, hnext] using hmem
    | some n =>
        have hne : line ≠ n := by
          rintro rfl
          exact hline hnext
        simpa only [Pic.acknowledge, hnext] using
          Finset.mem_erase.mpr ⟨hne, hmem⟩

end Pair

end Pic8259
