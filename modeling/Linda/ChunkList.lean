/-
The heap as a list of chunks: what splitting, gluing, releasing and requesting
do to it, without memory.  The first-fit walk grows the list by one page when
it stands on a free last chunk, glues once, and resumes on the same block.
-/
import Linda.IntervalCover
import Linda.KernelHeap
import Mathlib.Data.List.TakeDrop
import Mathlib.Data.List.TakeWhile

namespace Linda

open IntervalCover

/-- A chunk: its header address, its payload size and its status. -/
structure Chunk where
  base : Nat
  size : Nat
  free : Bool
deriving Repr, DecidableEq

namespace Chunk

/-- The address of the payload, `chunk->addr`. -/
def payload (c : Chunk) : Nat := c.base + headerSize

/-- The address behind the payload. -/
def stop (c : Chunk) : Nat := c.base + headerSize + c.size

def extent (c : Chunk) : Interval := ⟨c.base, c.stop⟩

/-- The block a client holds. -/
def block (c : Chunk) : Interval := ⟨c.payload, c.stop⟩

/-- A page fresh from `kvm_alloc_page`. -/
def ofPage (page : Nat) : Chunk := ⟨page, pgSize - headerSize, true⟩

/-- The parts `chunk_split` and `kmalloc` make of a free chunk. -/
def taken (c : Chunk) (size : Nat) : Chunk := ⟨c.base, size, false⟩
def leftover (c : Chunk) (size : Nat) : Chunk :=
  ⟨c.base + headerSize + size, c.size - size - headerSize, true⟩

/-- Two free chunks, the second right behind the first. -/
def Mergeable (c d : Chunk) : Prop :=
  c.free = true ∧ d.free = true ∧ c.stop = d.base

instance (c d : Chunk) : Decidable (c.Mergeable d) :=
  inferInstanceAs (Decidable (_ ∧ _ ∧ _))

def absorb (c d : Chunk) : Chunk := ⟨c.base, c.size + d.size + headerSize, true⟩

/-- The test of `kmfree`; the end of the block wraps. -/
def Holds (c : Chunk) (addr : Nat) : Prop :=
  c.free = false ∧ c.payload ≤ addr ∧ addr < u32 c.stop

instance (c : Chunk) (addr : Nat) : Decidable (c.Holds addr) :=
  inferInstanceAs (Decidable (_ ∧ _ ∧ _))

/-- Addresses of the chunk are addresses of the machine. -/
structure InRange (c : Chunk) : Prop where
  base_pos : 0 < c.base
  payload_lt : c.base + headerSize < 4294967296
  stop_le : c.stop ≤ 4294967296

end Chunk

/-- One pass of `chunk_glue`: the first mergeable pair becomes one chunk. -/
def glue : List Chunk → List Chunk
  | c :: d :: rest =>
      if c.Mergeable d then c.absorb d :: rest else c :: glue (d :: rest)
  | chunks => chunks

/-- `kmfree` before its glue pass. -/
def freeBlock (addr : Nat) : List Chunk → List Chunk
  | [] => []
  | c :: rest =>
      if c.Holds addr then { c with free := true } :: rest
      else c :: freeBlock addr rest

/-- Where the walk of `kmalloc` ends on a list that does not grow. -/
inductive Walk where
  | grant (chunks : List Chunk) (addr : Nat)
  | gap
  | refuse
  | grow (pre : List Chunk) (last : Chunk)
deriving Repr, DecidableEq

def walk (size : Nat) (pre : List Chunk) : List Chunk → Walk
  | [] => .refuse
  | c :: post =>
      if c.free = false then walk size (pre ++ [c]) post
      else if size < c.size then
        if c.size ≤ size + headerSize then .gap
        else .grant (pre ++ c.taken size :: c.leftover size :: post) c.payload
      else if c.size = size then
        .grant (pre ++ { c with free := false } :: post) c.payload
      else if post = [] then .grow pre c
      else walk size (pre ++ [c]) post

/-- What becomes of a request; `pages` are the pages left to grow by. -/
inductive Answer where
  | grant (chunks : List Chunk) (addr : Nat) (pages : List Nat)
  | refuse (chunks : List Chunk) (pages : List Nat)
  | gap
  | noPage
deriving Repr, DecidableEq

/-- The list after growing by a page behind `last`, cut where the walk stands.
The walk is off the list when the glue pass swallowed `last`. -/
def grown (pre : List Chunk) (last : Chunk) (page : Nat) :
    List Chunk × List Chunk :=
  (glue (pre ++ [last, .ofPage page])).span fun c => c.base ≠ last.base

/-- The request of `size` bytes, the walk having passed `pre`. -/
def request (size : Nat) : (pages : List Nat) → (pre suf : List Chunk) → Answer
  | [], pre, suf =>
      match walk size pre suf with
      | .grant chunks addr => .grant chunks addr []
      | .gap => .gap
      | .refuse => .refuse (pre ++ suf) []
      | .grow _ _ => .noPage
  | page :: pages, pre, suf =>
      match walk size pre suf with
      | .grant chunks addr => .grant chunks addr (page :: pages)
      | .gap => .gap
      | .refuse => .refuse (pre ++ suf) (page :: pages)
      | .grow front last =>
          request size pages (grown front last page).1 (grown front last page).2

/-- The chunks clients hold. -/
def usedChunks (chunks : List Chunk) : List Chunk :=
  chunks.filter fun c => !c.free

theorem mem_usedChunks {chunks : List Chunk} {c : Chunk} :
    c ∈ usedChunks chunks ↔ c ∈ chunks ∧ c.free = false := by
  simp [usedChunks]

theorem usedChunks_append (l₁ l₂ : List Chunk) :
    usedChunks (l₁ ++ l₂) = usedChunks l₁ ++ usedChunks l₂ := by
  simp [usedChunks]

theorem usedChunks_cons_free {c : Chunk} (hfree : c.free = true)
    (rest : List Chunk) : usedChunks (c :: rest) = usedChunks rest := by
  simp [usedChunks, hfree]

theorem usedChunks_cons_used {c : Chunk} (hused : c.free = false)
    (rest : List Chunk) : usedChunks (c :: rest) = c :: usedChunks rest := by
  simp [usedChunks, hused]

/-- A glue pass leaves the used chunks alone. -/
theorem usedChunks_glue (chunks : List Chunk) :
    usedChunks (glue chunks) = usedChunks chunks := by
  match chunks with
  | [] => rfl
  | [c] => rfl
  | c :: d :: rest =>
      rw [glue]
      split_ifs with hm
      · rw [usedChunks_cons_free hm.1, usedChunks_cons_free hm.2.1]
        exact usedChunks_cons_free rfl rest
      · have ih := usedChunks_glue (d :: rest)
        cases hused : c.free with
        | false => rw [usedChunks_cons_used hused, usedChunks_cons_used hused, ih]
        | true => rw [usedChunks_cons_free hused, usedChunks_cons_free hused, ih]

/-- A release frees no chunk that does not hold the address. -/
theorem mem_usedChunks_freeBlock {addr : Nat} {chunks : List Chunk} {c : Chunk}
    (hc : c ∈ usedChunks chunks) (hnot : ¬ c.Holds addr) :
    c ∈ usedChunks (freeBlock addr chunks) := by
  induction chunks with
  | nil => exact hc
  | cons d rest ih =>
      rw [mem_usedChunks, List.mem_cons] at hc
      obtain ⟨hc, hused⟩ := hc
      rw [mem_usedChunks, freeBlock]
      refine ⟨?_, hused⟩
      split_ifs with hholds
      · rcases hc with rfl | hc
        · exact absurd hholds hnot
        · exact List.mem_cons_of_mem _ hc
      · rcases hc with rfl | hc
        · exact List.mem_cons_self
        · have hrest := ih (mem_usedChunks.mpr ⟨hc, hused⟩)
          exact List.mem_cons_of_mem _ (mem_usedChunks.mp hrest).1

/-- `chunks'` holds what `chunks` holds and one new block of `size` bytes at
`addr`. -/
def Grants (size : Nat) (chunks : List Chunk) (addr : Nat)
    (chunks' : List Chunk) : Prop :=
  ∃ c : Chunk, c.payload = addr ∧ c.size = size ∧ c.free = false ∧
    (usedChunks chunks').Perm (c :: usedChunks chunks)

theorem walk_cases (size : Nat) (pre suf : List Chunk) :
    match walk size pre suf with
    | .grant chunks' addr => Grants size (pre ++ suf) addr chunks'
    | .grow front last => pre ++ suf = front ++ [last] ∧ last.free = true ∧
        last.size < size
    | _ => True := by
  induction suf generalizing pre with
  | nil => trivial
  | cons c post ih =>
      have hrest := ih (pre ++ [c])
      rw [List.append_assoc, List.singleton_append] at hrest
      rw [walk]
      split_ifs with hused hlarge hgap hexact hpost
      · exact hrest
      · trivial
      · have hfree : c.free = true := by simpa using hused
        refine ⟨c.taken size, rfl, rfl, rfl, ?_⟩
        rw [usedChunks_append, usedChunks_append, usedChunks_cons_free hfree,
          usedChunks_cons_used (c := c.taken size) rfl,
          usedChunks_cons_free (c := c.leftover size) rfl]
        exact List.perm_middle
      · have hfree : c.free = true := by simpa using hused
        refine ⟨{ c with free := false }, rfl, hexact, rfl, ?_⟩
        rw [usedChunks_append, usedChunks_append, usedChunks_cons_free hfree,
          usedChunks_cons_used (c := { c with free := false }) rfl]
        exact List.perm_middle
      · subst hpost
        exact ⟨rfl, by simpa using hused, by omega⟩
      · exact hrest

/-- Growing a list whose walk ended on `last` costs no client its block. -/
theorem grown_append (front : List Chunk) (last : Chunk) (page : Nat) :
    (grown front last page).1 ++ (grown front last page).2 =
      glue (front ++ [last, .ofPage page]) := by
  simp only [grown, List.span_eq_takeWhile_dropWhile,
    List.takeWhile_append_dropWhile]

theorem usedChunks_grown {front : List Chunk} {last : Chunk}
    (hfree : last.free = true) (page : Nat) :
    usedChunks ((grown front last page).1 ++ (grown front last page).2) =
      usedChunks (front ++ [last]) := by
  rw [grown_append, usedChunks_glue, usedChunks_append, usedChunks_append,
    usedChunks_cons_free hfree, usedChunks_cons_free hfree]
  rfl

/-- A request leaves every block it does not grant as it was. -/
theorem request_used (size : Nat) (pages : List Nat) (pre suf : List Chunk) :
    match request size pages pre suf with
    | .grant chunks' addr _ => Grants size (pre ++ suf) addr chunks'
    | .refuse chunks' _ => usedChunks chunks' = usedChunks (pre ++ suf)
    | _ => True := by
  induction pages generalizing pre suf with
  | nil =>
      have hwalk := walk_cases size pre suf
      rw [request]
      cases hw : walk size pre suf with
      | grant chunks' addr =>
          rw [hw] at hwalk
          exact hwalk
      | gap => trivial
      | refuse => rfl
      | grow front last => trivial
  | cons page pages ih =>
      have hwalk := walk_cases size pre suf
      rw [request]
      cases hw : walk size pre suf with
      | grant chunks' addr =>
          rw [hw] at hwalk
          exact hwalk
      | gap => trivial
      | refuse => rfl
      | grow front last =>
          rw [hw] at hwalk
          obtain ⟨heq, hfree, _⟩ := hwalk
          have hrest := ih (grown front last page).1 (grown front last page).2
          simp only [Grants, usedChunks_grown hfree page, ← heq] at hrest ⊢
          exact hrest

end Linda
