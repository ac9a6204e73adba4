/-
The kernel heap of kmalloc.c.  Chunk headers live in the memory they describe:
every field access below is a load or a store at an offset of the header.
-/
import Linda.FuelLoop
import Linda.KernelPages

namespace Linda

open ByteMemory FuelLoop

def kmemUsed : UInt8 := 0
def kmemFree : UInt8 := 1

/-- `sizeof(struct kmem_chunk)` -/
def headerSize : Nat := 16

def chunkNext (m : Memory) (chunk : Nat) : Nat := load32 m chunk
def chunkStatus (m : Memory) (chunk : Nat) : UInt8 := m (chunk + 4)
def chunkAddr (m : Memory) (chunk : Nat) : Nat := load32 m (chunk + 8)
def chunkSize (m : Memory) (chunk : Nat) : Nat := load32 m (chunk + 12)

def setNext (m : Memory) (chunk next : Nat) : Memory := store32 m chunk next
def setStatus (m : Memory) (chunk : Nat) (status : UInt8) : Memory :=
  store8 m (chunk + 4) status
def setAddr (m : Memory) (chunk addr : Nat) : Memory :=
  store32 m (chunk + 8) addr
def setSize (m : Memory) (chunk size : Nat) : Memory :=
  store32 m (chunk + 12) size

/-- `memset` of lib/string.c. -/
def memset (m : Memory) (s : Nat) (c : UInt8) : Nat → Memory
  | 0 => m
  | count + 1 => memset (store8 m s c) (s + 1) c count

/-- Cuts `size` bytes and a new header off `chunk`; returns `chunk`. -/
def chunkSplit (m : Memory) (chunk size : Nat) : Except Halt (Nat × Memory) :=
  if chunkSize m chunk ≤ u32 (size + headerSize) then
    .error (.panic .splitTooSmall)
  else if chunkStatus m chunk ≠ kmemFree then
    .error (.panic .splitUsed)
  else
    let split := u32 (chunkAddr m chunk + size)
    let m := setAddr m split (u32 (split + headerSize))
    let m := setStatus m split kmemFree
    let m := setSize m split (sub32 (sub32 (chunkSize m chunk) size) headerSize)
    let m := setNext m split (chunkNext m chunk)
    let m := setSize m chunk size
    let m := setNext m chunk split
    .ok (chunk, m)

/-- One round of the `while` of `chunk_glue`. -/
def glueBody : Memory × Nat → Except Halt ((Memory × Nat) ⊕ Memory)
  | (m, chunk) =>
      if chunk = 0 then .ok (.inr m)
      else
        let next := chunkNext m chunk
        if next = 0 then .ok (.inr m)
        else if chunkStatus m chunk = kmemFree ∧ chunkStatus m next = kmemFree ∧
            sub32 (chunkAddr m next) (chunkAddr m chunk) =
              u32 (chunkSize m chunk + headerSize) then
          let m := setSize m chunk
            (u32 (chunkSize m chunk + chunkSize m next + headerSize))
          let m := setNext m chunk (chunkNext m next)
          -- the fill covers the header of `next`, which the walk steps to
          let m := memset m (chunkAddr m chunk) 0 (chunkSize m chunk)
          .ok (.inl (m, next))
        else .ok (.inl (m, next))

def chunkGlue (fuel kmemList : Nat) (m : Memory) : Except Halt Memory :=
  if kmemList = 0 then .error (.panic .glueEmpty)
  else loop .spin glueBody fuel (m, kmemList)

def allocFreeChunkFromKvm (k : Kernel) : Except Halt (Nat × Kernel) := do
  let (chunk, k) ← kvmAllocPage k
  if chunk = 0 then .error (.panic .noChunk)
  else
    let m := setSize k.mem chunk (pgSize - headerSize)
    let m := setStatus m chunk kmemFree
    let m := setAddr m chunk (u32 (chunk + headerSize))
    let m := setNext m chunk 0
    .ok (chunk, k.setMem m)

/-- One round of the `while` of `kmalloc`; `goto alloc_routine` is one more
round on the same block. -/
def kmallocBody (size fuel : Nat) :
    Kernel × Nat → Except Halt ((Kernel × Nat) ⊕ (Nat × Kernel))
  | (k, block) =>
      if block = 0 then .ok (.inr (0, k))
      else if chunkStatus k.mem block ≠ kmemFree then
        .ok (.inl (k, chunkNext k.mem block))
      else if size < chunkSize k.mem block then do
        let (chunk, m) ← chunkSplit k.mem block size
        if chunk = 0 then .ok (.inr (0, k.setMem m))
        else .ok (.inr (chunkAddr m chunk,
          k.setMem (setStatus m chunk kmemUsed)))
      else if chunkSize k.mem block = size then
        .ok (.inr (chunkAddr k.mem block,
          k.setMem (setStatus k.mem block kmemUsed)))
      else if chunkNext k.mem block = 0 then do
        let (next, k) ← allocFreeChunkFromKvm k
        if next = 0 then .ok (.inr (0, k))
        else
          let m ← chunkGlue fuel k.kmemList (setNext k.mem block next)
          .ok (.inl (k.setMem m, block))
      else .ok (.inl (k, chunkNext k.mem block))

/-- The first call finds no list and starts it with a fresh page. -/
def kmallocStart (k : Kernel) : Except Halt Kernel :=
  if k.kmemList = 0 then do
    let (chunk, k) ← allocFreeChunkFromKvm k
    if chunk = 0 then .error (.panic .noHeap)
    else .ok { k with kmemList := chunk }
  else .ok k

/-- Returns the block, `0` for `NULL`. -/
def kmalloc (fuel : Nat) (k : Kernel) (size : Nat) :
    Except Halt (Nat × Kernel) := do
  let k ← kmallocStart k
  loop .spin (kmallocBody size fuel) fuel (k, k.kmemList)

/-- One round of the `while` of `kmfree`. -/
def kmfreeBody (addr : Nat) :
    Memory × Nat → Except Halt ((Memory × Nat) ⊕ Memory)
  | (m, chunk) =>
      if chunk = 0 then .ok (.inr m)
      else if chunkStatus m chunk ≠ kmemUsed then
        .ok (.inl (m, chunkNext m chunk))
      else if chunkAddr m chunk ≤ addr ∧
          addr < u32 (chunkAddr m chunk + chunkSize m chunk) then
        let m := setStatus m chunk kmemFree
        .ok (.inr (memset m (chunkAddr m chunk) 0 (chunkSize m chunk)))
      else .ok (.inl (m, chunkNext m chunk))

def kmfree (fuel : Nat) (k : Kernel) (addr : Nat) : Except Halt Kernel :=
  if k.kmemList = 0 then .ok k
  else do
    let m ← loop .spin (kmfreeBody addr) fuel (k.mem, k.kmemList)
    let m ← chunkGlue fuel k.kmemList m
    .ok (k.setMem m)

theorem memset_eq_fill (m : Memory) (s : Nat) (c : UInt8) (count : Nat) :
    memset m s c count = fill m s count c := by
  induction count generalizing m s with
  | zero =>
      funext x
      simp [memset, fill]
  | succ count ih =>
      funext x
      rw [memset, ih]
      by_cases hx : x = s
      · subst hx
        simp [fill, store8]
      · have hiff : (s + 1 ≤ x ∧ x < s + 1 + count) ↔
            (s ≤ x ∧ x < s + (count + 1)) := by omega
        simp only [fill, store8, hx, ↓reduceIte, hiff]

section Stability

theorem chunkGlue_stable (kmemList : Nat) (m : Memory) :
    Stable Halt.spin (fun fuel => chunkGlue fuel kmemList m) := by
  unfold chunkGlue
  split_ifs
  · exact stable_const _ _
  · exact loop_stable (fun s => stable_const Halt.spin (glueBody s)) _

theorem kmallocBody_stable (size : Nat) (s : Kernel × Nat) :
    Stable Halt.spin (fun fuel => kmallocBody size fuel s) := by
  obtain ⟨k, block⟩ := s
  simp only [kmallocBody]
  split_ifs
  · exact stable_const _ _
  · exact stable_const _ _
  · exact stable_const _ _
  · exact stable_const _ _
  · -- only the growth branch runs a loop of its own
    refine (stable_const Halt.spin (allocFreeChunkFromKvm k)).bind fun p => ?_
    obtain ⟨next, k⟩ := p
    dsimp only
    split_ifs
    · exact stable_const _ _
    · exact (chunkGlue_stable _ _).bind fun m => stable_const _ _
  · exact stable_const _ _

theorem kmalloc_stable (k : Kernel) (size : Nat) :
    Stable Halt.spin (fun fuel => kmalloc fuel k size) :=
  (stable_const Halt.spin (kmallocStart k)).bind fun k =>
    loop_stable (fun s => kmallocBody_stable size s) (k, k.kmemList)

theorem kmfree_stable (k : Kernel) (addr : Nat) :
    Stable Halt.spin (fun fuel => kmfree fuel k addr) := by
  unfold kmfree
  split_ifs
  · exact stable_const _ _
  · refine Stable.bind (loop_stable
      (fun s => stable_const Halt.spin (kmfreeBody addr s)) _) fun m => ?_
    exact (chunkGlue_stable _ _).bind fun m => stable_const _ _

end Stability

end Linda
