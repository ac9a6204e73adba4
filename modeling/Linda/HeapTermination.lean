/-
The walks of kmalloc.c end.  A jump back to `alloc_routine` costs a page of
`kvmlist`; the block the loop stands on is a chunk of the list or a header the
glue pass has cleared, and a cleared header ends the walk.
-/
import Linda.HeapRequests

namespace Linda

open ByteMemory IntervalCover LinkedSegment FuelLoop

/-- Given fuel, the program returns or panics. -/
def Stops {α : Type} (f : Nat → Except Halt α) : Prop :=
  ∃ r, Settles f r ∧ ((∃ a, r = .ok a) ∨ ∃ why, r = .error (.panic why))

/-- The round jumps back to `alloc_routine`: the block is free, too small and
the last one. -/
def Jumps (size : Nat) (k : Kernel) (block : Nat) : Prop :=
  block ≠ 0 ∧ chunkStatus k.mem block = kmemFree ∧
    chunkSize k.mem block < size ∧ chunkNext k.mem block = 0

/-- Rounds of the `while` of `kmalloc`, and how many of them jumped back. -/
inductive Rounds (size fuel : Nat) (s : Kernel × Nat) :
    Nat → Kernel × Nat → Prop
  | start : Rounds size fuel s 0 s
  | walk {n block : Nat} {k : Kernel} {s' : Kernel × Nat}
      (hrounds : Rounds size fuel s n (k, block)) (hstay : ¬ Jumps size k block)
      (hbody : kmallocBody size fuel (k, block) = .ok (.inl s')) :
      Rounds size fuel s n s'
  | jump {n block : Nat} {k : Kernel} {s' : Kernel × Nat}
      (hrounds : Rounds size fuel s n (k, block)) (hjump : Jumps size k block)
      (hbody : kmallocBody size fuel (k, block) = .ok (.inl s')) :
      Rounds size fuel s (n + 1) s'

/-- The list has an end, and so has the walk that stands on `block`. -/
def Walkable (k : Kernel) (block : Nat) : Prop :=
  ∃ nodes, Segment 0 (chunkNext k.mem) k.kmemList nodes 0 ∧ nodes.Nodup ∧
    (block = 0 ∨ block ∈ nodes ∨
      chunkStatus k.mem block = kmemUsed ∧ chunkNext k.mem block = 0)

/-- What ends at a moment of a history. -/
structure HeapWalks (k : Kernel) : Prop where
  acyclic : Walkable k k.kmemList
  kmalloc : ∀ size, Stops fun fuel => kmalloc fuel k size
  kmfree : ∀ addr, Stops fun fuel => kmfree fuel k addr
  glue : Stops fun fuel => chunkGlue fuel k.kmemList k.mem
  rounds : ∀ size fuel k₀ n k' block, kmallocStart k = .ok k₀ →
    Rounds size fuel (k₀, k₀.kmemList) n (k', block) →
      Walkable k' block ∧ (availablePages k₀.kvmlist).length =
        n + (availablePages k'.kvmlist).length

/-- Where the loop stands: off the list, on one of its chunks, or on a header
that a glue pass cleared. -/
def Stands (k : Kernel) (chunks : List Chunk) (block : Nat) : Prop :=
  block = 0 ∨ block ∈ chunks.map Chunk.base ∨
    chunkStatus k.mem block = kmemUsed ∧ chunkNext k.mem block = 0

section Rounds

variable {k k' : Kernel} {chunks pre post : List Chunk} {pages : List Nat}
  {size fuel block block' : Nat} {c : Chunk}

theorem Stands.head (k : Kernel) (chunks : List Chunk) :
    Stands k chunks (headPointer chunks) := by
  cases chunks with
  | nil => exact Or.inl rfl
  | cons c rest => exact Or.inr (Or.inl List.mem_cons_self)

theorem Stands.behind (k : Kernel) (pre : List Chunk) (c : Chunk)
    (post : List Chunk) : Stands k (pre ++ c :: post) (headPointer post) := by
  rcases Stands.head k post with hnull | hmem | hclear
  · exact Or.inl hnull
  · refine Or.inr (Or.inl ?_)
    rw [List.map_append, List.map_cons]
    exact List.mem_append_right _ (List.mem_cons_of_mem _ hmem)
  · exact Or.inr (Or.inr hclear)

theorem HeapReady.walkable (h : HeapReady k chunks pages)
    (hstands : Stands k chunks block) : Walkable k block :=
  ⟨chunks.map Chunk.base, h.heap.list.linked, h.heap.tiling.bases_nodup,
    hstands⟩

/-- A round on a chunk of the list. -/
theorem kmallocBody_chunk (h : HeapReady k (pre ++ c :: post) pages)
    (hbody : kmallocBody size fuel (k, c.base) = .ok (.inl (k', block'))) :
    (¬ Jumps size k c.base ∧ k' = k ∧ block' = headPointer post) ∨
      (Jumps size k c.base ∧ block' = c.base ∧ ∃ page chunks',
        availablePages k.kvmlist = page :: availablePages k'.kvmlist ∧
        HeapReady k' chunks' (pages ++ [page]) ∧ Stands k' chunks' c.base) := by
  obtain ⟨hcat, _, hpos, hnext⟩ := h.block
  by_cases hfree : c.free = true
  · have hstatus := (status_free_iff hcat).mpr hfree
    rcases Nat.lt_trichotomy c.size size with hsmall | hexact | hlarge
    · by_cases hpost : post = []
      · subst hpost
        have hjump : Jumps size k c.base :=
          ⟨hpos, hstatus, hcat.size.symm ▸ hsmall, hnext⟩
        have hanswer : ∀ {r}, Settles
            (fun fuel => kmallocBody size fuel (k, c.base)) r →
            .ok (.inl (k', block')) = r := fun hsettles =>
          (kmallocBody_stable size (k, c.base)).eq_of_settles hbody (by simp)
            hsettles
        rcases kmallocBody_grow h hfree hsmall with ⟨-, hpanic⟩ |
            ⟨page, k₁, havail, hgrow, hmove, hswal⟩
        · have hnone := hanswer hpanic
          simp at hnone
        · have heq := hanswer hgrow
          simp only [Except.ok.injEq, Sum.inl.injEq, Prod.mk.injEq] at heq
          obtain ⟨rfl, rfl⟩ := heq
          refine Or.inr ⟨hjump, rfl, page, _, havail, hmove.ready, ?_⟩
          -- the glue pass may have merged the block away
          by_cases hin : c.base ∈
              (glue (pre ++ [c, .ofPage page])).map Chunk.base
          · exact Or.inr (Or.inl hin)
          · exact Or.inr (Or.inr (hswal c (by simp) hin))
      · have hne : headPointer post ≠ 0 := by
          obtain ⟨d, rest, rfl⟩ := List.exists_cons_of_ne_nil hpost
          exact h.heap.list.linked.ne_null (List.mem_map_of_mem (by simp))
        rw [kmallocBody_small h hfree hsmall hpost] at hbody
        simp only [Except.ok.injEq, Sum.inl.injEq, Prod.mk.injEq] at hbody
        refine Or.inl ⟨fun hjump => hne ?_, hbody.1.symm, hbody.2.symm⟩
        exact hnext.symm.trans hjump.2.2.2
    · rw [kmallocBody_exact h hfree hexact] at hbody
      simp at hbody
    · by_cases hgap : c.size ≤ size + headerSize
      · rw [kmallocBody_gap h hfree hlarge hgap] at hbody
        simp at hbody
      · rw [kmallocBody_split h hfree (Nat.lt_of_not_le hgap)] at hbody
        simp at hbody
  · have hstatus : chunkStatus k.mem c.base ≠ kmemFree := by
      simpa [status_free_iff hcat] using hfree
    rw [kmallocBody_used h (by simpa using hfree)] at hbody
    simp only [Except.ok.injEq, Sum.inl.injEq, Prod.mk.injEq] at hbody
    exact Or.inl ⟨fun hjump => hstatus hjump.2.1, hbody.1.symm, hbody.2.symm⟩

/-- A round that goes on: a step along the list, or a jump that cost a page. -/
theorem kmallocBody_goes_on (h : HeapReady k chunks pages)
    (hstands : Stands k chunks block)
    (hbody : kmallocBody size fuel (k, block) = .ok (.inl (k', block'))) :
    (¬ Jumps size k block ∧ k' = k ∧ Stands k chunks block') ∨
      (Jumps size k block ∧ block' = block ∧ ∃ page chunks',
        availablePages k.kvmlist = page :: availablePages k'.kvmlist ∧
        HeapReady k' chunks' (pages ++ [page]) ∧ Stands k' chunks' block) := by
  rcases hstands with rfl | hmem | ⟨hused, hend⟩
  · simp [kmallocBody] at hbody
  · obtain ⟨c, hc, rfl⟩ := List.mem_map.mp hmem
    obtain ⟨pre, post, rfl⟩ := List.append_of_mem hc
    rcases kmallocBody_chunk h hbody with ⟨hstay, hsame, rfl⟩ | hjump
    · exact Or.inl ⟨hstay, hsame, Stands.behind k pre c post⟩
    · exact Or.inr hjump
  · have hstatus : chunkStatus k.mem block ≠ kmemFree := by
      rw [hused]
      decide
    refine Or.inl ⟨fun hjump => hstatus hjump.2.1, ?_⟩
    by_cases hnull : block = 0
    · simp [kmallocBody, hnull] at hbody
    · simp only [kmallocBody, hnull, ↓reduceIte, hstatus, ne_eq,
        not_false_eq_true, hend, Except.ok.injEq, Sum.inl.injEq,
        Prod.mk.injEq] at hbody
      exact ⟨hbody.1.symm, Or.inl hbody.2.symm⟩

/-- Through any number of rounds the list stays a heap, and the pages left
count the jumps. -/
theorem rounds_ready {n : Nat} {s : Kernel × Nat}
    (h : HeapReady k chunks pages) (hstands : Stands k chunks block)
    (hrounds : Rounds size fuel (k, block) n s) :
    ∃ chunks' pages', HeapReady s.1 chunks' pages' ∧ Stands s.1 chunks' s.2 ∧
      (availablePages k.kvmlist).length =
        n + (availablePages s.1.kvmlist).length := by
  induction hrounds with
  | start => exact ⟨chunks, pages, h, hstands, (Nat.zero_add _).symm⟩
  | walk _ hstay hbody ih =>
      obtain ⟨chunks', pages', hready, hstands', hcount⟩ := ih
      rcases kmallocBody_goes_on hready hstands' hbody with
        ⟨-, hsame, hstands''⟩ | ⟨hjump, -⟩
      · exact ⟨chunks', pages', hsame ▸ hready, hsame ▸ hstands'',
          hsame ▸ hcount⟩
      · exact absurd hjump hstay
  | jump _ hjump hbody ih =>
      obtain ⟨chunks', pages', hready, hstands', hcount⟩ := ih
      rcases kmallocBody_goes_on hready hstands' hbody with
        ⟨hstay, -⟩ | ⟨-, hsame, page, chunks'', havail, hready', hstands''⟩
      · exact absurd hjump hstay
      · refine ⟨chunks'', _, hready', hsame ▸ hstands'', ?_⟩
        have hlength := congrArg List.length havail
        rw [List.length_cons] at hlength
        omega

/-- The heap `kmalloc` walks, once it has one. -/
theorem kmallocStart_ready (h : HeapReady k chunks pages)
    (hstart : kmallocStart k = .ok k') :
    ∃ chunks' pages', HeapReady k' chunks' pages' := by
  cases chunks with
  | nil =>
      rcases kmallocStart_empty h with ⟨-, hpanic⟩ |
          ⟨page, k₁, hgrow, -, -, hmove⟩
      · rw [hpanic] at hstart
        simp at hstart
      · obtain rfl := Except.ok.inj (hgrow.symm.trans hstart)
        exact ⟨_, _, hmove.ready⟩
  | cons c rest =>
      have hpos : k.kmemList ≠ 0 := fun h0 =>
        absurd (h.heap.list.nil_iff.mpr h0) (by simp)
      rw [kmallocStart, if_neg hpos] at hstart
      obtain rfl := Except.ok.inj hstart
      exact ⟨_, _, h⟩

end Rounds

section Calls

variable {k : Kernel} {chunks : List Chunk} {pages : List Nat}

theorem Stops.of_ok {α : Type} {f : Nat → Except Halt α} {a : α}
    (h : Settles f (.ok a)) : Stops f := ⟨_, h, Or.inl ⟨a, rfl⟩⟩

theorem Stops.of_panic {α : Type} {f : Nat → Except Halt α} {why : Panic}
    (h : Settles f (.error (.panic why))) : Stops f :=
  ⟨_, h, Or.inr ⟨why, rfl⟩⟩

theorem kmalloc_stops (h : HeapReady k chunks pages) (size : Nat) :
    Stops fun fuel => kmalloc fuel k size := by
  obtain ⟨r, hsettles, hmeets⟩ := kmalloc_settles size h
  cases hans : kmallocAnswer size (availablePages k.kvmlist) chunks with
  | grant chunks' addr left =>
      rw [hans] at hmeets
      obtain ⟨k', fresh, rfl, -⟩ := hmeets
      exact .of_ok hsettles
  | refuse chunks' left =>
      rw [hans] at hmeets
      obtain ⟨k', fresh, rfl, -⟩ := hmeets
      exact .of_ok hsettles
  | gap =>
      rw [hans] at hmeets
      obtain rfl := hmeets
      exact .of_panic hsettles
  | noPage =>
      rw [hans] at hmeets
      obtain rfl := hmeets
      exact .of_panic hsettles

theorem chunkGlue_stops (h : HeapReady k chunks pages) :
    Stops fun fuel => chunkGlue fuel k.kmemList k.mem := by
  by_cases hnil : chunks = []
  · have hhead := h.heap.list.nil_iff.mp hnil
    simp only [chunkGlue, hhead, ↓reduceIte]
    exact .of_panic (settles_const _)
  · obtain ⟨m', hsettles, -⟩ := chunkGlue_settles h.heap hnil
    exact .of_ok hsettles

end Calls

/-- At every moment of every history the calls of the heap return or panic,
and every jump back costs one of the pages left. -/
theorem heapWalks_of_run {r₀ r : HeapRun} (hstart : r₀.Initial)
    (hrun : Relation.ReflTransGen HeapStep r₀ r) : HeapWalks r.kernel := by
  obtain ⟨chunks, hvalid⟩ := HeapRun.valid_of_run hstart hrun
  have hready := hvalid.ready
  have hhead := hready.heap.list.head_eq
  constructor
  · rw [hhead]
    exact hready.walkable (Stands.head r.kernel chunks)
  · exact kmalloc_stops hready
  · intro addr
    obtain ⟨k', hsettles, -⟩ := kmfree_settles hready addr
    exact .of_ok hsettles
  · exact chunkGlue_stops hready
  · intro size fuel k₀ n k' block hcall hrounds
    obtain ⟨chunks₀, pages₀, hready₀⟩ := kmallocStart_ready hready hcall
    have hstands : Stands k₀ chunks₀ k₀.kmemList := by
      rw [hready₀.heap.list.head_eq]
      exact Stands.head k₀ chunks₀
    obtain ⟨chunks', pages', hready', hstands', hcount⟩ :=
      rounds_ready hready₀ hstands hrounds
    exact ⟨hready'.walkable hstands', hcount⟩

/-- Behind two requests and their frees, a request of more than a page. -/
theorem heapWalks_freed : ∃ r,
    Relation.ReflTransGen HeapStep ⟨openKernel, [], []⟩ r ∧
      HeapWalks r.kernel ∧ Stops fun fuel => kmalloc fuel r.kernel 5000 := by
  obtain ⟨k, pages, -, -, hrun⟩ := twoFreed_reached
  have hwalks := heapWalks_of_run openKernel_initial hrun
  exact ⟨_, hrun, hwalks, hwalks.kmalloc 5000⟩

end Linda
