/-
How far a free coalesces.  The glue pass merges the first pair it finds and
steps to the header it has just cleared, so one pair is all it ever merges:
the list is fully merged afterwards when there was no second one.
-/
import Linda.HeapRequests

namespace Linda

open ByteMemory IntervalCover FuelLoop

/-- The pairs of neighbours in the list that could be one chunk. -/
def joins (chunks : List Chunk) : Nat :=
  (chunks.zip chunks.tail).countP fun p => p.1.Mergeable p.2

/-- No two neighbours in `kmem_list` could be one chunk. -/
def Coalesced (k : Kernel) : Prop :=
  ∃ chunks, ChunkList k.mem k.kmemList chunks ∧
    chunks.IsChain fun c d => ¬ c.Mergeable d

/-- The chunk, counted as free when it holds the address. -/
def Chunk.givenBack (addr : Nat) (c : Chunk) : Chunk :=
  if c.Holds addr then { c with free := true } else c

/-- With the chunk that holds the address counted as free, at most one pair of
neighbours in `kmem_list` could be one chunk. -/
def OneJoin (k : Kernel) (addr : Nat) : Prop :=
  ∃ chunks, ChunkList k.mem k.kmemList chunks ∧
    joins (chunks.map (Chunk.givenBack addr)) ≤ 1

section Joins

variable {c d : Chunk} {rest chunks : List Chunk}

theorem joins_cons (c d : Chunk) (rest : List Chunk) :
    joins (c :: d :: rest) =
      joins (d :: rest) + if c.Mergeable d then 1 else 0 := by
  simp only [joins, List.tail_cons, List.zip_cons_cons, List.countP_cons,
    decide_eq_true_eq]

theorem joins_eq_zero_iff (chunks : List Chunk) :
    joins chunks = 0 ↔ chunks.IsChain fun c d => ¬ c.Mergeable d := by
  induction chunks with
  | nil => simp [joins]
  | cons c rest ih =>
      cases rest with
      | nil => simp [joins]
      | cons d rest =>
          rw [joins_cons, List.isChain_cons_cons, ← ih]
          by_cases hm : c.Mergeable d
          · simp [hm]
          · simp [hm]

theorem joins_absorb (hm : c.Mergeable d) (rest : List Chunk) :
    joins (c.absorb d :: rest) = joins (d :: rest) := by
  cases rest with
  | nil => rfl
  | cons e rest =>
      have hstop : (c.absorb d).stop = d.stop := by
        have hmeet := hm.2.2
        simp only [Chunk.stop, Chunk.absorb] at hmeet ⊢
        omega
      have hfree : (c.absorb d).free = d.free := hm.2.1.symm
      have hiff : (c.absorb d).Mergeable e ↔ d.Mergeable e := by
        rw [Chunk.Mergeable, Chunk.Mergeable, hstop, hfree]
      rw [joins_cons, joins_cons, if_congr hiff rfl rfl]

theorem glue_head (d : Chunk) (rest : List Chunk) :
    ∃ e rest', glue (d :: rest) = e :: rest' ∧ e.base = d.base ∧
      e.free = d.free := by
  cases rest with
  | nil => exact ⟨d, [], rfl, rfl, rfl⟩
  | cons f rest =>
      by_cases hm : d.Mergeable f
      · exact ⟨d.absorb f, rest, if_pos hm, rfl, hm.1.symm⟩
      · exact ⟨d, glue (f :: rest), if_neg hm, rfl, rfl⟩

/-- One pass merges one pair. -/
theorem joins_glue (chunks : List Chunk) :
    joins (glue chunks) = joins chunks - 1 := by
  induction chunks with
  | nil => rfl
  | cons c rest ih =>
      cases rest with
      | nil => rfl
      | cons d rest =>
          rw [glue, joins_cons]
          by_cases hm : c.Mergeable d
          · rw [if_pos hm, if_pos hm, joins_absorb hm, Nat.add_sub_cancel]
          · obtain ⟨e, rest', hglue, hbase, hfree⟩ := glue_head d rest
            have hnot : ¬ c.Mergeable e := by
              rw [Chunk.Mergeable, hbase, hfree]
              exact hm
            rw [if_neg hm, if_neg hm, Nat.add_zero, ← ih, hglue, joins_cons,
              if_neg hnot, Nat.add_zero]

end Joins

section Release

variable {addr : Nat} {chunks : List Chunk} {pages : List Nat}

theorem freeBlock_eq_map
    (honce : chunks.Pairwise fun c d => c.Holds addr → ¬ d.Holds addr) :
    freeBlock addr chunks = chunks.map (Chunk.givenBack addr) := by
  induction chunks with
  | nil => rfl
  | cons c rest ih =>
      obtain ⟨hfirst, hrest⟩ := List.pairwise_cons.mp honce
      rw [freeBlock, List.map_cons]
      by_cases hholds : c.Holds addr
      · have hsame : rest.map (Chunk.givenBack addr) = rest := by
          conv_rhs => rw [← List.map_id rest]
          exact List.map_congr_left fun d hd => if_neg (hfirst d hd hholds)
        rw [if_pos hholds, hsame, Chunk.givenBack, if_pos hholds]
      · rw [if_neg hholds, ih hrest, Chunk.givenBack, if_neg hholds]

theorem Tiling.holds_once (h : Tiling chunks pages) (addr : Nat) :
    chunks.Pairwise fun c d => c.Holds addr → ¬ d.Holds addr := by
  have hbases := h.bases_nodup
  rw [List.Nodup, List.pairwise_map] at hbases
  refine hbases.imp_of_mem fun {c d} hc hd hne hholds hholds' => ?_
  have hlt := Holds.stop_lt (h.inRange c hc) hholds
  have hlt' := Holds.stop_lt (h.inRange d hd) hholds'
  have hle := hholds.2.1
  have hle' := hholds'.2.1
  simp only [Chunk.stop, Chunk.payload, headerSize] at hlt hlt' hle hle'
  rcases h.eq_or_apart hc hd with rfl | hapart
  · exact hne rfl
  · omega

end Release

/-- A free coalesces completely exactly when it leaves no second pair of
neighbours to merge. -/
theorem kmfree_coalesces_iff {r₀ r : HeapRun} (hstart : r₀.Initial)
    (hrun : Relation.ReflTransGen HeapStep r₀ r) {fuel addr : Nat}
    {k' : Kernel} (hcall : kmfree fuel r.kernel addr = .ok k') :
    Coalesced k' ↔ OneJoin r.kernel addr := by
  obtain ⟨chunks, hvalid⟩ := HeapRun.valid_of_run hstart hrun
  have hbefore := hvalid.ready.heap.list
  have hafter := (kmfree_ok hvalid.ready hcall).ready.heap.list
  rw [freeBlock_eq_map (hvalid.ready.heap.tiling.holds_once addr)] at hafter
  have hcount := joins_glue (chunks.map (Chunk.givenBack addr))
  constructor
  · rintro ⟨chunks', hlist, hchain⟩
    obtain rfl := hlist.unique hafter
    rw [← joins_eq_zero_iff, hcount] at hchain
    exact ⟨chunks, hbefore, Nat.le_of_sub_eq_zero hchain⟩
  · rintro ⟨chunks', hlist, hone⟩
    obtain rfl := hlist.unique hbefore
    refine ⟨_, hafter, ?_⟩
    rw [← joins_eq_zero_iff, hcount]
    exact Nat.sub_eq_zero_of_le hone

/-- Freed last to first, each block finds one neighbour to merge with. -/
theorem kmfree_coalesces_last : ∃ fuel k k',
    kmfree fuel k (kernBase + 132) = .ok k' ∧
      Coalesced k' := by
  obtain ⟨k, pages, hready, -, hrun⟩ := twoBlocks_reached
  obtain ⟨k', ⟨bound, hbound⟩, -⟩ := kmfree_settles hready (kernBase + 132)
  have hcall := hbound bound le_rfl
  exact ⟨bound, k, k', hcall,
    (kmfree_coalesces_iff openKernel_initial hrun hcall).mpr
      ⟨twoBlocks, hready.heap.list, by decide⟩⟩

/-- Freed first to last, the second block lies between two free chunks, and
the one behind it stays apart. -/
theorem kmfree_leaves_pair :
    ¬ ∀ (r₀ r : HeapRun) (b : Block) (fuel : Nat) (k' : Kernel), r₀.Initial →
      Relation.ReflTransGen HeapStep r₀ r → b ∈ r.live →
      kmfree fuel r.kernel b.addr = .ok k' → Coalesced k' := by
  intro hall
  obtain ⟨k, pages, hready, -, hrun⟩ := twoBlocks_reached
  obtain ⟨k₁, ⟨bound₁, hbound₁⟩, hfree₁⟩ := kmfree_settles hready (kernBase + 16)
  have hrun₁ := hrun.tail (HeapStep.free (hbound₁ bound₁ le_rfl))
  obtain ⟨k₂, ⟨bound₂, hbound₂⟩, hfree₂⟩ :=
    kmfree_settles hfree₁.ready (kernBase + 132)
  have hlist : ChunkList k₂.mem k₂.kmemList
      [⟨kernBase, 216, true⟩, ⟨kernBase + 232, 3848, true⟩] :=
    hfree₂.ready.heap.list
  have hlive : (⟨kernBase + 132, 100⟩ : Block) ∈
      [⟨kernBase + 132, 100⟩, ⟨kernBase + 16, 100⟩].filter
        fun b => kernBase + 16 ∉ b.bytes := by decide
  obtain ⟨chunks, hlist', hchain⟩ := hall _ _ _ bound₂ k₂
    openKernel_initial hrun₁ hlive (hbound₂ bound₂ le_rfl)
  obtain rfl := hlist'.unique hlist
  exact absurd hchain (by decide)

end Linda
