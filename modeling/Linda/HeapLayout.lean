/-
The heap in memory: the headers of a chunk list, the tiling of the heap's
pages by its chunks, and the frame of an update, the bytes it may not touch.
-/
import Linda.ChunkList
import Linda.LinkedSegment

namespace Linda

open ByteMemory IntervalCover LinkedSegment

/-- The header of `c` is in memory at `c.base`. -/
structure ChunkAt (m : Memory) (c : Chunk) : Prop where
  status : chunkStatus m c.base = if c.free then kmemFree else kmemUsed
  addr : chunkAddr m c.base = c.payload
  size : chunkSize m c.base = c.size

/-- The list `kmem_list` points to. -/
structure ChunkList (m : Memory) (head : Nat) (chunks : List Chunk) : Prop where
  linked : Segment 0 (chunkNext m) head (chunks.map Chunk.base) 0
  stored : ∀ c ∈ chunks, ChunkAt m c

def pageExtent (page : Nat) : Interval := ⟨page, page + pgSize⟩

/-- A page `kvm_alloc_page` may hand out. -/
structure ValidPage (page : Nat) : Prop where
  pos : 0 < page
  aligned : page % 4096 = 0
  below : page < 4294967296

/-- The pages of the heap and those it may still take. -/
structure Supply (pages fresh : List Nat) : Prop where
  nodup : (pages ++ fresh).Nodup
  valid : ∀ page ∈ pages ++ fresh, ValidPage page

/-- The chunks cover the heap's pages, every byte once. -/
structure Tiling (chunks : List Chunk) (pages : List Nat) : Prop where
  inRange : ∀ c ∈ chunks, c.InRange
  covers : ∀ x, coverCount (chunks.map Chunk.extent) x =
    coverCount (pages.map pageExtent) x
  once : ∀ x, coverCount (pages.map pageExtent) x ≤ 1

/-- Bytes no heap operation may change: those of the blocks clients hold and
those outside the heap. -/
def Kept (chunks : List Chunk) (x : Nat) : Prop :=
  ∀ c ∈ chunks, x ∈ c.extent → c.free = false ∧ x ∈ c.block

/-- Every free payload is zero. -/
def FreeZeroed (m : Memory) (chunks : List Chunk) : Prop :=
  ∀ c ∈ chunks, c.free = true → ∀ x ∈ c.block, m x = 0

/-- The bytes of the blocks clients hold. -/
def usedBytes (chunks : List Chunk) : Set Nat :=
  { x | ∃ c ∈ chunks, c.free = false ∧ x ∈ c.block }

/-- Every byte of a block, in use or not, is zero outside `s`. -/
def ZeroOutside (s : Set Nat) (m : Memory) (chunks : List Chunk) : Prop :=
  ∀ c ∈ chunks, ∀ x ∈ c.block, x ∉ s → m x = 0

/-- An update of the heap that takes the pages `fresh` into it. -/
structure HeapUpdate (m : Memory) (chunks : List Chunk) (m' : Memory)
    (chunks' : List Chunk) (fresh : List Nat) : Prop where
  kept : ∀ x, Kept chunks x → coverCount (fresh.map pageExtent) x = 0 →
    Kept chunks' x ∧ m' x = m x
  zeroed : ∀ s, ZeroOutside s m chunks →
    (∀ page ∈ fresh, ∀ x ∈ pageExtent page, m x = 0) →
      ZeroOutside s m' chunks'

namespace Chunk

theorem mem_extent {c : Chunk} {x : Nat} :
    x ∈ c.extent ↔ c.base ≤ x ∧ x < c.base + 16 + c.size := Iff.rfl

theorem mem_block {c : Chunk} {x : Nat} :
    x ∈ c.block ↔ c.base + 16 ≤ x ∧ x < c.base + 16 + c.size := Iff.rfl

theorem InRange.bounds {c : Chunk} (h : c.InRange) :
    0 < c.base ∧ c.base + 16 < 4294967296 ∧
      c.base + 16 + c.size ≤ 4294967296 :=
  ⟨h.base_pos, h.payload_lt, h.stop_le⟩

theorem InRange.of_bounds {c : Chunk} (h : 0 < c.base ∧
    c.base + 16 < 4294967296 ∧ c.base + 16 + c.size ≤ 4294967296) :
    c.InRange := ⟨h.1, h.2.1, h.2.2⟩

end Chunk

theorem mem_pageExtent {page x : Nat} :
    x ∈ pageExtent page ↔ page ≤ x ∧ x < page + 4096 := Iff.rfl

theorem pageExtent_disjoint {p q : Nat} (hp : ValidPage p) (hq : ValidPage q)
    (hne : p ≠ q) : (pageExtent p).Disjoint (pageExtent q) := by
  intro x hxp hxq
  rw [mem_pageExtent] at hxp hxq
  have hap := hp.aligned
  have haq := hq.aligned
  omega

namespace Supply

variable {pages fresh : List Nat} {page : Nat}

/-- A page still to be taken lies outside the pages taken. -/
theorem outside (h : Supply pages fresh) (hpage : page ∈ fresh) {x : Nat}
    (hx : x ∈ pageExtent page) : coverCount (pages.map pageExtent) x = 0 := by
  by_contra hcon
  obtain ⟨I, hI, hxI⟩ := coverCount_pos_iff.mp (Nat.pos_of_ne_zero hcon)
  obtain ⟨q, hq, rfl⟩ := List.mem_map.mp hI
  have hne : q ≠ page := fun heq =>
    (List.nodup_append.mp h.nodup).2.2 q hq page hpage heq
  exact pageExtent_disjoint (h.valid q (by simp [hq]))
    (h.valid page (by simp [hpage])) hne x hxI hx

theorem move (h : Supply pages (page :: fresh)) :
    Supply (pages ++ [page]) fresh := by
  obtain ⟨hnodup, hvalid⟩ := h
  exact ⟨by simpa using hnodup, by simpa using hvalid⟩

end Supply

/-- `m'` shows the header of `c` as `m` does. -/
def SameHeader (m m' : Memory) (c : Chunk) : Prop :=
  ∀ x, c.base ≤ x → x < c.base + 16 → m' x = m x

theorem SameHeader.next {m m' : Memory} {c : Chunk} (h : SameHeader m m' c) :
    chunkNext m' c.base = chunkNext m c.base :=
  load32_congr fun x _ _ => h x (by omega) (by omega)

theorem SameHeader.chunkAt {m m' : Memory} {c : Chunk}
    (h : SameHeader m m' c) (hc : ChunkAt m c) : ChunkAt m' c where
  status := (h (c.base + 4) (by omega) (by omega)).trans hc.status
  addr := (load32_congr fun x _ _ => h x (by omega) (by omega)).trans hc.addr
  size := (load32_congr fun x _ _ => h x (by omega) (by omega)).trans hc.size

/-- Rewriting a stretch of the list, headers elsewhere untouched. -/
theorem ChunkList.replace {m m' : Memory} {head : Nat}
    {pre old new post : List Chunk}
    (h : ChunkList m head (pre ++ old ++ post))
    (hsame : ∀ c ∈ pre ++ post, SameHeader m m' c)
    (hlinks : ∀ p q, Segment 0 (chunkNext m) p (old.map Chunk.base) q →
      Segment 0 (chunkNext m') p (new.map Chunk.base) q)
    (hnew : ∀ c ∈ new, ChunkAt m' c) :
    ChunkList m' head (pre ++ new ++ post) := by
  have hagree : ∀ chunks : List Chunk, (∀ c ∈ chunks, c ∈ pre ++ post) →
      ∀ a ∈ chunks.map Chunk.base, chunkNext m' a = chunkNext m a := by
    intro chunks hsub a ha
    obtain ⟨c, hc, rfl⟩ := List.mem_map.mp ha
    exact (hsame c (hsub c hc)).next
  have hlinked := h.linked
  simp only [List.map_append, segment_append] at hlinked
  obtain ⟨q, ⟨p, hpre, hold⟩, hpost⟩ := hlinked
  constructor
  · simp only [List.map_append, segment_append]
    exact ⟨q, ⟨p, hpre.congr (hagree pre fun c hc => by simp [hc]),
      hlinks p q hold⟩, hpost.congr (hagree post fun c hc => by simp [hc])⟩
  · intro c hc
    simp only [List.mem_append] at hc
    rcases hc with (hc | hc) | hc
    · exact (hsame c (by simp [hc])).chunkAt (h.stored c (by simp [hc]))
    · exact hnew c hc
    · exact (hsame c (by simp [hc])).chunkAt (h.stored c (by simp [hc]))

/-- The pointer to a list is the base of its first chunk. -/
def headPointer (chunks : List Chunk) : Nat :=
  (chunks.map Chunk.base).headD 0

theorem ChunkList.head_eq {m : Memory} {head : Nat} {chunks : List Chunk}
    (h : ChunkList m head chunks) : head = headPointer chunks := by
  cases chunks with
  | nil => exact h.linked
  | cons c rest => exact h.linked.1

theorem ChunkList.next_eq {m : Memory} {head : Nat} {pre post : List Chunk}
    {c : Chunk} (h : ChunkList m head (pre ++ c :: post)) :
    chunkNext m c.base = headPointer post := by
  have hlinked := h.linked
  rw [List.map_append, List.map_cons, segment_middle] at hlinked
  have hpost := hlinked.2.2
  cases post with
  | nil => exact hpost
  | cons d rest => exact hpost.1

theorem ChunkList.nil_iff {m : Memory} {head : Nat} {chunks : List Chunk}
    (h : ChunkList m head chunks) : chunks = [] ↔ head = 0 := by
  rw [← h.linked.eq_nil_iff, List.map_eq_nil_iff]

namespace Tiling

variable {chunks pre post : List Chunk} {pages : List Nat} {c d : Chunk}

/-- Different chunks of a tiling lie apart. -/
theorem apart (h : Tiling (pre ++ c :: post) pages) (hd : d ∈ pre ++ post) :
    c.base + 16 + c.size ≤ d.base ∨ d.base + 16 + d.size ≤ c.base := by
  have hperm : ((c :: (pre ++ post)).map Chunk.extent).Perm
      ((pre ++ c :: post).map Chunk.extent) :=
    (List.perm_middle.symm).map _
  have honce : ∀ x, coverCount ((c :: (pre ++ post)).map Chunk.extent) x ≤ 1 := by
    intro x
    rw [coverCount_perm hperm, h.covers]
    exact h.once x
  have hpair := pairwise_disjoint_of_coverCount_le_one honce
  rw [List.map_cons, List.pairwise_cons] at hpair
  have hdisj := hpair.1 d.extent (List.mem_map_of_mem hd)
  exact hdisj.ordered
    (show c.base < c.base + 16 + c.size by omega)
    (show d.base < d.base + 16 + d.size by omega)

/-- Two chunks of a tiling are one chunk or lie apart. -/
theorem eq_or_apart (h : Tiling chunks pages) (hc : c ∈ chunks)
    (hd : d ∈ chunks) : d = c ∨ c.base + 16 + c.size ≤ d.base ∨
      d.base + 16 + d.size ≤ c.base := by
  obtain ⟨before, after, rfl⟩ := List.append_of_mem hc
  simp only [List.mem_append, List.mem_cons] at hd
  rcases hd with hd | rfl | hd
  · exact Or.inr (h.apart (by simp [hd]))
  · exact Or.inl rfl
  · exact Or.inr (h.apart (by simp [hd]))

/-- No byte of a block is a byte of a header. -/
theorem block_header (h : Tiling chunks pages) (hc : c ∈ chunks)
    (hd : d ∈ chunks) {x : Nat} (hx : x ∈ d.block) :
    x < c.base ∨ c.base + 16 ≤ x := by
  rw [Chunk.mem_block] at hx
  rcases h.eq_or_apart hc hd with rfl | hapart
  · omega
  · omega

/-- The bytes of a used block are kept. -/
theorem kept (h : Tiling chunks pages) (hd : d ∈ chunks)
    (hused : d.free = false) {x : Nat} (hx : x ∈ d.block) :
    Kept chunks x := by
  intro c hc hin
  have hxd := Chunk.mem_block.mp hx
  rw [Chunk.mem_extent] at hin
  rcases h.eq_or_apart hc hd with rfl | hapart
  · exact ⟨hused, hx⟩
  · omega

theorem bases_nodup (h : Tiling chunks pages) :
    (chunks.map Chunk.base).Nodup := by
  have honce : ∀ x, coverCount (chunks.map Chunk.extent) x ≤ 1 := by
    intro x
    rw [h.covers]
    exact h.once x
  have hpair := pairwise_disjoint_of_coverCount_le_one honce
  rw [List.pairwise_map] at hpair
  refine List.pairwise_map.mpr (hpair.imp fun {c d} hdisj heq => ?_)
  exact hdisj c.base (Chunk.mem_extent.mpr (by omega))
    (Chunk.mem_extent.mpr (by omega))

/-- Chunks of a stretch lie apart from the chunks around it. -/
theorem apart_stretch {old : List Chunk} (h : Tiling (pre ++ old ++ post) pages)
    (hc : c ∈ old) (hd : d ∈ pre ++ post) :
    c.base + 16 + c.size ≤ d.base ∨ d.base + 16 + d.size ≤ c.base := by
  obtain ⟨before, after, rfl⟩ := List.append_of_mem hc
  have h' : Tiling ((pre ++ before) ++ c :: (after ++ post)) pages := by
    simpa using h
  refine h'.apart ?_
  simp only [List.mem_append] at hd ⊢
  rcases hd with hd | hd
  · exact Or.inl (Or.inl hd)
  · exact Or.inr (Or.inr hd)

/-- Exchanging a stretch for one that covers the same bytes. -/
theorem replace {old new : List Chunk} (h : Tiling (pre ++ old ++ post) pages)
    (hrange : ∀ c ∈ new, c.InRange)
    (hcover : ∀ x, coverCount (new.map Chunk.extent) x =
      coverCount (old.map Chunk.extent) x) :
    Tiling (pre ++ new ++ post) pages where
  inRange c hc := by
    simp only [List.mem_append] at hc
    rcases hc with (hc | hc) | hc
    · exact h.inRange c (by simp [hc])
    · exact hrange c hc
    · exact h.inRange c (by simp [hc])
  covers x := by
    rw [← h.covers]
    simp [hcover]
  once := h.once

end Tiling

/-- The heap in memory: `chunks` behind `head`, tiling `pages`. -/
structure HeapAt (m : Memory) (head : Nat) (chunks : List Chunk)
    (pages : List Nat) : Prop where
  list : ChunkList m head chunks
  tiling : Tiling chunks pages

theorem FreeZeroed.zeroOutside {m : Memory} {chunks : List Chunk}
    (h : FreeZeroed m chunks) : ZeroOutside (usedBytes chunks) m chunks := by
  intro c hc x hx hnot
  cases hused : c.free with
  | false => exact absurd ⟨c, hc, hused, hx⟩ hnot
  | true => exact h c hc hused x hx

theorem usedBytes_eq {chunks chunks' : List Chunk}
    (h : usedChunks chunks' = usedChunks chunks) :
    usedBytes chunks' = usedBytes chunks := by
  have hmem : ∀ l : List Chunk, usedBytes l =
      { x | ∃ c ∈ usedChunks l, x ∈ c.block } := by
    intro l
    ext x
    simp only [usedBytes, Set.mem_ofPred_eq, mem_usedChunks, and_assoc]
  rw [hmem, hmem, h]

namespace Tiling

variable {m : Memory} {chunks : List Chunk} {pages : List Nat} {c : Chunk}

/-- A byte of a chunk is in no block of another chunk. -/
theorem not_mem_block (h : Tiling chunks pages) (hc : c ∈ chunks) {x : Nat}
    (hx : x ∈ c.block) {d : Chunk} (hd : d ∈ chunks) (hne : d ≠ c) :
    x ∉ d.block := by
  intro hxd
  rw [Chunk.mem_block] at hx hxd
  rcases h.eq_or_apart hc hd with heq | hapart
  · exact hne heq
  · omega

theorem freeZeroed (h : Tiling chunks pages) {s : Set Nat}
    (hs : s ⊆ usedBytes chunks) (hzero : ZeroOutside s m chunks) :
    FreeZeroed m chunks := by
  intro c hc hfree x hx
  apply hzero c hc x hx
  intro hin
  obtain ⟨d, hd, hused, hxd⟩ := hs hin
  refine h.not_mem_block hc hx hd ?_ hxd
  rintro rfl
  rw [hfree] at hused
  contradiction

end Tiling

/-- Rewriting a stretch of the heap, bytes elsewhere untouched. -/
theorem HeapAt.replace {m m' : Memory} {head : Nat} {pages : List Nat}
    {pre old new post : List Chunk}
    (h : HeapAt m head (pre ++ old ++ post) pages)
    (hframe : ∀ x, (∀ c ∈ old, x < c.base ∨ c.base + 16 + c.size ≤ x) →
      m' x = m x)
    (hlinks : ∀ p q, Segment 0 (chunkNext m) p (old.map Chunk.base) q →
      Segment 0 (chunkNext m') p (new.map Chunk.base) q)
    (hnew : ∀ c ∈ new, ChunkAt m' c) (hrange : ∀ c ∈ new, c.InRange)
    (hcover : ∀ x, coverCount (new.map Chunk.extent) x =
      coverCount (old.map Chunk.extent) x) :
    HeapAt m' head (pre ++ new ++ post) pages := by
  refine ⟨h.list.replace (fun d hd x hlo hhi => ?_) hlinks hnew,
    h.tiling.replace hrange hcover⟩
  refine hframe x fun c hc => ?_
  have hapart := h.tiling.apart_stretch hc hd
  omega

/-- A kept byte lies outside every free chunk and every header. -/
theorem Kept.outside {chunks : List Chunk} {x : Nat} (h : Kept chunks x)
    {c : Chunk} (hc : c ∈ chunks) (hfree : c.free = true) :
    x < c.base ∨ c.base + 16 + c.size ≤ x := by
  by_contra hcon
  have hin : x ∈ c.extent := Chunk.mem_extent.mpr (by omega)
  have hused := (h c hc hin).1
  rw [hfree] at hused
  contradiction

/-- Replacing free chunks by chunks inside them frees and blocks no kept
byte. -/
theorem Kept.replace {pre old new post : List Chunk} {x : Nat}
    (hx : Kept (pre ++ old ++ post) x)
    (hold : ∀ c ∈ old, c.free = true)
    (hsub : ∀ d ∈ new, x ∈ d.extent → ∃ c ∈ old, x ∈ c.extent) :
    Kept (pre ++ new ++ post) x := by
  intro d hd hin
  simp only [List.mem_append] at hd
  rcases hd with (hd | hd) | hd
  · exact hx d (by simp [hd]) hin
  · obtain ⟨c, hc, hxc⟩ := hsub d hd hin
    have hused := (hx c (by simp [hc]) hxc).1
    rw [hold c hc] at hused
    contradiction
  · exact hx d (by simp [hd]) hin

namespace HeapUpdate

theorem refl (m : Memory) (chunks : List Chunk) :
    HeapUpdate m chunks m chunks [] :=
  ⟨fun _ hx _ => ⟨hx, rfl⟩, fun _ h _ => h⟩

/-- Rewriting a stretch of free chunks, bytes elsewhere untouched. -/
theorem replace {m m' : Memory} {pages : List Nat}
    {pre old new post : List Chunk} (h : Tiling (pre ++ old ++ post) pages)
    (hframe : ∀ x, (∀ c ∈ old, x < c.base ∨ c.base + 16 + c.size ≤ x) →
      m' x = m x)
    (hold : ∀ c ∈ old, c.free = true)
    (hsub : ∀ d ∈ new, ∀ x ∈ d.extent, ∃ c ∈ old, x ∈ c.extent)
    (hzero : ∀ s, ZeroOutside s m old → ZeroOutside s m' new) :
    HeapUpdate m (pre ++ old ++ post) m' (pre ++ new ++ post) [] := by
  constructor
  · intro x hx _
    refine ⟨hx.replace hold fun d hd hin => hsub d hd x hin, hframe x ?_⟩
    exact fun c hc => hx.outside (by simp [hc]) (hold c hc)
  · intro s hz _ d hd x hin hs
    have hkeep : d ∈ pre ++ post → m' x = 0 := by
      intro hd'
      rw [hframe x fun c hc => ?_]
      · refine hz d ?_ x hin hs
        simp only [List.mem_append] at hd' ⊢
        tauto
      · have hapart := h.apart_stretch hc hd'
        rw [Chunk.mem_block] at hin
        omega
    simp only [List.mem_append] at hd
    rcases hd with (hd | hd) | hd
    · exact hkeep (by simp [hd])
    · exact hzero s (fun c hc => hz c (by simp [hc])) d hd x hin hs
    · exact hkeep (by simp [hd])

/-- Composition; the pages of the second step were outside the heap during
the first. -/
theorem trans {m₁ m₂ m₃ : Memory} {c₁ c₂ c₃ : List Chunk}
    {fresh₁ fresh₂ : List Nat} (h₁ : HeapUpdate m₁ c₁ m₂ c₂ fresh₁)
    (h₂ : HeapUpdate m₂ c₂ m₃ c₃ fresh₂)
    (hout : ∀ page ∈ fresh₂, ∀ x ∈ pageExtent page,
      Kept c₁ x ∧ coverCount (fresh₁.map pageExtent) x = 0) :
    HeapUpdate m₁ c₁ m₃ c₃ (fresh₁ ++ fresh₂) := by
  constructor
  · intro x hx hfresh
    rw [List.map_append, coverCount_append] at hfresh
    obtain ⟨hx₂, heq₂⟩ := h₁.kept x hx (by omega)
    obtain ⟨hx₃, heq₃⟩ := h₂.kept x hx₂ (by omega)
    exact ⟨hx₃, heq₃.trans heq₂⟩
  · intro s hzero hpages
    refine h₂.zeroed s (h₁.zeroed s hzero fun page hpage => ?_) ?_
    · exact hpages page (List.mem_append_left _ hpage)
    · intro page hpage x hx
      obtain ⟨hkept, hcount⟩ := hout page hpage x hx
      rw [(h₁.kept x hkept hcount).2]
      exact hpages page (List.mem_append_right _ hpage) x hx

/-- Steps that take no page compose freely. -/
theorem trans_same {m₁ m₂ m₃ : Memory} {c₁ c₂ c₃ : List Chunk}
    {fresh : List Nat} (h₁ : HeapUpdate m₁ c₁ m₂ c₂ fresh)
    (h₂ : HeapUpdate m₂ c₂ m₃ c₃ []) : HeapUpdate m₁ c₁ m₃ c₃ fresh := by
  have h := h₁.trans h₂ (fun page hpage => absurd hpage (by simp))
  simpa using h

end HeapUpdate

end Linda
