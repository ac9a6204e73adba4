/-
What each heap operation does to memory, as an update of the chunk list: the
split of a block, the exact fit, one glue pass, a release and the growth by a
page.
-/
import Linda.HeapLayout

namespace Linda

open ByteMemory IntervalCover LinkedSegment FuelLoop

/-- The memory after `chunk_split` cut `size` bytes off the chunk `c`. -/
def splitMemory (m : Memory) (c : Chunk) (size : Nat) : Memory :=
  let split := c.base + 16 + size
  let m' := setAddr m split (split + 16)
  let m' := setStatus m' split kmemFree
  let m' := setSize m' split (c.size - size - 16)
  let m' := setNext m' split (chunkNext m c.base)
  setNext (setSize m' c.base size) c.base split

theorem chunkSplit_eq {m : Memory} {c : Chunk} {size : Nat}
    (hc : ChunkAt m c) (hrange : c.InRange) (hfree : c.free = true)
    (hfit : size + headerSize < c.size) :
    chunkSplit m c.base size = .ok (c.base, splitMemory m c size) := by
  obtain ⟨hpos, hpay, hstop⟩ := hrange.bounds
  have hstatus := hc.status
  have haddr := hc.addr
  have hsize := hc.size
  simp only [hfree, ↓reduceIte] at hstatus
  simp only [Chunk.payload, headerSize] at haddr hfit
  have hsplit : u32 (c.base + 16 + size) = c.base + 16 + size :=
    u32_of_lt (by omega)
  have hsplitAddr : u32 (c.base + 16 + size + 16) = c.base + 16 + size + 16 :=
    u32_of_lt (by omega)
  have hleft : sub32 (sub32 c.size size) 16 = c.size - size - 16 := by
    have hinner : sub32 c.size size = c.size - size :=
      sub32_of_le (by omega) (by omega)
    rw [hinner]
    exact sub32_of_le (by omega) (by omega)
  have hnot : ¬ c.size ≤ u32 (size + 16) := by
    rw [u32_of_lt (by omega)]
    omega
  -- the later reads of the old header see through the writes to the new one
  have hsize' : ∀ v w, chunkSize (setStatus (setAddr m (c.base + 16 + size) v)
      (c.base + 16 + size) w) c.base = c.size := by
    intro v w
    simp (disch := omega) only [chunkSize, setStatus, setAddr,
      load32_store8_of_disjoint, load32_store32_of_disjoint]
    exact hsize
  have hnext' : ∀ u v w, chunkNext (setSize (setStatus
      (setAddr m (c.base + 16 + size) v) (c.base + 16 + size) w)
      (c.base + 16 + size) u) c.base = chunkNext m c.base := by
    intro u v w
    simp (disch := omega) only [chunkNext, setSize, setStatus, setAddr,
      load32_store8_of_disjoint, load32_store32_of_disjoint]
  simp only [chunkSplit, headerSize, hsize, hstatus, haddr, hnot, ↓reduceIte,
    ne_eq, not_true_eq_false, hsplit, hsplitAddr, hsize', hnext', hleft,
    splitMemory]

theorem splitMemory_outside {m : Memory} {c : Chunk} {size x : Nat}
    (hc : x < c.base ∨ c.base + 16 ≤ x)
    (hs : x < c.base + 16 + size ∨ c.base + 32 + size ≤ x) :
    splitMemory m c size x = m x := by
  simp (disch := omega) only [splitMemory, setAddr, setStatus, setSize, setNext,
    store32_of_outside, store8_of_ne]

theorem splitMemory_next {m : Memory} {c : Chunk} {size : Nat}
    (hrange : c.InRange) (hfit : size + headerSize < c.size) :
    chunkNext (splitMemory m c size) c.base = (c.leftover size).base ∧
      chunkNext (splitMemory m c size) (c.leftover size).base =
        chunkNext m c.base := by
  obtain ⟨hpos, hpay, hstop⟩ := hrange.bounds
  have hnext : load32 m c.base < 4294967296 := load32_lt m c.base
  simp only [headerSize] at hfit
  simp (disch := omega) only [Chunk.leftover, headerSize, splitMemory, setAddr,
    setStatus, setSize, setNext, chunkNext, load32_store32_of_disjoint,
    load32_store32_same, Nat.mod_eq_of_lt, and_self]

theorem splitMemory_chunkAt {m : Memory} {c : Chunk} {size : Nat}
    (hc : ChunkAt m c) (hrange : c.InRange) (hfree : c.free = true)
    (hfit : size + headerSize < c.size) :
    ChunkAt (splitMemory m c size) ⟨c.base, size, true⟩ ∧
      ChunkAt (splitMemory m c size) (c.leftover size) := by
  obtain ⟨hpos, hpay, hstop⟩ := hrange.bounds
  have hstatus := hc.status
  have haddr := hc.addr
  simp only [hfree, ↓reduceIte, chunkStatus] at hstatus
  simp only [chunkAddr, Chunk.payload, headerSize] at haddr
  simp only [headerSize] at hfit
  constructor
  · constructor
    · simp (disch := omega) only [splitMemory, setAddr, setStatus, setSize,
        setNext, chunkStatus, store32_of_outside, store8_of_ne, ↓reduceIte]
      exact hstatus
    · simp (disch := omega) only [splitMemory, setAddr, setStatus, setSize,
        setNext, chunkAddr, load32_store32_of_disjoint,
        load32_store8_of_disjoint]
      exact haddr
    · simp (disch := omega) only [splitMemory, setAddr, setStatus, setSize,
        setNext, chunkSize, load32_store32_of_disjoint, load32_store32_same,
        Nat.mod_eq_of_lt]
  · constructor
    · simp (disch := omega) only [Chunk.leftover, headerSize, splitMemory,
        setAddr, setStatus, setSize, setNext, chunkStatus, store32_of_outside,
        store8_same, ↓reduceIte]
    · simp (disch := omega) only [Chunk.leftover, Chunk.payload, headerSize,
        splitMemory, setAddr, setStatus, setSize, setNext, chunkAddr,
        load32_store32_of_disjoint, load32_store8_of_disjoint,
        load32_store32_same, Nat.mod_eq_of_lt]
    · simp (disch := omega) only [Chunk.leftover, headerSize, splitMemory,
        setAddr, setStatus, setSize, setNext, chunkSize,
        load32_store32_of_disjoint, load32_store32_same, Nat.mod_eq_of_lt]

section Requests

variable {m : Memory} {head size : Nat} {pre post : List Chunk} {c : Chunk}
  {pages : List Nat}

/-- A block cut off a larger free chunk. -/
theorem HeapAt.take (h : HeapAt m head (pre ++ [c] ++ post) pages)
    (hfree : c.free = true) (hfit : size + headerSize < c.size) :
    let m' := setStatus (splitMemory m c size) c.base kmemUsed
    HeapAt m' head (pre ++ [c.taken size, c.leftover size] ++ post) pages ∧
      HeapUpdate m (pre ++ [c] ++ post) m'
        (pre ++ [c.taken size, c.leftover size] ++ post) [] := by
  intro m'
  have hc : ChunkAt m c := h.list.stored c (by simp)
  have hrange : c.InRange := h.tiling.inRange c (by simp)
  have hbounds := hrange.bounds
  have hfit' : size + 16 < c.size := hfit
  obtain ⟨hat, hleft⟩ := splitMemory_chunkAt hc hrange hfree hfit
  obtain ⟨hnext, hnext'⟩ := splitMemory_next (m := m) hrange hfit
  have hbyte : ∀ x, x ≠ c.base + 4 → m' x = splitMemory m c size x :=
    fun x hx => store8_of_ne _ _ hx
  have hheader : ∀ a, (a + 4 ≤ c.base + 4 ∨ c.base + 4 < a) →
      load32 m' a = load32 (splitMemory m c size) a :=
    fun a ha => load32_store8_of_disjoint _ _ (by omega)
  have houtside : ∀ x, (x < c.base ∨ c.base + 16 ≤ x) →
      (x < c.base + 16 + size ∨ c.base + 32 + size ≤ x) → m' x = m x := by
    intro x hx hx'
    rw [hbyte x (by omega), splitMemory_outside hx hx']
  have hframe : ∀ x, (∀ d ∈ [c], x < d.base ∨ d.base + 16 + d.size ≤ x) →
      m' x = m x := by
    intro x hx
    have hxc := hx c (by simp)
    exact houtside x (by omega) (by omega)
  constructor
  · refine h.replace hframe ?_ ?_ ?_ ?_
    · rintro p q ⟨rfl, hpos, hq⟩
      refine ⟨rfl, hpos, ?_, ?_, ?_⟩
      · exact (hheader c.base (by omega)).trans hnext
      · simp only [Chunk.leftover, headerSize]
        omega
      · refine Eq.trans ((hheader _ ?_).trans hnext') hq
        simp only [Chunk.leftover, headerSize]
        omega
    · intro d hd
      simp only [List.mem_cons, List.not_mem_nil, or_false] at hd
      rcases hd with rfl | rfl
      · exact ⟨store8_same _ _ _, (hheader _ (by simp [Chunk.taken])).trans hat.addr,
          (hheader _ (by simp [Chunk.taken])).trans hat.size⟩
      · have hbase : (c.leftover size).base = c.base + 16 + size := rfl
        exact ⟨(hbyte _ (by omega)).trans hleft.status,
          (hheader _ (by omega)).trans hleft.addr,
          (hheader _ (by omega)).trans hleft.size⟩
    · intro d hd
      simp only [List.mem_cons, List.not_mem_nil, or_false] at hd
      rcases hd with rfl | rfl
      · refine .of_bounds ?_
        simp only [Chunk.taken]
        omega
      · refine .of_bounds ?_
        simp only [Chunk.leftover, headerSize]
        omega
    · intro x
      have hlo : c.base ≤ c.base + 16 + size := by omega
      have hhi : c.base + 16 + size ≤ c.stop := by
        simp only [Chunk.stop, headerSize]
        omega
      have hcut := coverCount_cut hlo hhi [] x
      have hstop : (c.leftover size).stop = c.stop := by
        simp only [Chunk.leftover, Chunk.stop, headerSize]
        omega
      simp only [List.map_cons, List.map_nil, Chunk.extent, hstop]
      exact hcut
  · refine HeapUpdate.replace h.tiling hframe (by simpa using hfree) ?_ ?_
    · intro d hd x hx
      refine ⟨c, by simp, ?_⟩
      simp only [List.mem_cons, List.not_mem_nil, or_false] at hd
      rw [Chunk.mem_extent] at hx ⊢
      rcases hd with rfl | rfl
      · simp only [Chunk.taken] at hx
        omega
      · simp only [Chunk.leftover, headerSize] at hx
        omega
    · intro s hz d hd x hx hs
      simp only [List.mem_cons, List.not_mem_nil, or_false] at hd
      rw [Chunk.mem_block] at hx
      have hin : c.base + 16 ≤ x ∧ x < c.base + 16 + c.size ∧
          (x < c.base + 16 + size ∨ c.base + 32 + size ≤ x) := by
        rcases hd with rfl | rfl
        · simp only [Chunk.taken] at hx
          omega
        · simp only [Chunk.leftover, headerSize] at hx
          omega
      rw [houtside x (by omega) hin.2.2]
      exact hz c (by simp) x (Chunk.mem_block.mpr ⟨hin.1, hin.2.1⟩) hs

/-- A free chunk handed out whole. -/
theorem HeapAt.takeWhole (h : HeapAt m head (pre ++ [c] ++ post) pages)
    (hfree : c.free = true) :
    let m' := setStatus m c.base kmemUsed
    let used : Chunk := { c with free := false }
    HeapAt m' head (pre ++ [used] ++ post) pages ∧
      HeapUpdate m (pre ++ [c] ++ post) m' (pre ++ [used] ++ post) [] := by
  intro m' used
  have hc : ChunkAt m c := h.list.stored c (by simp)
  have hheader : ∀ a, (a + 4 ≤ c.base + 4 ∨ c.base + 4 < a) →
      load32 m' a = load32 m a :=
    fun a ha => load32_store8_of_disjoint _ _ (by omega)
  have hframe : ∀ x, (∀ d ∈ [c], x < d.base ∨ d.base + 16 + d.size ≤ x) →
      m' x = m x := by
    intro x hx
    have hxc := hx c (by simp)
    exact store8_of_ne _ _ (by omega)
  constructor
  · refine h.replace hframe ?_ ?_ ?_ ?_
    · rintro p q ⟨rfl, hpos, hq⟩
      exact ⟨rfl, hpos, (hheader c.base (by omega)).trans hq⟩
    · intro d hd
      obtain rfl := List.mem_singleton.mp hd
      exact ⟨store8_same _ _ _, (hheader _ (by simp [used])).trans hc.addr,
        (hheader _ (by simp [used])).trans hc.size⟩
    · intro d hd
      obtain rfl := List.mem_singleton.mp hd
      exact .of_bounds (h.tiling.inRange c (by simp)).bounds
    · exact fun x => rfl
  · refine HeapUpdate.replace h.tiling hframe (by simpa using hfree) ?_ ?_
    · intro d hd x hx
      obtain rfl := List.mem_singleton.mp hd
      exact ⟨c, by simp, hx⟩
    · intro s hz d hd x hx hs
      obtain rfl := List.mem_singleton.mp hd
      have hxc : x ∈ c.block := hx
      rw [Chunk.mem_block] at hxc
      rw [show m' x = m x from store8_of_ne _ _ (by omega)]
      exact hz c (by simp) x hx hs

end Requests

section Glue

variable {m : Memory} {head : Nat} {c d : Chunk}

/-- The memory after `chunk_glue` merged `d` into `c`. -/
def mergeMemory (m : Memory) (c d : Chunk) : Memory :=
  let m' := setSize m c.base (c.size + d.size + 16)
  fill (setNext m' c.base (chunkNext m d.base)) (c.base + 16)
    (c.size + d.size + 16) 0

/-- The test of `chunk_glue` is exact: equal addresses modulo `2 ^ 32` of
chunks inside the address space are equal. -/
theorem mergeable_test (hc : c.InRange) (hd : d.InRange) :
    sub32 d.payload c.payload = u32 (c.size + headerSize) ↔
      c.stop = d.base := by
  have hbc := hc.bounds
  have hbd := hd.bounds
  simp only [sub32, u32, Chunk.payload, Chunk.stop, headerSize]
  omega

theorem status_free_iff (hc : ChunkAt m c) :
    chunkStatus m c.base = kmemFree ↔ c.free = true := by
  rw [hc.status]
  cases c.free with
  | false => simp [kmemUsed, kmemFree]
  | true => simp

theorem status_used_iff (hc : ChunkAt m c) :
    chunkStatus m c.base = kmemUsed ↔ c.free = false := by
  rw [hc.status]
  cases c.free with
  | false => simp
  | true => simp [kmemUsed, kmemFree]

theorem glueBody_pair (hc : ChunkAt m c) (hd : ChunkAt m d)
    (hrc : c.InRange) (hrd : d.InRange) (hnext : chunkNext m c.base = d.base) :
    glueBody (m, c.base) = .ok (.inl
      (if c.Mergeable d then mergeMemory m c d else m, d.base)) := by
  have hbc := hrc.bounds
  have hbd := hrd.bounds
  have hc0 : c.base ≠ 0 := by omega
  have hd0 : d.base ≠ 0 := by omega
  have htest := mergeable_test hrc hrd
  have hpay : c.payload = c.base + 16 := rfl
  simp only [glueBody, hc0, ↓reduceIte, hnext, hd0, hc.addr, hd.addr, hc.size,
    hd.size, htest, status_free_iff hc, status_free_iff hd]
  by_cases hm : c.Mergeable d
  · obtain ⟨hcf, hdf, hadj⟩ := hm
    have hm : c.Mergeable d := ⟨hcf, hdf, hadj⟩
    have hstop : c.base + 16 + c.size = d.base := hadj
    have hsum : u32 (c.size + d.size + headerSize) = c.size + d.size + 16 :=
      u32_of_lt (by simp only [headerSize]; omega)
    have hlink : chunkNext (setSize m c.base (c.size + d.size + 16)) d.base =
        chunkNext m d.base :=
      load32_store32_of_disjoint _ _ (by omega)
    have haddr : chunkAddr (setNext (setSize m c.base (c.size + d.size + 16))
        c.base (chunkNext m d.base)) c.base = c.base + 16 := by
      refine Eq.trans ?_ hc.addr
      simp (disch := omega) only [chunkAddr, setNext, setSize,
        load32_store32_of_disjoint]
    have hsize : chunkSize (setNext (setSize m c.base (c.size + d.size + 16))
        c.base (chunkNext m d.base)) c.base = c.size + d.size + 16 := by
      simp (disch := omega) only [chunkSize, setNext, setSize,
        load32_store32_of_disjoint, load32_store32_same, Nat.mod_eq_of_lt]
    simp only [hcf, hdf, hadj, and_self, ↓reduceIte, hm, hsum, hlink, haddr,
      hsize, memset_eq_fill, mergeMemory]
  · have hm' : ¬ (c.free = true ∧ d.free = true ∧ c.stop = d.base) := hm
    simp only [hm', hm, ↓reduceIte]

theorem mergeMemory_outside {x : Nat}
    (hx : x < c.base ∨ c.base + 16 + (c.size + d.size + 16) ≤ x) :
    mergeMemory m c d x = m x := by
  simp (disch := omega) only [mergeMemory, fill_of_outside, setNext, setSize,
    store32_of_outside]

theorem mergeMemory_zero {x : Nat} (hx : c.base + 16 ≤ x)
    (hx' : x < c.base + 16 + (c.size + d.size + 16)) :
    mergeMemory m c d x = 0 := fill_of_inside _ _ (by omega)

/-- The header of the merged chunk. -/
theorem mergeMemory_header (hc : ChunkAt m c) (hrc : c.InRange)
    (hrd : d.InRange) (hm : c.Mergeable d) :
    ChunkAt (mergeMemory m c d) (c.absorb d) ∧
      chunkNext (mergeMemory m c d) c.base = chunkNext m d.base := by
  obtain ⟨hcf, hdf, hadj⟩ := hm
  have hbc := hrc.bounds
  have hbd := hrd.bounds
  have hstop : c.base + 16 + c.size = d.base := hadj
  have hnext : load32 m d.base < 4294967296 := load32_lt m d.base
  have hstatus := hc.status
  have haddr := hc.addr
  simp only [hcf, ↓reduceIte, chunkStatus] at hstatus
  simp only [chunkAddr, Chunk.payload, headerSize] at haddr
  refine ⟨⟨?_, ?_, ?_⟩, ?_⟩
  · simp (disch := omega) only [mergeMemory, Chunk.absorb, chunkStatus,
      fill_of_outside, setNext, setSize, store32_of_outside, ↓reduceIte]
    exact hstatus
  · simp (disch := omega) only [mergeMemory, Chunk.absorb, Chunk.payload,
      headerSize, chunkAddr, load32_fill_of_disjoint, setNext, setSize,
      load32_store32_of_disjoint]
    exact haddr
  · simp (disch := omega) only [mergeMemory, Chunk.absorb, headerSize,
      chunkSize, load32_fill_of_disjoint, setNext, setSize,
      load32_store32_of_disjoint, load32_store32_same, Nat.mod_eq_of_lt]
  · simp (disch := omega) only [mergeMemory, chunkNext,
      load32_fill_of_disjoint, setNext, setSize, load32_store32_same,
      Nat.mod_eq_of_lt]

variable {pre post : List Chunk} {pages : List Nat}

/-- Merging two neighbours of the list. -/
theorem HeapAt.merge (h : HeapAt m head (pre ++ [c, d] ++ post) pages)
    (hm : c.Mergeable d) :
    HeapAt (mergeMemory m c d) head (pre ++ [c.absorb d] ++ post) pages ∧
      HeapUpdate m (pre ++ [c, d] ++ post) (mergeMemory m c d)
        (pre ++ [c.absorb d] ++ post) [] := by
  have hc : ChunkAt m c := h.list.stored c (by simp)
  have hrc : c.InRange := h.tiling.inRange c (by simp)
  have hrd : d.InRange := h.tiling.inRange d (by simp)
  have hbc := hrc.bounds
  have hbd := hrd.bounds
  obtain ⟨hat, hnext⟩ := mergeMemory_header hc hrc hrd hm
  obtain ⟨hcf, hdf, hadj⟩ := hm
  have hstop : c.base + 16 + c.size = d.base := hadj
  have hframe : ∀ x, (∀ e ∈ [c, d], x < e.base ∨ e.base + 16 + e.size ≤ x) →
      mergeMemory m c d x = m x := by
    intro x hx
    have hxc := hx c (by simp)
    have hxd := hx d (by simp)
    exact mergeMemory_outside (by omega)
  constructor
  · refine h.replace hframe ?_ (by simpa using hat) ?_ ?_
    · rintro p q ⟨rfl, hpos, hd, hdpos, hq⟩
      exact ⟨rfl, hpos, hnext.trans hq⟩
    · intro e he
      obtain rfl := List.mem_singleton.mp he
      refine .of_bounds ?_
      simp only [Chunk.absorb, headerSize]
      omega
    · intro x
      have hlo : c.base ≤ c.stop := by
        simp only [Chunk.stop, headerSize]
        omega
      have hhi : c.stop ≤ (c.absorb d).stop := by
        simp only [Chunk.stop, Chunk.absorb, headerSize]
        omega
      have hcut := coverCount_cut hlo hhi [] x
      have hend : (c.absorb d).stop = d.stop := by
        simp only [Chunk.stop, Chunk.absorb, headerSize]
        omega
      have hd : d.extent = ⟨c.stop, (c.absorb d).stop⟩ := by
        rw [Chunk.extent, hend, hadj]
      simp only [List.map_cons, List.map_nil, hd]
      exact hcut.symm
  · refine HeapUpdate.replace h.tiling hframe (by simp [hcf, hdf]) ?_ ?_
    · intro e he x hx
      obtain rfl := List.mem_singleton.mp he
      rw [Chunk.mem_extent] at hx
      simp only [Chunk.absorb, headerSize] at hx
      by_cases hlt : x < d.base
      · exact ⟨c, by simp, Chunk.mem_extent.mpr (by omega)⟩
      · exact ⟨d, by simp, Chunk.mem_extent.mpr (by omega)⟩
    · intro s _ e he x hx _
      obtain rfl := List.mem_singleton.mp he
      rw [Chunk.mem_block] at hx
      simp only [Chunk.absorb, headerSize] at hx
      exact mergeMemory_zero (by omega) (by omega)

end Glue

section Growth

variable {m : Memory} {head page : Nat} {pages : List Nat}

/-- The header `alloc_free_chunk_from_kvm` writes. -/
def pageMemory (m : Memory) (page : Nat) : Memory :=
  setNext (setAddr (setStatus (setSize m page 4080) page kmemFree) page
    (page + 16)) page 0

theorem pageMemory_outside {x : Nat} (hx : x < page ∨ page + 16 ≤ x) :
    pageMemory m page x = m x := by
  simp (disch := omega) only [pageMemory, setNext, setAddr, setStatus, setSize,
    store32_of_outside, store8_of_ne]

theorem pageMemory_header (hpage : ValidPage page) :
    ChunkAt (pageMemory m page) (.ofPage page) ∧
      chunkNext (pageMemory m page) page = 0 := by
  obtain ⟨hpos, haligned, hbelow⟩ := hpage
  refine ⟨⟨?_, ?_, ?_⟩, ?_⟩
  · simp (disch := omega) only [Chunk.ofPage, pageMemory, chunkStatus, setNext,
      setAddr, setStatus, setSize, store32_of_outside, store8_same, ↓reduceIte]
  · simp (disch := omega) only [Chunk.ofPage, Chunk.payload, headerSize,
      pageMemory, chunkAddr, setNext, setAddr, setStatus, setSize,
      load32_store32_of_disjoint, load32_store32_same, Nat.mod_eq_of_lt]
  · simp (disch := omega) only [Chunk.ofPage, headerSize, pgSize, pageMemory,
      chunkSize, setNext, setAddr, setStatus, setSize,
      load32_store32_of_disjoint, load32_store8_of_disjoint,
      load32_store32_same, Nat.mod_eq_of_lt, Nat.reduceSub]
  · simp only [pageMemory, chunkNext, setNext, load32_store32_same,
      Nat.zero_mod]

theorem ofPage_inRange (hpage : ValidPage page) :
    (Chunk.ofPage page).InRange := by
  obtain ⟨hpos, haligned, hbelow⟩ := hpage
  refine .of_bounds ?_
  simp only [Chunk.ofPage, headerSize, pgSize]
  omega

theorem ofPage_extent (page : Nat) :
    (Chunk.ofPage page).extent = pageExtent page := by
  simp only [Chunk.ofPage, Chunk.extent, Chunk.stop, pageExtent, headerSize,
    pgSize]

/-- The heap begins with a page. -/
theorem HeapAt.start (hpage : ValidPage page) :
    HeapAt (pageMemory m page) page [.ofPage page] [page] ∧
      HeapUpdate m [] (pageMemory m page) [.ofPage page] [page] := by
  obtain ⟨hat, hnext⟩ := pageMemory_header (m := m) hpage
  refine ⟨⟨⟨⟨rfl, ?_, hnext⟩, by simpa using hat⟩, ⟨?_, ?_, ?_⟩⟩, ?_, ?_⟩
  · exact Nat.pos_iff_ne_zero.mp hpage.pos
  · simpa using ofPage_inRange hpage
  · intro x
    simp only [List.map_cons, List.map_nil, ofPage_extent]
  · intro x
    simp only [List.map_cons, List.map_nil, coverCount_cons, coverCount_nil]
    split_ifs <;> omega
  · intro x _ hx
    simp only [List.map_cons, List.map_nil, coverCount_cons, coverCount_nil,
      mem_pageExtent] at hx
    have hout : ¬ (page ≤ x ∧ x < page + 4096) := by
      intro hin
      simp [hin] at hx
    refine ⟨fun c hc hin => ?_, pageMemory_outside (by omega)⟩
    obtain rfl := List.mem_singleton.mp hc
    rw [ofPage_extent, mem_pageExtent] at hin
    exact absurd hin hout
  · intro s _ hzero c hc x hx _
    obtain rfl := List.mem_singleton.mp hc
    rw [Chunk.mem_block] at hx
    simp only [Chunk.ofPage, headerSize, pgSize] at hx
    rw [pageMemory_outside (by omega)]
    exact hzero page (by simp) x (mem_pageExtent.mpr (by omega))

/-- A byte outside the heap's pages lies in no chunk. -/
theorem Tiling.outside {chunks : List Chunk} (h : Tiling chunks pages)
    {x : Nat} (hx : coverCount (pages.map pageExtent) x = 0) {c : Chunk}
    (hc : c ∈ chunks) : x < c.base ∨ c.base + 16 + c.size ≤ x := by
  by_contra hcon
  have hpos : 0 < coverCount (chunks.map Chunk.extent) x :=
    coverCount_pos_iff.mpr ⟨c.extent, List.mem_map_of_mem hc,
      Chunk.mem_extent.mpr (by omega)⟩
  rw [h.covers] at hpos
  omega

/-- The memory after the last chunk `last` got the page as its successor. -/
def growMemory (m : Memory) (last : Chunk) (page : Nat) : Memory :=
  setNext (pageMemory m page) last.base page

theorem growMemory_outside {last : Chunk} {x : Nat}
    (hx : x < last.base ∨ last.base + 4 ≤ x)
    (hx' : x < page ∨ page + 16 ≤ x) : growMemory m last page x = m x :=
  (store32_of_outside _ _ hx).trans (pageMemory_outside hx')

theorem growMemory_header {last : Chunk} (hpage : ValidPage page)
    (hlast : ChunkAt m last)
    (hapart : last.base + 16 ≤ page ∨ page + 16 ≤ last.base) :
    ChunkAt (growMemory m last page) last ∧
      ChunkAt (growMemory m last page) (.ofPage page) ∧
      chunkNext (growMemory m last page) last.base = page ∧
      chunkNext (growMemory m last page) page = 0 := by
  obtain ⟨hat, hnext⟩ := pageMemory_header (m := m) hpage
  have hbelow := hpage.below
  have hword : ∀ a, last.base + 4 ≤ a → a + 4 ≤ last.base + 16 →
      load32 (growMemory m last page) a = load32 m a := fun a hlo hhi =>
    load32_congr fun x hx hx' => growMemory_outside (by omega) (by omega)
  have hsame : SameHeader (pageMemory m page) (growMemory m last page)
      (.ofPage page) := by
    intro x hlo hhi
    simp only [Chunk.ofPage] at hlo hhi
    exact store32_of_outside _ _ (by omega)
  refine ⟨⟨?_, ?_, ?_⟩, hsame.chunkAt hat, ?_, hsame.next.trans hnext⟩
  · exact (growMemory_outside (by omega) (by omega)).trans hlast.status
  · exact (hword _ (by omega) (by omega)).trans hlast.addr
  · exact (hword _ (by omega) (by omega)).trans hlast.size
  · simp only [growMemory, chunkNext, setNext, load32_store32_same]
    exact Nat.mod_eq_of_lt hbelow

variable {pre : List Chunk} {last : Chunk}

/-- A page outside the heap lies apart from every chunk. -/
theorem Tiling.apart_page {chunks : List Chunk} (h : Tiling chunks pages)
    (hout : ∀ x ∈ pageExtent page, coverCount (pages.map pageExtent) x = 0)
    {c : Chunk} (hc : c ∈ chunks) :
    c.base + 16 + c.size ≤ page ∨ page + 4096 ≤ c.base := by
  by_contra hcon
  have hx : max c.base page ∈ pageExtent page :=
    mem_pageExtent.mpr (by omega)
  have hcx := h.outside (hout _ hx) hc
  omega

theorem ChunkList.grow (h : HeapAt m head (pre ++ [last]) pages)
    (hpage : ValidPage page)
    (hout : ∀ x ∈ pageExtent page, coverCount (pages.map pageExtent) x = 0) :
    ChunkList (growMemory m last page) head (pre ++ [last, .ofPage page]) := by
  have hpos := hpage.pos
  have hlast : ChunkAt m last := h.list.stored last (by simp)
  have hapart := h.tiling.apart_page hout (c := last) (by simp)
  obtain ⟨hat, hatPage, hlink, hend⟩ :=
    growMemory_header (m := m) hpage hlast (by omega)
  have hlist : ChunkList m head (pre ++ [last] ++ []) := by simpa using h.list
  suffices hnew : ChunkList (growMemory m last page) head
      (pre ++ [last, .ofPage page] ++ []) by
    simpa using hnew
  refine hlist.replace ?_ ?_ ?_
  · intro c hc x hlo hhi
    have hcpage := h.tiling.apart_page hout (c := c) (by simpa using Or.inl hc)
    have htiling : Tiling (pre ++ last :: []) pages := h.tiling
    have hclast := htiling.apart hc
    exact growMemory_outside (by omega) (by omega)
  · rintro p q ⟨rfl, hp, hq⟩
    have hzero : chunkNext m last.base = 0 := h.list.next_eq
    refine ⟨rfl, hp, hlink, ?_, hend.trans (hzero.symm.trans hq)⟩
    simp only [Chunk.ofPage]
    omega
  · intro c hc
    simp only [List.mem_cons, List.not_mem_nil, or_false] at hc
    rcases hc with rfl | rfl
    · exact hat
    · exact hatPage

theorem Tiling.grow {chunks : List Chunk} (h : Tiling chunks pages)
    (hpage : ValidPage page)
    (hout : ∀ x ∈ pageExtent page, coverCount (pages.map pageExtent) x = 0) :
    Tiling (chunks ++ [.ofPage page]) (pages ++ [page]) := by
  constructor
  · intro c hc
    simp only [List.mem_append, List.mem_singleton] at hc
    rcases hc with hc | rfl
    · exact h.inRange c hc
    · exact ofPage_inRange hpage
  · intro x
    simp only [List.map_append, List.map_cons, List.map_nil, coverCount_append,
      ofPage_extent, h.covers]
  · intro x
    have honce := h.once x
    simp only [List.map_append, List.map_cons, List.map_nil, coverCount_append,
      coverCount_cons, coverCount_nil]
    by_cases hx : x ∈ pageExtent page
    · simp [hout x hx, hx]
    · simp only [hx, ↓reduceIte]
      omega

/-- A page hung behind the last chunk. -/
theorem HeapAt.grow (h : HeapAt m head (pre ++ [last]) pages)
    (hpage : ValidPage page)
    (hout : ∀ x ∈ pageExtent page, coverCount (pages.map pageExtent) x = 0) :
    HeapAt (growMemory m last page) head (pre ++ [last, .ofPage page])
        (pages ++ [page]) ∧
      HeapUpdate m (pre ++ [last]) (growMemory m last page)
        (pre ++ [last, .ofPage page]) [page] := by
  have hlist := ChunkList.grow h hpage hout
  have htiling := h.tiling.grow hpage hout
  have hassoc : pre ++ [last, Chunk.ofPage page] =
      (pre ++ [last]) ++ [.ofPage page] := by simp
  rw [hassoc] at hlist ⊢
  refine ⟨⟨hlist, htiling⟩, ?_, ?_⟩
  · intro x hx hfresh
    have hxpage : x ∉ pageExtent page := by
      intro hin
      simp [coverCount_cons, hin] at hfresh
    have hxlast : x < last.base ∨ last.base + 16 ≤ x := by
      by_contra hcon
      have hblock := (hx last (by simp) (Chunk.mem_extent.mpr (by omega))).2
      rw [Chunk.mem_block] at hblock
      omega
    rw [mem_pageExtent] at hxpage
    refine ⟨fun c hc hin => ?_, growMemory_outside (by omega) (by omega)⟩
    rcases List.mem_append.mp hc with hc | hc
    · exact hx c hc hin
    · obtain rfl := List.mem_singleton.mp hc
      rw [ofPage_extent, mem_pageExtent] at hin
      exact absurd hin hxpage
  · intro s hzero hfresh c hc x hx hs
    rcases List.mem_append.mp hc with hc | hc
    · have hxc := Chunk.mem_block.mp hx
      have hcpage := h.tiling.apart_page hout hc
      rw [growMemory_outside ?_ (by omega)]
      · exact hzero c hc x hx hs
      · rcases List.mem_append.mp hc with hc | hc
        · have htiling : Tiling (pre ++ last :: []) pages := h.tiling
          have hclast := htiling.apart (d := c) (by simpa using hc)
          omega
        · obtain rfl := List.mem_singleton.mp hc
          omega
    · obtain rfl := List.mem_singleton.mp hc
      have hlastPage := h.tiling.apart_page hout (c := last) (by simp)
      rw [Chunk.mem_block] at hx
      simp only [Chunk.ofPage, headerSize, pgSize] at hx
      rw [growMemory_outside (by omega) (by omega)]
      exact hfresh page (by simp) x (mem_pageExtent.mpr (by omega))

end Growth

end Linda
