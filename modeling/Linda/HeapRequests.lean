/-
Which requests fail: when `kmalloc` answers `NULL` although a page is left,
and when it asks `chunk_split` for more than a block can be cut by.  Both are
read off the chunk list before the call.
-/
import Linda.HeapHistory

namespace Linda

open ByteMemory IntervalCover LinkedSegment FuelLoop

/-- The first pair a glue pass merges is the last pair of the list. -/
def lastMerges : List Chunk → Bool
  | c :: d :: rest =>
      if c.Mergeable d then rest.isEmpty else lastMerges (d :: rest)
  | _ => false

/-- The walk stops at a free chunk of at least `size` bytes. -/
def Chunk.offers (c : Chunk) (size : Nat) : Bool := c.free && size ≤ c.size

/-- The chunk serves the request whole or has room for a second header. -/
def Chunk.Fits (c : Chunk) (size : Nat) : Prop :=
  c.size = size ∨ size + headerSize < c.size

/-- No page appended behind a free last chunk ends in the gap. -/
def GrowthSafe (size : Nat) : List Nat → List Chunk → Chunk → Prop
  | [], _, _ => True
  | page :: pages, front, last =>
      if lastMerges (front ++ [last]) then True
      else if lastMerges (front ++ [last, .ofPage page]) then
        if size ≤ (last.absorb (.ofPage page)).size then
          (last.absorb (.ofPage page)).Fits size
        else GrowthSafe size pages front (last.absorb (.ofPage page))
      else if size ≤ (Chunk.ofPage page).size then (Chunk.ofPage page).Fits size
      else GrowthSafe size pages (glue front ++ [last]) (.ofPage page)

/-- The first chunk that offers `size` bytes, in the list or in its growth. -/
def ListSafe (size : Nat) (pages : List Nat) (chunks : List Chunk) : Prop :=
  match chunks.find? fun c => c.offers size with
  | some c => c.Fits size
  | none => ∀ front last, chunks = front ++ [last] → last.free = true →
      GrowthSafe size pages front last

/-- An empty heap starts with the first page. -/
def SplitSafe (size : Nat) : List Nat → List Chunk → Prop
  | [], [] => True
  | page :: pages, [] => ListSafe size pages [.ofPage page]
  | pages, c :: rest => ListSafe size pages (c :: rest)

/-- Nothing offers `size` bytes and the list does not grow: its last chunk is
used, or the glue pass after the growth swallows it. -/
def Stuck (size : Nat) (chunks : List Chunk) : Prop :=
  (∀ c ∈ chunks, c.free = true → c.size < size) ∧
    ∃ front last, chunks = front ++ [last] ∧
      (last.free = false ∨ lastMerges chunks = true)

section Glue

variable {front : List Chunk} {last : Chunk} {page : Nat}

theorem glue_of_lastMerges {chunks : List Chunk}
    (h : lastMerges chunks = true) :
    ∃ front c d, chunks = front ++ [c, d] ∧ c.Mergeable d ∧
      ∀ post, glue (chunks ++ post) = front ++ c.absorb d :: post := by
  match chunks with
  | [] => simp [lastMerges] at h
  | [c] => simp [lastMerges] at h
  | c :: d :: rest =>
      rw [lastMerges] at h
      split_ifs at h with hm
      · obtain rfl := List.isEmpty_iff.mp h
        exact ⟨[], c, d, rfl, hm, fun post => by simp [glue, hm]⟩
      · obtain ⟨front, a, b, heq, hab, hglue⟩ := glue_of_lastMerges h
        refine ⟨c :: front, a, b, by rw [heq]; rfl, hab, fun post => ?_⟩
        have hrest := hglue post
        simp only [List.cons_append] at hrest ⊢
        rw [glue, if_neg hm, hrest]

/-- A chunk behind the list that the pass does not merge stays behind. -/
theorem glue_snoc {chunks : List Chunk} {p : Chunk}
    (h : lastMerges (chunks ++ [p]) = false) :
    glue (chunks ++ [p]) = glue chunks ++ [p] := by
  match chunks with
  | [] => rfl
  | [c] =>
      have hm : ¬ c.Mergeable p := by
        intro hm
        simp [lastMerges, hm] at h
      simp [glue, hm]
  | c :: d :: rest =>
      simp only [List.cons_append, lastMerges] at h
      simp only [List.cons_append, glue]
      split_ifs at h ⊢ with hm
      · rfl
      · have hrest : glue (d :: rest ++ [p]) = glue (d :: rest) ++ [p] :=
          glue_snoc h
        simp only [List.cons_append] at hrest
        rw [hrest]
        rfl

theorem glue_bases (chunks : List Chunk) :
    ((glue chunks).map Chunk.base).Sublist (chunks.map Chunk.base) := by
  match chunks with
  | [] => exact List.Sublist.refl _
  | [c] => exact List.Sublist.refl _
  | c :: d :: rest =>
      rw [glue]
      split_ifs
      · exact (List.sublist_cons_self _ _).cons_cons _
      · exact (glue_bases (d :: rest)).cons_cons _

theorem span_at {c : Chunk} {rest : List Chunk}
    (hfront : last.base ∉ front.map Chunk.base) (hbase : c.base = last.base) :
    (front ++ c :: rest).span (fun e => e.base ≠ last.base) =
      (front, c :: rest) := by
  have hpass : ∀ e ∈ front, decide (e.base ≠ last.base) = true := by
    intro e he
    have hne : e.base ≠ last.base := fun heq =>
      hfront (heq ▸ List.mem_map_of_mem he)
    simpa using hne
  rw [List.span_eq_takeWhile_dropWhile, List.takeWhile_append_of_pos hpass,
    List.dropWhile_append_of_pos hpass]
  simp [hbase]

theorem nodup_split {pages : List Nat}
    (h : ((front ++ [last]).map Chunk.base ++ page :: pages).Nodup) :
    last.base ∉ front.map Chunk.base ∧ page ≠ last.base ∧
      page ∉ front.map Chunk.base := by
  simp only [List.map_append, List.map_cons, List.map_nil, List.append_assoc,
    List.singleton_append, List.nodup_append, List.nodup_cons,
    List.mem_cons, List.mem_map, not_or] at h
  obtain ⟨_, ⟨⟨hlast, _⟩, _⟩, hfront⟩ := h
  refine ⟨fun hin => ?_, fun heq => hlast heq.symm, fun hin => ?_⟩
  · obtain ⟨c, hc, hbase⟩ := List.mem_map.mp hin
    exact hfront c.base ⟨c, hc, rfl⟩ last.base (Or.inl rfl) hbase
  · obtain ⟨c, hc, hbase⟩ := List.mem_map.mp hin
    exact hfront c.base ⟨c, hc, rfl⟩ page (Or.inr (Or.inl rfl)) hbase

/-- Where the walk stands after a growth: off the list when the pass swallowed
the last chunk, on the merged chunk, or on the last chunk before the page. -/
theorem grown_cases {pages : List Nat}
    (h : ((front ++ [last]).map Chunk.base ++ page :: pages).Nodup) :
    grown front last page =
      if lastMerges (front ++ [last]) then
        (glue (front ++ [last, .ofPage page]), [])
      else if lastMerges (front ++ [last, .ofPage page]) then
        (front, [last.absorb (.ofPage page)])
      else (glue front, [last, .ofPage page]) := by
  obtain ⟨hfront, hpage, _⟩ := nodup_split h
  split_ifs with hswallow hmerge
  · obtain ⟨front', c, d, heq, _, hglue⟩ := glue_of_lastMerges hswallow
    have heq' : front ++ [last] = front' ++ [c] ++ [d] := by simpa using heq
    obtain ⟨rfl, hlast⟩ := List.append_inj' heq' rfl
    obtain rfl : last = d := by simpa using hlast
    have hpost := hglue [.ofPage page]
    have hassoc : front' ++ [c] ++ [last, Chunk.ofPage page] =
        front' ++ [c] ++ [last] ++ [.ofPage page] := by simp
    rw [grown, hassoc, hpost, List.span_eq_takeWhile_dropWhile]
    have hall : ∀ e ∈ front' ++ c.absorb last :: [.ofPage page],
        decide (e.base ≠ last.base) = true := by
      intro e he
      simp only [List.mem_append, List.mem_cons, List.not_mem_nil,
        or_false] at he
      simp only [List.map_append, List.map_cons, List.map_nil, List.mem_append,
        List.mem_singleton, not_or] at hfront
      rcases he with he | rfl | rfl
      · have hne : e.base ≠ last.base := fun heq =>
          hfront.1 (heq ▸ List.mem_map_of_mem he)
        simpa using hne
      · have hne : c.base ≠ last.base := fun heq => hfront.2 heq.symm
        exact decide_eq_true hne
      · exact decide_eq_true hpage
    rw [List.takeWhile_eq_self_iff.mpr hall, List.dropWhile_eq_nil_iff.mpr hall]
  · obtain ⟨front', c, d, heq, _, hglue⟩ := glue_of_lastMerges hmerge
    obtain ⟨rfl, hlast⟩ := List.append_inj' heq rfl
    simp only [List.cons.injEq, and_true] at hlast
    obtain ⟨rfl, rfl⟩ := hlast
    have hnil := hglue []
    rw [List.append_nil] at hnil
    rw [grown, hnil]
    exact span_at hfront rfl
  · have hassoc : front ++ [last, Chunk.ofPage page] =
        front ++ [last] ++ [.ofPage page] := by simp
    rw [hassoc] at hmerge
    have hfront' : last.base ∉ (glue front).map Chunk.base :=
      fun hin => hfront ((glue_bases front).subset hin)
    rw [grown, hassoc, glue_snoc (by simpa using hmerge),
      glue_snoc (by simpa using hswallow), List.append_assoc]
    exact span_at hfront' rfl

end Glue

section Requests

variable {size : Nat}

/-- The answer once the walk stands on a free last chunk too small. -/
def growAnswer (size : Nat) (pages : List Nat) (front : List Chunk)
    (last : Chunk) : Answer :=
  match pages with
  | [] => .noPage
  | page :: pages =>
      request size pages (grown front last page).1 (grown front last page).2

theorem request_eq (pages : List Nat) (pre suf : List Chunk) :
    request size pages pre suf =
      match walk size pre suf with
      | .grant chunks addr => .grant chunks addr pages
      | .gap => .gap
      | .refuse => .refuse (pre ++ suf) pages
      | .grow front last => growAnswer size pages front last := by
  cases pages with
  | nil => rw [request]; rfl
  | cons page pages => rw [request]; rfl

/-- The kinds of answers a theorem tells apart. -/
def Answer.IsGap : Answer → Prop
  | .gap => True
  | _ => False

def Answer.IsRefuse : Answer → Prop
  | .refuse _ _ => True
  | _ => False

theorem not_fits_iff {c : Chunk} (h : size ≤ c.size) :
    ¬ c.Fits size ↔ size < c.size ∧ c.size ≤ size + headerSize := by
  simp only [Chunk.Fits]
  omega

/-- At a chunk that offers `size` bytes the request is decided. -/
theorem request_offer {pages : List Nat} {pre post : List Chunk} {c : Chunk}
    (h : c.offers size = true) :
    ((request size pages pre (c :: post)).IsGap ↔ ¬ c.Fits size) ∧
      ¬ (request size pages pre (c :: post)).IsRefuse := by
  simp only [Chunk.offers, Bool.and_eq_true, decide_eq_true_eq] at h
  obtain ⟨hfree, hle⟩ := h
  rw [not_fits_iff hle, request_eq, walk, if_neg (by simp [hfree])]
  split_ifs with hlarge hgap hexact
  · simp [Answer.IsGap, Answer.IsRefuse, hlarge, hgap]
  · simp [Answer.IsGap, Answer.IsRefuse, hgap]
  · simp [Answer.IsGap, Answer.IsRefuse, hlarge]
  · omega
  · omega

/-- A chunk that offers nothing is passed, or the list grows behind it. -/
theorem request_pass {pages : List Nat} {pre post : List Chunk} {c : Chunk}
    (h : c.offers size = false) :
    request size pages pre (c :: post) =
      if c.free = true ∧ post = [] then growAnswer size pages pre c
      else request size pages (pre ++ [c]) post := by
  simp only [Chunk.offers, Bool.and_eq_false_iff, decide_eq_false_iff_not] at h
  rw [request_eq, walk]
  by_cases hfree : c.free = true
  · have hsmall : ¬ size ≤ c.size := by simpa [hfree] using h
    have hlarge : ¬ size < c.size := by omega
    have hexact : c.size ≠ size := by omega
    by_cases hpost : post = []
    · simp [hfree, hlarge, hexact, hpost]
    · simp [hfree, hlarge, hexact, hpost, request_eq]
  · simp [hfree, request_eq]

theorem request_nil (pages : List Nat) (pre : List Chunk) :
    request size pages pre [] = .refuse pre pages := by
  rw [request_eq, walk, List.append_nil]

theorem offers_absorb {last p : Chunk} :
    (last.absorb p).offers size = decide (size ≤ (last.absorb p).size) := rfl

theorem offers_ofPage {page : Nat} :
    (Chunk.ofPage page).offers size =
      decide (size ≤ (Chunk.ofPage page).size) := rfl

theorem nodup_bases_grown {front : List Chunk} {last : Chunk} {page : Nat}
    {pages : List Nat}
    (h : ((front ++ [last]).map Chunk.base ++ page :: pages).Nodup) :
    ((front ++ [last.absorb (Chunk.ofPage page)]).map Chunk.base ++ pages).Nodup ∧
      ((glue front ++ [last] ++ [Chunk.ofPage page]).map Chunk.base ++
        pages).Nodup := by
  constructor
  · refine h.sublist ?_
    simp only [List.map_append, List.map_cons, List.map_nil, Chunk.absorb]
    exact (List.Sublist.refl _).append (List.sublist_cons_self _ _)
  · refine h.sublist ?_
    simp only [List.map_append, List.map_cons, List.map_nil, Chunk.ofPage,
      List.append_assoc, List.singleton_append]
    exact (glue_bases front).append (List.Sublist.refl _)

/-- The growth ends in the gap unless every page is safe. -/
theorem growAnswer_isGap {pages : List Nat} {front : List Chunk} {last : Chunk}
    (hnodup : ((front ++ [last]).map Chunk.base ++ pages).Nodup)
    (hsmall : last.size < size) :
    (growAnswer size pages front last).IsGap ↔
      ¬ GrowthSafe size pages front last := by
  induction pages generalizing front last with
  | nil => simp [growAnswer, Answer.IsGap, GrowthSafe]
  | cons page pages ih =>
      obtain ⟨hmerged, hbehind⟩ := nodup_bases_grown hnodup
      rw [growAnswer, grown_cases hnodup, GrowthSafe]
      split_ifs with hswallow hmerge hoffer hoffer
      · simp [request_nil, Answer.IsGap]
      · exact (request_offer (by simpa [offers_absorb] using hoffer)).1
      · rw [request_pass (by simpa [offers_absorb] using hoffer),
          if_pos ⟨rfl, rfl⟩]
        exact ih hmerged (by omega)
      · rw [request_pass (by
          simp only [Chunk.offers, Bool.and_eq_false_iff,
            decide_eq_false_iff_not]
          omega), if_neg (by simp)]
        exact (request_offer (by simpa [offers_ofPage] using hoffer)).1
      · rw [request_pass (by
          simp only [Chunk.offers, Bool.and_eq_false_iff,
            decide_eq_false_iff_not]
          omega), if_neg (by simp),
          request_pass (by simpa [offers_ofPage] using hoffer),
          if_pos ⟨rfl, rfl⟩]
        exact ih hbehind (by omega)

theorem request_isGap {pages : List Nat} {pre suf : List Chunk}
    (hnodup : ((pre ++ suf).map Chunk.base ++ pages).Nodup) :
    (request size pages pre suf).IsGap ↔
      match suf.find? fun c => c.offers size with
      | some c => ¬ c.Fits size
      | none => suf ≠ [] ∧ ∃ front last, pre ++ suf = front ++ [last] ∧
          last.free = true ∧ ¬ GrowthSafe size pages front last := by
  induction suf generalizing pre with
  | nil => simp [request_nil, Answer.IsGap]
  | cons c post ih =>
      by_cases hoffer : c.offers size = true
      · have hfind : (c :: post).find? (fun c => c.offers size) = some c :=
          List.find?_cons_of_pos hoffer
        rw [hfind]
        exact (request_offer hoffer).1
      · rw [Bool.not_eq_true] at hoffer
        have hfind : (c :: post).find? (fun c => c.offers size) =
            post.find? fun c => c.offers size :=
          List.find?_cons_of_neg (by simp [hoffer])
        rw [hfind, request_pass hoffer]
        by_cases hlast : c.free = true ∧ post = []
        · obtain ⟨hfree, rfl⟩ := hlast
          have hsmall : c.size < size := by
            simpa [Chunk.offers, hfree] using hoffer
          rw [if_pos ⟨hfree, rfl⟩, growAnswer_isGap hnodup hsmall]
          simp [hfree]
        · rw [if_neg hlast, ih (by simpa using hnodup)]
          cases hfind : post.find? fun c => c.offers size with
          | some d => rfl
          | none =>
              by_cases hpost : post = []
              · subst hpost
                have hused : c.free = false := by simpa using hlast
                simp [hused]
              · simp [hpost]

/-- With a page left, a request of at most a page is refused when nothing
serves it and the list cannot grow. -/
theorem request_isRefuse {page : Nat} {pages : List Nat} {pre suf : List Chunk}
    (hnodup : ((pre ++ suf).map Chunk.base ++ page :: pages).Nodup)
    (hsize : size ≤ pgSize - headerSize) (hsuf : suf ≠ []) :
    (request size (page :: pages) pre suf).IsRefuse ↔
      (∀ c ∈ suf, c.free = true → c.size < size) ∧
        ∃ front last, pre ++ suf = front ++ [last] ∧
          (last.free = false ∨ lastMerges (pre ++ suf) = true) := by
  induction suf generalizing pre with
  | nil => exact absurd rfl hsuf
  | cons c post ih =>
      by_cases hoffer : c.offers size = true
      · have hnot : ¬ (request size (page :: pages) pre (c :: post)).IsRefuse :=
          (request_offer hoffer).2
        simp only [Chunk.offers, Bool.and_eq_true, decide_eq_true_eq] at hoffer
        refine iff_of_false hnot fun hstuck => ?_
        have hsmall := hstuck.1 c List.mem_cons_self hoffer.1
        omega
      · rw [Bool.not_eq_true] at hoffer
        rw [request_pass hoffer]
        have hsmall : c.free = true → c.size < size := by
          intro hfree
          simpa [Chunk.offers, hfree] using hoffer
        by_cases hlast : c.free = true ∧ post = []
        · obtain ⟨hfree, rfl⟩ := hlast
          rw [if_pos ⟨hfree, rfl⟩, growAnswer, grown_cases hnodup]
          have hpage : size ≤ (Chunk.ofPage page).size := hsize
          split_ifs with hswallow hmerge
          · simp only [request_nil, Answer.IsRefuse, hswallow, or_true,
              and_true, true_iff, List.mem_singleton, forall_eq]
            exact ⟨hsmall, pre, c, rfl⟩
          · refine iff_of_false (request_offer ?_).2 ?_
            · rw [offers_absorb, decide_eq_true_eq]
              simp only [Chunk.absorb]
              omega
            · simp [hfree, hswallow]
          · rw [request_pass hoffer, if_neg (by simp)]
            refine iff_of_false (request_offer ?_).2 ?_
            · rw [offers_ofPage, decide_eq_true_eq]
              exact hpage
            · simp [hfree, hswallow]
        · rw [if_neg hlast]
          by_cases hpost : post = []
          · subst hpost
            have hused : c.free = false := by simpa using hlast
            simp [request_nil, Answer.IsRefuse, hused]
          · rw [ih (by simpa using hnodup) hpost]
            simp only [List.append_assoc, List.singleton_append,
              List.mem_cons, forall_eq_or_imp]
            exact and_congr_left fun _ => ⟨fun h => ⟨hsmall, h⟩, fun h => h.2⟩

theorem not_listSafe_iff {pages : List Nat} {chunks : List Chunk}
    (hnodup : (chunks.map Chunk.base ++ pages).Nodup) (hne : chunks ≠ []) :
    ¬ ListSafe size pages chunks ↔ (request size pages [] chunks).IsGap := by
  rw [request_isGap hnodup, ListSafe]
  cases chunks.find? fun c => c.offers size with
  | some c => rfl
  | none => simp [hne]

variable (size) in
/-- `SplitSafe` excludes exactly the answer that panics. -/
theorem kmallocAnswer_isGap {pages : List Nat} {chunks : List Chunk}
    (hnodup : (chunks.map Chunk.base ++ pages).Nodup) :
    (kmallocAnswer size pages chunks).IsGap ↔
      ¬ SplitSafe size pages chunks := by
  match chunks, pages with
  | [], [] => simp [kmallocAnswer, Answer.IsGap, SplitSafe]
  | [], page :: pages =>
      rw [SplitSafe, not_listSafe_iff (by simpa [Chunk.ofPage] using hnodup)
        (by simp)]
      rfl
  | c :: rest, [] =>
      rw [SplitSafe, not_listSafe_iff hnodup (by simp)]
      rfl
  | c :: rest, page :: pages =>
      rw [SplitSafe, not_listSafe_iff hnodup (by simp)]
      rfl

/-- With a page left, a request of at most a page is refused when it is
stuck. -/
theorem kmallocAnswer_isRefuse {page : Nat} {pages : List Nat}
    {chunks : List Chunk}
    (hnodup : (chunks.map Chunk.base ++ page :: pages).Nodup)
    (hsize : size ≤ pgSize - headerSize) :
    (kmallocAnswer size (page :: pages) chunks).IsRefuse ↔
      Stuck size chunks := by
  cases chunks with
  | nil =>
      refine iff_of_false (request_offer ?_).2 (by simp [Stuck])
      rw [offers_ofPage, decide_eq_true_eq]
      exact hsize
  | cons c rest =>
      have hnodup₀ : (([] ++ (c :: rest)).map Chunk.base ++ page :: pages).Nodup :=
        hnodup
      exact request_isRefuse hnodup₀ hsize (by simp)

end Requests

section Calls

variable {k : Kernel} {chunks : List Chunk} {pages : List Nat}

theorem HeapReady.nodup (h : HeapReady k chunks pages) :
    (chunks.map Chunk.base ++ availablePages k.kvmlist).Nodup := by
  rw [List.nodup_append]
  refine ⟨h.heap.tiling.bases_nodup,
    (List.nodup_append.mp h.supply.nodup).2.1, ?_⟩
  intro base hbase page hpage heq
  obtain ⟨c, hc, rfl⟩ := List.mem_map.mp hbase
  have hnone := h.supply.outside hpage (x := c.base)
    (mem_pageExtent.mpr (by omega))
  have hout := h.heap.tiling.outside hnone hc
  omega

end Calls

/-- With a page left, a request of at most a page that returns is answered
with a block unless the list is stuck. -/
theorem kmalloc_serves_iff {r₀ r : HeapRun} (hstart : r₀.Initial)
    (hrun : Relation.ReflTransGen HeapStep r₀ r) {chunks : List Chunk}
    (hlist : ChunkList r.kernel.mem r.kernel.kmemList chunks)
    (hpage : ∃ i < nvmBlocks, (r.kernel.kvmlist i).available = true)
    {fuel size addr : Nat} {k' : Kernel} (hsize : size ≤ pgSize - headerSize)
    (hcall : kmalloc fuel r.kernel size = .ok (addr, k')) :
    addr ≠ 0 ↔ ¬ Stuck size chunks := by
  obtain ⟨chunks', hvalid⟩ := HeapRun.valid_of_run hstart hrun
  obtain rfl := hlist.unique hvalid.ready.heap.list
  obtain ⟨i, hi, havail⟩ := hpage
  have hmem : (r.kernel.kvmlist i).address ∈ availablePages r.kernel.kvmlist :=
    mem_availablePages.mpr ⟨i, hi, havail, rfl⟩
  obtain ⟨page, left, hleft⟩ :=
    List.exists_cons_of_ne_nil (List.ne_nil_of_mem hmem)
  have hnodup := hvalid.ready.nodup
  rw [hleft] at hnodup
  rw [← kmallocAnswer_isRefuse hnodup hsize]
  obtain ⟨res, hsettles, hmeets⟩ :=
    kmalloc_settles size hvalid.ready
  have hres : .ok (addr, k') = res :=
    (kmalloc_stable r.kernel size).eq_of_settles hcall (by simp) hsettles
  subst hres
  have hused := kmallocAnswer_used size (availablePages r.kernel.kvmlist) chunks
  rw [hleft] at hmeets hused
  cases hans : kmallocAnswer size (page :: left) chunks with
  | grant chunks' a left' =>
      rw [hans] at hmeets hused
      obtain ⟨k₁, fresh, heq, _⟩ := hmeets
      obtain ⟨c, hpay, _⟩ := hused
      simp only [Except.ok.injEq, Prod.mk.injEq] at heq
      simp only [Chunk.payload, headerSize] at hpay
      refine iff_of_true (by omega) (by simp [Answer.IsRefuse])
  | refuse chunks' left' =>
      rw [hans] at hmeets
      obtain ⟨k₁, fresh, heq, _⟩ := hmeets
      simp only [Except.ok.injEq, Prod.mk.injEq] at heq
      simp [heq.1, Answer.IsRefuse]
  | gap =>
      rw [hans] at hmeets
      cases hmeets
  | noPage =>
      rw [hans] at hmeets
      cases hmeets

/-- Behind two requests and their frees, a request that the free chunks could
serve together. -/
theorem kmalloc_serves_freed : ∃ r fuel addr k',
    Relation.ReflTransGen HeapStep ⟨openKernel, [], []⟩ r ∧
      kmalloc fuel r.kernel 4000 = .ok (addr, k') ∧
        (addr ≠ 0 ↔ ¬ Stuck 4000 twoFreed) := by
  obtain ⟨k, pages, hready, ⟨left, hleft⟩, hrun⟩ := twoFreed_reached
  have hrefuse : kmallocAnswer 4000 (availablePages k.kvmlist) twoFreed =
      .refuse [⟨kernBase, 4080, true⟩, .ofPage (kernBase + pgSize)] left := by
    rw [hleft]
    cases left <;> rfl
  obtain ⟨fuel, k', hcall⟩ := kmalloc_of_refuse hready hrefuse
  have hmem : kernBase + pgSize ∈ availablePages k.kvmlist := by simp [hleft]
  obtain ⟨i, hi, hpage, _⟩ := mem_availablePages.mp hmem
  exact ⟨_, fuel, 0, k', hrun, hcall, kmalloc_serves_iff openKernel_initial hrun
    hready.heap.list ⟨i, hi, hpage⟩ (by decide) hcall⟩

/-- `kmalloc(4080)`, then `kmalloc(1)`: the only chunk is used, so the second
request is refused with a page left. -/
theorem kmalloc_null_with_page :
    ¬ ∀ r₀ r : HeapRun, r₀.Initial → Relation.ReflTransGen HeapStep r₀ r →
      (∃ i < nvmBlocks, (r.kernel.kvmlist i).available = true) →
      ∀ fuel size addr k', 1 ≤ size → size ≤ pgSize - headerSize →
        kmalloc fuel r.kernel size = .ok (addr, k') → addr ≠ 0 := by
  intro hall
  obtain ⟨left, hleft⟩ := openKernel_pages
  have hgrant : kmallocAnswer 4080 (availablePages openKernel.kvmlist) [] =
      .grant [⟨kernBase, 4080, false⟩] (kernBase + 16)
        ((kernBase + pgSize) :: left) := by
    rw [hleft]
    rfl
  obtain ⟨fuel, k', fresh, hcall, havail, hmove⟩ :=
    kmalloc_of_grant openKernel_initial.valid.ready hgrant
  have hrefuse : kmallocAnswer 1 (availablePages k'.kvmlist)
      [⟨kernBase, 4080, false⟩] =
      .refuse [⟨kernBase, 4080, false⟩] ((kernBase + pgSize) :: left) := by
    rw [havail]
    rfl
  obtain ⟨fuel', k'', hnull⟩ := kmalloc_of_refuse hmove.ready hrefuse
  have hmem : kernBase + pgSize ∈ availablePages k'.kvmlist := by simp [havail]
  obtain ⟨i, hi, hpage, _⟩ := mem_availablePages.mp hmem
  exact hall _ _ openKernel_initial (.single (HeapStep.alloc hcall))
    ⟨i, hi, hpage⟩ fuel' 1 0 k'' le_rfl (by decide) hnull rfl

/-- `chunk_split` panics in no call that is split safe, and in every other. -/
theorem kmalloc_splits_iff {r₀ r : HeapRun} (hstart : r₀.Initial)
    (hrun : Relation.ReflTransGen HeapStep r₀ r) {chunks : List Chunk}
    (hlist : ChunkList r.kernel.mem r.kernel.kmemList chunks) (size : Nat) :
    (∀ fuel, kmalloc fuel r.kernel size ≠ .error (.panic .splitTooSmall) ∧
        kmalloc fuel r.kernel size ≠ .error (.panic .splitUsed)) ↔
      SplitSafe size (availablePages r.kernel.kvmlist) chunks := by
  obtain ⟨chunks', hvalid⟩ := HeapRun.valid_of_run hstart hrun
  obtain rfl := hlist.unique hvalid.ready.heap.list
  have hgap := kmallocAnswer_isGap size hvalid.ready.nodup
  obtain ⟨res, hsettles, hmeets⟩ :=
    kmalloc_settles size hvalid.ready
  have hpanic : ∀ why fuel, kmalloc fuel r.kernel size = .error (.panic why) →
      .error (.panic why) = res := fun why fuel hcall =>
    (kmalloc_stable r.kernel size).eq_of_settles hcall (by simp) hsettles
  have hsafe : ∀ {answer}, kmallocAnswer size
      (availablePages r.kernel.kvmlist) chunks = answer → ¬ answer.IsGap →
      res ≠ .error (.panic .splitTooSmall) →
      res ≠ .error (.panic .splitUsed) →
      ((∀ fuel, kmalloc fuel r.kernel size ≠ .error (.panic .splitTooSmall) ∧
        kmalloc fuel r.kernel size ≠ .error (.panic .splitUsed)) ↔
        SplitSafe size (availablePages r.kernel.kvmlist) chunks) := by
    intro answer hans hnot h₁ h₂
    rw [hans] at hgap
    refine iff_of_true (fun fuel => ⟨fun hcall => ?_, fun hcall => ?_⟩)
      (by_contra fun hunsafe => hnot (hgap.mpr hunsafe))
    · exact h₁ (hpanic _ fuel hcall).symm
    · exact h₂ (hpanic _ fuel hcall).symm
  cases hans : kmallocAnswer size (availablePages r.kernel.kvmlist) chunks with
  | grant chunks' a left' =>
      rw [hans] at hmeets
      obtain ⟨k₁, fresh, rfl, _⟩ := hmeets
      exact hsafe hans id (by simp) (by simp)
  | refuse chunks' left' =>
      rw [hans] at hmeets
      obtain ⟨k₁, fresh, rfl, _⟩ := hmeets
      exact hsafe hans id (by simp) (by simp)
  | noPage =>
      rw [hans] at hmeets
      obtain rfl := hmeets
      exact hsafe hans id (by simp) (by simp)
  | gap =>
      rw [hans] at hmeets hgap
      obtain rfl := hmeets
      obtain ⟨bound, hbound⟩ := hsettles
      refine iff_of_false (fun hall => ?_) (hgap.mp trivial)
      exact (hall bound).1 (hbound bound le_rfl)

/-- Behind two requests and their frees, a request that cuts the second free
chunk. -/
theorem kmalloc_splits_freed : ∃ r,
    Relation.ReflTransGen HeapStep ⟨openKernel, [], []⟩ r ∧
      ∀ fuel, kmalloc fuel r.kernel 1000 ≠ .error (.panic .splitTooSmall) ∧
        kmalloc fuel r.kernel 1000 ≠ .error (.panic .splitUsed) := by
  obtain ⟨k, pages, hready, ⟨left, hleft⟩, hrun⟩ := twoFreed_reached
  have hfits : Chunk.Fits ⟨kernBase + 232, 3848, true⟩ 1000 := Or.inr (by decide)
  have hsafe : SplitSafe 1000 (availablePages k.kvmlist) twoFreed := by
    rw [hleft]
    exact hfits
  exact ⟨_, hrun, (kmalloc_splits_iff openKernel_initial hrun hready.heap.list
    1000).mpr hsafe⟩

/-- `kmalloc(4079)` on a fresh heap: the page's 4080 bytes are more than the
request and less than the request and a header. -/
theorem kmalloc_split_panics :
    ¬ ∀ r₀ r : HeapRun, r₀.Initial → Relation.ReflTransGen HeapStep r₀ r →
      ∀ fuel size,
        kmalloc fuel r.kernel size ≠ .error (.panic .splitTooSmall) ∧
          kmalloc fuel r.kernel size ≠ .error (.panic .splitUsed) := by
  intro hall
  obtain ⟨left, hleft⟩ := openKernel_pages
  have hgap : kmallocAnswer 4079 (availablePages openKernel.kvmlist) [] =
      .gap := by
    rw [hleft]
    rfl
  obtain ⟨res, ⟨bound, hbound⟩, hmeets⟩ :=
    kmalloc_settles 4079 openKernel_initial.valid.ready
  rw [hgap] at hmeets
  obtain rfl := hmeets
  exact (hall _ _ openKernel_initial .refl bound 4079).1 (hbound bound le_rfl)

end Linda
