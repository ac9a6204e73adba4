/-
What the two halves of `mmap_do_map` and `mmap_do_unmap` do to a paging state:
one page table entry is written, a table may come to the forest, and the list
of mappings gains or loses a node.
-/
import Linda.MapFrames

namespace Linda

open ByteMemory IntervalCover LinkedSegment FuelLoop

/-- The nodes left when `mmap_do_unmap` has looked for the page: the first
match goes, and with it the rest when it is the first node. -/
def unlinkNodes (m : Memory) (page : Nat) : List Nat → List Nat
  | [] => []
  | n :: rest =>
      if (nodeEntry m n).1 = page then []
      else n :: rest.eraseP fun n => (nodeEntry m n).1 = page

/-- The walk of `mmap_do_unmap` along the list went from `k` to `k'`. -/
structure Unlinked (k : Kernel) (s : Paging) (k' : Kernel)
    (chunks' : List Chunk) (nodes' : List Nat) : Prop where
  paging : PagingAt k' (s.withHeap chunks' s.pages nodes')
  same : SamePages k.mem k'.mem s.fixed
  entries : ∀ n ∈ nodes', nodeEntry k'.mem n = nodeEntry k.mem n
  zeroed : Zeroed k s.chunks → Zeroed k' chunks'
  kvmlist : k'.kvmlist = k.kvmlist
  machine : SameMachine k k'

section Unlink

variable {k : Kernel} {s : Paging} {va last first n : Nat} {pre post : List Nat}

/-- The first node matches: the list is empty afterwards. -/
theorem unlink_first (h : PagingAt k s) (hnodes : s.nodes = n :: post)
    (hpage : (nodeEntry k.mem n).1 = va &&& pgMask) :
    ∃ k' chunks', Runs .spin (unlinkBody va) (k, last, n, 0) (.ok k') ∧
      Unlinked k s k' chunks' [] ∧
      Framed k s k' (s.withHeap chunks' s.pages []) := by
  have hn : n ∈ s.nodes := by simp [hnodes]
  have hdirect := h.node_direct hn
  have hheld := h.list.held n hn
  have hhead := Beside.head h.toPooled 0
  obtain ⟨k', chunks', hfree, hreleased, hbeside⟩ :=
    Beside.release hhead.pooled hheld (nodeBlock_pos n)
  have hstep := hhead.trans (hbeside [])
  have hframed := (Framed.head k s 0).trans
    (.release hn hreleased (List.nil_subset s.nodes))
  obtain ⟨m', hk'⟩ := hreleased.same
  refine ⟨k', chunks', Runs.exit ?_, ?_, hframed⟩
  · have hload := loadWord_direct (hdirect.first (by omega)) k
    have hpos : n ≠ 0 := hdirect.ne_zero
    have hmatch : load32 k.mem n &&& pgMask = va &&& pgMask := hpage
    have hbody : ∀ fuel, unlinkBody va fuel (k, last, n, 0) = (do
        let k ← kmfree fuel { k with mmaplist := 0 } n
        .ok (.inr k)) := by
      intro fuel
      simp only [unlinkBody, hpos, ↓reduceIte, hload, Bind.bind, Except.bind,
        hmatch, ne_eq, not_true_eq_false]
    simp only [hbody]
    exact Settles.bind hfree (settles_const _)
  · refine ⟨hstep.paging h.forest ?_, hstep.same, by simp, hstep.zeroed, ?_,
      hstep.machine⟩
    · refine ⟨?_, by simp [Paging.withHeap], by simp [Paging.withHeap],
        List.nodup_nil⟩
      rw [hk']
      rfl
    · rw [hk']
      rfl

theorem relink_outside (m : Memory) (next : Nat) {x : Nat}
    (hx : x ∉ (nodeBlock last).bytes) : store32 m (last + 12) next x = m x := by
  rw [mem_nodeBlock] at hx
  exact store32_of_outside _ _ (by omega)

theorem PagingAt.relink_other (h : PagingAt k s) (hlast : last ∈ s.nodes)
    (hn : n ∈ s.nodes) (hne : n ≠ last) (m : Memory) (next : Nat) :
    SameNode m (store32 m (last + 12) next) n := fun _ hx =>
  relink_outside m next (h.node_disjoint hn hlast hne hx)

/-- Where a node is linked to matters to no other field of any node. -/
theorem PagingAt.relink (h : PagingAt k s) (hlast : last ∈ s.nodes)
    (hn : n ∈ s.nodes) (m : Memory) (next : Nat) :
    nodeEntry (store32 m (last + 12) next) n = nodeEntry m n ∧
      store32 m (last + 12) next (n + 8) = m (n + 8) := by
  by_cases hnl : n = last
  · subst hnl
    refine ⟨?_, store32_of_outside _ _ (by omega)⟩
    rw [nodeEntry, nodeEntry, load32_store32_of_disjoint _ _ (by omega),
      load32_store32_of_disjoint _ _ (by omega)]
  · have hsame := h.relink_other hlast hn hnl m next
    exact ⟨hsame.entry, hsame.inUse⟩

theorem unlinkBody_inner (h : PagingAt k s) (hlast : last ∈ s.nodes)
    (hn : n ∈ s.nodes) (hpage : (nodeEntry k.mem n).1 = va &&& pgMask)
    (hfirst : first ≠ 0) (fuel : Nat) :
    unlinkBody va fuel (k, last, n, first) = (do
      let k ← kmfree fuel
        (k.setMem (store32 k.mem (last + 12) (nodeNext k.mem n))) n
      .ok (.inr k)) := by
  have hdirect := h.node_direct hn
  have hload := loadWord_direct (hdirect.first (by omega)) k
  have hnext := loadWord_direct (hdirect.word 12 (by omega)) k
  have hstore := storeWord_direct ((h.node_direct hlast).word 12 (by omega)) k
  have hpos : n ≠ 0 := hdirect.ne_zero
  have hmatch : load32 k.mem n &&& pgMask = va &&& pgMask := hpage
  simp only [unlinkBody, hpos, ↓reduceIte, hload, Bind.bind, Except.bind,
    hmatch, ne_eq, hfirst, not_false_eq_true, hnext, hstore]
  rfl

/-- A later node matches: the node in front of it is linked past it. -/
theorem unlink_inner (h : PagingAt k s)
    (hnodes : s.nodes = pre ++ last :: n :: post)
    (hpage : (nodeEntry k.mem n).1 = va &&& pgMask) (hfirst : first ≠ 0) :
    ∃ k' chunks', Runs .spin (unlinkBody va) (k, last, n, first) (.ok k') ∧
      Unlinked k s k' chunks' (pre ++ last :: post) ∧
      Framed k s k' (s.withHeap chunks' s.pages (pre ++ last :: post)) := by
  have hn : n ∈ s.nodes := by simp [hnodes]
  have hlast : last ∈ s.nodes := by simp [hnodes]
  have hnodup := h.list.nodup
  rw [hnodes] at hnodup
  have hmiddle : (n :: (pre ++ last :: post)).Nodup := by
    rw [List.append_cons] at hnodup ⊢
    exact List.nodup_middle.mp hnodup
  obtain ⟨hnout, hrest⟩ := List.nodup_cons.mp hmiddle
  have hlastout : last ∉ pre ++ post :=
    (List.nodup_cons.mp (List.nodup_middle.mp hrest)).1
  have hin : ∀ c ∈ pre ++ last :: post, c ∈ s.nodes := by
    intro c hc
    simp only [hnodes, List.mem_append, List.mem_cons] at hc ⊢
    tauto
  -- the link of `last`, then the block of `n`
  have hwrite := Beside.write h.toPooled (h.list.held last hlast)
    fun x => relink_outside k.mem (nodeNext k.mem n)
  obtain ⟨k', chunks', hfree, hreleased, hbeside⟩ :=
    Beside.release hwrite.pooled (h.list.held n hn) (nodeBlock_pos n)
  have hstep := hwrite.trans (hbeside (pre ++ last :: post))
  have hframed := (Framed.write h.toPooled hlast (h.list.held last hlast)
    fun x => relink_outside k.mem (nodeNext k.mem n)).trans
      (.release hn hreleased hin)
  obtain ⟨m', rfl⟩ := hreleased.same
  have hkeep : ∀ c ∈ pre ++ last :: post, Held chunks' (nodeBlock c) ∧
      SameNode (store32 k.mem (last + 12) (nodeNext k.mem n)) m' c := by
    intro c hc
    refine hreleased.others _ (h.list.held c (hin c hc)) fun heq => ?_
    have hcn : c = n := congrArg Block.addr heq
    exact hnout (hcn ▸ hc)
  have hlink : nodeNext m' last = nodeNext k.mem n := by
    rw [(hkeep last (by simp)).2.next, nodeNext, load32_store32_same]
    exact Nat.mod_eq_of_lt (load32_lt _ _)
  have hothers : ∀ c ∈ pre ++ post, nodeNext m' c = nodeNext k.mem c := by
    intro c hc
    have hc' : c ∈ pre ++ last :: post := by
      simp only [List.mem_append, List.mem_cons] at hc ⊢
      tauto
    have hcl : c ≠ last := fun heq => hlastout (heq ▸ hc)
    rw [(hkeep c hc').2.next]
    exact (h.relink_other hlast (hin c hc') hcl _ _).next
  refine ⟨(k.setMem (store32 k.mem (last + 12) (nodeNext k.mem n))).setMem m',
    chunks', Runs.exit ?_, ?_, hframed⟩
  · simp only [unlinkBody_inner h hlast hn hpage hfirst]
    exact Settles.bind hfree (settles_const _)
  · refine ⟨hstep.paging h.forest ⟨?_, fun c hc => (hkeep c hc).1, ?_, hrest⟩,
      hstep.same, ?_, hstep.zeroed, rfl, hstep.machine⟩
    · have hlinked := h.list.linked
      rw [hnodes] at hlinked
      exact hlinked.unlink hlink
        (fun c hc => hothers c (List.mem_append_left _ hc))
        (fun c hc => hothers c (List.mem_append_right _ hc))
    · intro c hc
      have huse := (h.relink hlast (hin c hc) k.mem (nodeNext k.mem n)).2
      rw [Kernel.setMem_mem, (hkeep c hc).2.inUse, huse]
      exact h.list.inUse c (hin c hc)
    · intro c hc
      have hentry := (h.relink hlast (hin c hc) k.mem (nodeNext k.mem n)).1
      rw [Kernel.setMem_mem, (hkeep c hc).2.entry, hentry]

theorem unlinkBody_pass (h : PagingAt k s) (hnodes : s.nodes = pre ++ n :: post)
    (hpage : (nodeEntry k.mem n).1 ≠ va &&& pgMask) (fuel : Nat) :
    unlinkBody va fuel (k, last, n, first) =
      .ok (.inl (k, n, post.headD 0, first + 1)) := by
  have hn : n ∈ s.nodes := by simp [hnodes]
  have hdirect := h.node_direct hn
  have hload := loadWord_direct (hdirect.first (by omega)) k
  have hnext := loadWord_direct (hdirect.word 12 (by omega)) k
  have hlist := h.list
  rw [hnodes] at hlist
  have hlink : load32 k.mem (n + 12) = post.headD 0 := hlist.next_eq
  have hpos : n ≠ 0 := hdirect.ne_zero
  have hmatch : load32 k.mem n &&& pgMask ≠ va &&& pgMask := hpage
  simp only [unlinkBody, hpos, ↓reduceIte, hload, Bind.bind, Except.bind,
    hmatch, hnext, hlink]

/-- The walk from a node behind `last` on. -/
theorem unlink_rest (h : PagingAt k s) (suf : List Nat)
    (hnodes : s.nodes = pre ++ last :: suf) (hfirst : first ≠ 0) :
    ∃ k' chunks',
      Runs .spin (unlinkBody va) (k, last, suf.headD 0, first) (.ok k') ∧
      Unlinked k s k' chunks' (pre ++ last ::
        suf.eraseP fun n => (nodeEntry k.mem n).1 = va &&& pgMask) ∧
      Framed k s k' (s.withHeap chunks' s.pages (pre ++ last ::
        suf.eraseP fun n => (nodeEntry k.mem n).1 = va &&& pgMask)) := by
  induction suf generalizing pre last first with
  | nil =>
      refine ⟨k, s.chunks, Runs.exit (settles_const _), ?_⟩
      rw [List.eraseP_nil, ← hnodes]
      exact ⟨⟨h, .refl _ _, fun _ _ => rfl, fun hz => hz, rfl, .refl k⟩,
        .refl k s⟩
  | cons n post ih =>
      by_cases hpage : (nodeEntry k.mem n).1 = va &&& pgMask
      · rw [List.eraseP_cons_of_pos (by simpa using hpage)]
        exact unlink_inner h hnodes hpage hfirst
      · rw [List.eraseP_cons_of_neg (by simpa using hpage)]
        have hnodes' : s.nodes = (pre ++ [last]) ++ n :: post := by
          simpa using hnodes
        obtain ⟨k', chunks', hrun, hunlinked⟩ :=
          ih hnodes' (show first + 1 ≠ 0 by omega)
        refine ⟨k', chunks', Runs.next ?_ hrun, by simpa using hunlinked⟩
        simp only [List.headD_cons, unlinkBody_pass h hnodes' hpage]
        exact settles_const _

/-- The whole walk of `mmap_do_unmap`. -/
theorem unlink_settles (h : PagingAt k s) (va : Nat) :
    ∃ k' chunks',
      Settles (fun fuel => loop .spin (unlinkBody va fuel) fuel
        (k, k.mmaplist, k.mmaplist, 0)) (.ok k') ∧
      Unlinked k s k' chunks'
        (unlinkNodes k.mem (va &&& pgMask) s.nodes) ∧
      Framed k s k' (s.withHeap chunks' s.pages
        (unlinkNodes k.mem (va &&& pgMask) s.nodes)) := by
  rw [h.list.head_eq]
  cases hnodes : s.nodes with
  | nil =>
      refine ⟨k, s.chunks, Runs.settles (Runs.exit (settles_const _)), ?_⟩
      rw [unlinkNodes, ← hnodes]
      exact ⟨⟨h, .refl _ _, fun _ _ => rfl, fun hz => hz, rfl, .refl k⟩,
        .refl k s⟩
  | cons n post =>
      rw [List.headD_cons, unlinkNodes]
      split_ifs with hpage
      · obtain ⟨k', chunks', hrun, hunlinked⟩ :=
          unlink_first h hnodes hpage
        exact ⟨k', chunks', hrun.settles, hunlinked⟩
      · have hnodes' : s.nodes = [] ++ n :: post := hnodes
        obtain ⟨k', chunks', hrun, hunlinked⟩ :=
          unlink_rest h post hnodes' (show 0 + 1 ≠ 0 by omega)
        refine ⟨k', chunks', Runs.settles (Runs.next ?_ hrun), hunlinked⟩
        simp only [unlinkBody_pass h hnodes' hpage]
        exact settles_const _

end Unlink

section Entries

variable {k : Kernel} {s : Paging} {d t j va pa flags : Nat}

/-- Writing an entry of a table in use. -/
theorem PagingAt.setPte (h : PagingAt k s) (ht : t ∈ s.tables) (hj : j < 1024)
    (v : Nat) :
    PagingAt (k.setMem (setEntry k.mem t j v)) s ∧
      (Zeroed k s.chunks → Zeroed (k.setMem (setEntry k.mem t j v)) s.chunks) ∧
      ∀ n ∈ s.nodes, SameNode k.mem (setEntry k.mem t j v) n := by
  have hsame : SamePages k.mem (setEntry k.mem t j v)
      (s.pages ++ availablePages k.kvmlist) :=
    .setEntry (h.table_page ht) hj (h.pool.other (List.mem_append_right _ ht))
  have hheap : SamePages k.mem (setEntry k.mem t j v) s.pages :=
    fun page hpage => hsame page (List.mem_append_left _ hpage)
  have hnodes := h.list.sameNode h.heap.tiling hheap
  refine ⟨⟨⟨h.heap.congr_pages hheap, h.pool⟩, h.forest.setPte h.pool ht hj,
    h.list.congr hnodes⟩, fun hz => ?_, hnodes⟩
  refine ⟨hz.1.congr_pages h.heap.tiling hheap, fun page hpage x hx => ?_⟩
  rw [Kernel.setMem_mem, hsame page (List.mem_append_right _ hpage) x hx]
  exact hz.2 page hpage x hx

/-- An entry of a directory or a table lies in its page. -/
theorem PagingAt.setEntry_framed (h : PagingAt k s) (ht : t ∈ s.fixed)
    (hj : j < 1024) (v : Nat) :
    Framed k s (k.setMem (setEntry k.mem t j v)) s := by
  refine Framed.fixed h.toPooled ht fun x hx => store32_of_outside _ _ ?_
  rw [pageExtent_iff] at hx
  omega

theorem PagingAt.setPte_framed (h : PagingAt k s) (ht : t ∈ s.tables)
    (hj : j < 1024) (v : Nat) :
    Framed k s (k.setMem (setEntry k.mem t j v)) s :=
  h.setEntry_framed (List.mem_append_right _ ht) hj v

/-- A new table below entry `i` of a directory. -/
theorem PagingAt.addTable {i pde page : Nat} {kvmlist' : Nat → VmBlock}
    (h : PagingAt k s) (hd : d ∈ s.roots) (hi : i < 1024)
    (havail : availablePages k.kvmlist = page :: availablePages kvmlist')
    (hpde : tableOf pde = page) (hlt : pde < 4294967296) :
    let m' := setEntry (fill k.mem page 4096 0) d i pde
    let k' := (k.setKvmlist kvmlist').setMem m'
    PagingAt k' { s with tables := page :: s.tables } ∧
      (Zeroed k s.chunks → Zeroed k' s.chunks) ∧
      ∀ n ∈ s.nodes, SameNode k.mem m' n := by
  intro m' k'
  have hpool := h.pool
  rw [havail] at hpool
  have hpage := hpool.fresh_page List.mem_cons_self
  have htaken : PagePool (s.roots ++ page :: s.tables) s.pages
      (availablePages kvmlist') := hpool.take.perm List.perm_middle.symm
  have hsame : SamePages k.mem m' (s.pages ++ availablePages kvmlist') := by
    have hfill : SamePages k.mem (fill k.mem page 4096 0)
        (s.pages ++ availablePages kvmlist') :=
      .fill hpage (htaken.other (by simp))
    exact hfill.trans (.setEntry (h.root_page hd) hi
      (htaken.other (List.mem_append_left _ hd)))
  have hheap : SamePages k.mem m' s.pages :=
    fun q hq => hsame q (List.mem_append_left _ hq)
  have hnodes := h.list.sameNode h.heap.tiling hheap
  refine ⟨⟨⟨h.heap.congr_pages hheap, htaken⟩,
    h.forest.addTable hpool hd hi hpde hlt, h.list.congr hnodes⟩,
    fun hz => ?_, hnodes⟩
  obtain ⟨hfree, hfresh⟩ := hz
  rw [havail] at hfresh
  refine ⟨hfree.congr_pages h.heap.tiling hheap, fun q hq x hx => ?_⟩
  have hq' : q ∈ availablePages kvmlist' := hq
  rw [Kernel.setMem_mem, hsame q (List.mem_append_right _ hq') x hx]
  exact hfresh q (List.mem_cons_of_mem _ hq') x hx

theorem loadWord_pde (h : PagingAt k s) (hd : d ∈ s.roots) (va : Nat) :
    loadWord k (d + 4 * pdx va) = .ok (entry k.mem d (pdx va)) :=
  loadWord_direct ((h.root_page hd).direct (pdx_lt va)) k

/-- The table the code finds below a directory entry. -/
theorem PagingAt.table_pointer (h : PagingAt k s) (hd : d ∈ s.roots)
    (hne : entry k.mem d (pdx va) ≠ 0) :
    entry k.mem d (pdx va) &&& pgMask ≠ 0 ∧
      p2v (entry k.mem d (pdx va) &&& pgMask) =
        tableOf (entry k.mem d (pdx va)) ∧
      tableOf (entry k.mem d (pdx va)) ∈ s.tables := by
  have htable := h.forest.table hd (pdx_lt va) hne
  obtain ⟨_, hlo, hhi⟩ := (h.table_page htable).bounds
  refine ⟨fun hzero => hne ?_, ?_, htable⟩
  · exact (h.forest.mask_eq_zero_iff h.pool hd (pdx_lt va)).mp hzero
  · rw [p2v, tableOf, Nat.add_comm]
    exact u32_of_lt (by rw [tableOf] at hhi; omega)

/-- `mmap_do_unmap` of a page whose directory entry is empty. -/
theorem mmapDoUnmap_empty (h : PagingAt k s) (hd : d ∈ s.roots)
    (hzero : entry k.mem d (pdx va) = 0) (fuel : Nat) :
    mmapDoUnmap fuel k d va = .ok k := by
  simp [mmapDoUnmap, loadWord_pde h hd va, hzero, Bind.bind, Except.bind]

/-- Otherwise it clears the page table entry and walks the list. -/
theorem mmapDoUnmap_settles (h : PagingAt k s) (hd : d ∈ s.roots)
    (hne : entry k.mem d (pdx va) ≠ 0) :
    let k₁ := k.setMem
      (setEntry k.mem (tableOf (entry k.mem d (pdx va))) (ptx va) 0)
    PagingAt k₁ s ∧ (Zeroed k s.chunks → Zeroed k₁ s.chunks) ∧
    (∀ n ∈ s.nodes, SameNode k.mem k₁.mem n) ∧
    ∃ k' chunks', Settles (fun fuel => mmapDoUnmap fuel k d va) (.ok k') ∧
      Unlinked k₁ s k' chunks'
        (unlinkNodes k₁.mem (va &&& pgMask) s.nodes) ∧
      Framed k s k' (s.withHeap chunks' s.pages
        (unlinkNodes k₁.mem (va &&& pgMask) s.nodes)) := by
  intro k₁
  obtain ⟨hmask, hpointer, htable⟩ := h.table_pointer hd hne
  obtain ⟨hpaging, hzeroed, hnodes⟩ := h.setPte htable (ptx_lt va) 0
  obtain ⟨k', chunks', hwalk, hunlinked, hframed⟩ := unlink_settles hpaging va
  have hwrite : Framed k s k₁ s := h.setPte_framed htable (ptx_lt va) 0
  refine ⟨hpaging, hzeroed, hnodes, k', chunks', ?_, hunlinked,
    hwrite.trans hframed⟩
  have hstore : storeWord k (tableOf (entry k.mem d (pdx va)) + 4 * ptx va) 0 =
      .ok k₁ :=
    storeWord_direct ((h.table_page htable).direct (ptx_lt va)) k 0
  have hcall : ∀ fuel, mmapDoUnmap fuel k d va =
      loop .spin (unlinkBody va fuel) fuel
        (k₁, k₁.mmaplist, k₁.mmaplist, 0) := by
    intro fuel
    rw [mmapDoUnmap, loadWord_pde h hd va]
    change (if _ then _ else _) = _
    rw [if_neg hmask, hpointer, hstore]
    rfl
  simp only [hcall]
  exact hwalk

/-- Mapping below a table that is there. -/
theorem mapEntry_old (h : PagingAt k s) (hd : d ∈ s.roots)
    (hne : entry k.mem d (pdx va) ≠ 0) :
    mapEntry k d va pa flags = .ok (k.setMem
      (setEntry k.mem (tableOf (entry k.mem d (pdx va))) (ptx va)
        (pteWord pa flags))) := by
  obtain ⟨hmask, hpointer, htable⟩ := h.table_pointer hd hne
  have hstore := storeWord_direct
    ((h.table_page htable).direct (ptx_lt va)) k (pteWord pa flags)
  simp only [mapEntry, loadWord_pde h hd va, Bind.bind, Except.bind, hmask,
    ↓reduceIte, hpointer, hstore]
  rfl

/-- Mapping below a table that `kvm_alloc_page` provides, or not. -/
theorem mapEntry_new (h : PagingAt k s) (hd : d ∈ s.roots)
    (hzero : entry k.mem d (pdx va) = 0) :
    (availablePages k.kvmlist = [] ∧
        mapEntry k d va pa flags = .error (.panic .noMappedPage)) ∨
      ∃ page kvmlist',
        availablePages k.kvmlist = page :: availablePages kvmlist' ∧
        SameMapped k.kvmlist kvmlist' ∧
        mapEntry k d va pa flags = .ok ((k.setKvmlist kvmlist').setMem
          (setEntry (setEntry (fill k.mem page 4096 0) d (pdx va)
            (pteWord (v2p page) flags)) page (ptx va) (pteWord pa flags))) := by
  have hload := loadWord_pde h hd va
  rcases kvmAllocPage_spec k with ⟨hnone, halloc⟩ |
      ⟨page, kvmlist', halloc, havail, hmapped⟩
  · refine Or.inl ⟨hnone, ?_⟩
    simp [mapEntry, hload, hzero, halloc, Bind.bind, Except.bind]
  · have hpool := h.pool
    rw [havail] at hpool
    have hpage := hpool.fresh_page List.mem_cons_self
    have hfill : memset k.mem page 0 pgSize = fill k.mem page 4096 0 := by
      rw [memset_eq_fill, pgSize]
    have hpde := storeWord_direct ((h.root_page hd).direct (pdx_lt va))
    have hpte := storeWord_direct (hpage.direct (ptx_lt va))
    refine Or.inr ⟨page, kvmlist', havail, hmapped, ?_⟩
    simp only [mapEntry, hload, hzero, halloc, Bind.bind, Except.bind,
      Nat.zero_and, ↓reduceIte, Kernel.setKvmlist_mem, hfill, hpde, hpte,
      Kernel.setMem_mem, Kernel.setMem_setMem, setEntry]

end Entries

section Record

variable {k : Kernel} {s : Paging} {va pa map : Nat}

/-- The memory after the fields of a node were filled. -/
def filledMemory (m : Memory) (map va pa : Nat) : Memory :=
  store8 (store32 (store32 m map va) (map + 4) pa) (map + 8) 1

theorem fillBlock_direct (h : Direct map 16) (k : Kernel) (va pa : Nat) :
    fillBlock k map va pa = .ok (k.setMem (filledMemory k.mem map va pa)) := by
  have hvirt := storeWord_direct (h.first (by omega))
  have hphys := storeWord_direct (h.word 4 (by omega))
  have huse := storeByte_direct (h.byte 8 (by omega))
  simp only [fillBlock, hvirt, hphys, huse, Bind.bind, Except.bind,
    Kernel.setMem_mem, Kernel.setMem_setMem, filledMemory]

theorem filledMemory_outside {m : Memory} {x : Nat}
    (hx : x ∉ (nodeBlock map).bytes) : filledMemory m map va pa x = m x := by
  rw [mem_nodeBlock] at hx
  simp (disch := omega) only [filledMemory, store8_of_ne, store32_of_outside]

theorem filledMemory_next (m : Memory) :
    nodeNext (filledMemory m map va pa) map = nodeNext m map := by
  simp (disch := omega) only [nodeNext, filledMemory,
    load32_store8_of_disjoint, load32_store32_of_disjoint]

theorem mod_and_pgMask (a : Nat) : a % 4294967296 &&& pgMask = a &&& pgMask := by
  rw [and_pgMask_eq, and_pgMask_eq]
  omega

theorem filledMemory_entry (m : Memory) :
    nodeEntry (filledMemory m map va pa) map = (va &&& pgMask, pa &&& pgMask) := by
  have hvirt : load32 (filledMemory m map va pa) map = va % 4294967296 := by
    simp (disch := omega) only [filledMemory, load32_store8_of_disjoint,
      load32_store32_of_disjoint, load32_store32_same]
  have hphys : load32 (filledMemory m map va pa) (map + 4) =
      pa % 4294967296 := by
    simp (disch := omega) only [filledMemory, load32_store8_of_disjoint,
      load32_store32_same]
  rw [nodeEntry, hvirt, hphys, mod_and_pgMask, mod_and_pgMask]

theorem filledMemory_inUse (m : Memory) :
    filledMemory m map va pa (map + 8) ≠ 0 := by
  rw [filledMemory, store8_same]
  decide

theorem findUnusedBody_pass {pre suf : List Nat} {n : Nat} (h : PagingAt k s)
    (hnodes : s.nodes = pre ++ n :: suf) (last : Nat) :
    findUnusedBody k (last, n) = .ok (.inl (n, suf.headD 0)) := by
  have hn : n ∈ s.nodes := by simp [hnodes]
  have hdirect := h.node_direct hn
  have huse := loadByte_direct (hdirect.byte 8 (by omega)) k
  have hnext := loadWord_direct (hdirect.word 12 (by omega)) k
  have hlist := h.list
  rw [hnodes] at hlist
  have hlink : load32 k.mem (n + 12) = suf.headD 0 := hlist.next_eq
  simp only [findUnusedBody, hdirect.ne_zero, ↓reduceIte, huse, Bind.bind,
    Except.bind, ne_eq, h.list.inUse n hn, not_false_eq_true, hnext, hlink]

/-- The search for an unused node ends behind the last one: every node of the
list is in use. -/
theorem findUnused_runs (h : PagingAt k s) {pre : List Nat} {n last : Nat}
    (suf : List Nat) (hnodes : s.nodes = pre ++ n :: suf) :
    Runs .spin (fun _ => findUnusedBody k) (last, n)
      (.ok ((n :: suf).getLast (List.cons_ne_nil n suf), 0)) := by
  induction suf generalizing pre n last with
  | nil =>
      have hpass := findUnusedBody_pass h hnodes last
      refine Runs.next ?_ (Runs.exit (s := (n, 0)) ?_)
      · simp only [hpass]
        exact settles_const _
      · simp only [findUnusedBody]
        exact settles_const _
  | cons n' suf ih =>
      have hpass := findUnusedBody_pass h hnodes last
      have hnodes' : s.nodes = (pre ++ [n]) ++ n' :: suf := by
        simpa using hnodes
      have hrest : Runs .spin (fun _ => findUnusedBody k) (n, n') _ :=
        ih hnodes'
      rw [List.getLast_cons (List.cons_ne_nil n' suf)]
      refine Runs.next ?_ hrest
      simp only [hpass]
      exact settles_const _

/-- The search of a list that is not empty ends behind its last node. -/
theorem findUnused_settles (h : PagingAt k s) {pre : List Nat} {last : Nat}
    (hnodes : s.nodes = pre ++ [last]) :
    k.mmaplist ≠ 0 ∧ Settles (fun fuel => loop .spin (findUnusedBody k) fuel
      (0, k.mmaplist)) (.ok (last, 0)) := by
  have hhead := h.list.head_eq
  cases pre with
  | nil =>
      rw [hnodes] at hhead
      have hlast : last ∈ s.nodes := by simp [hnodes]
      have hnil : s.nodes = [] ++ last :: [] := hnodes
      rw [hhead]
      exact ⟨h.list.linked.ne_null hlast, (findUnused_runs h [] hnil).settles⟩
  | cons n pre =>
      rw [hnodes] at hhead
      have hn : n ∈ s.nodes := by simp [hnodes]
      have hcons : s.nodes = [] ++ n :: (pre ++ [last]) := hnodes
      have hruns : Runs .spin (fun _ => findUnusedBody k) (0, n) _ :=
        findUnused_runs h (pre ++ [last]) hcons
      rw [hhead]
      exact ⟨h.list.linked.ne_null hn, by simpa using hruns.settles⟩

/-- The call on an empty list, whatever `kmalloc` answers. -/
theorem recordMap_empty (h : PagingAt k s) (hnodes : s.nodes = [])
    {r : Except Halt (Nat × Kernel)}
    (hcall : Settles (fun fuel => kmalloc fuel k mmapBlockSize) r)
    (va pa : Nat) :
    Settles (fun fuel => recordMap fuel k va pa) (do
      let (map, k) ← r
      let k ← fillBlock k map (va &&& pgMask) (pa &&& pgMask)
      .ok { k with mmaplist := map }) := by
  have hhead : k.mmaplist = 0 := by
    rw [h.list.head_eq, hnodes, List.headD_nil]
  simp only [recordMap, if_pos hhead]
  exact hcall.bind_const _

/-- And on one that ends in `last`. -/
theorem recordMap_append (h : PagingAt k s) {pre : List Nat} {last : Nat}
    (hnodes : s.nodes = pre ++ [last]) {r : Except Halt (Nat × Kernel)}
    (hcall : Settles (fun fuel => kmalloc fuel k mmapBlockSize) r)
    (va pa : Nat) :
    Settles (fun fuel => recordMap fuel k va pa) (do
      let (map, k) ← r
      let k ← fillBlock k map va pa
      storeWord k (last + 12) map) := by
  obtain ⟨hhead, hfind⟩ := findUnused_settles h hnodes
  simp only [recordMap, if_neg hhead]
  apply Settles.bind hfind
  simp only [ne_eq, not_true_eq_false, ↓reduceIte]
  exact hcall.bind_const _

/-- The mapping of the page of `va` entered the list as the node `map`. -/
structure Recorded (k : Kernel) (s : Paging) (va pa : Nat) (k' : Kernel)
    (chunks' : List Chunk) (pages' : List Nat) (map : Nat) : Prop where
  paging : PagingAt k' (s.withHeap chunks' pages' (s.nodes ++ [map]))
  same : SamePages k.mem k'.mem s.fixed
  entries : ∀ n ∈ s.nodes, nodeEntry k'.mem n = nodeEntry k.mem n
  entry : nodeEntry k'.mem map = (va &&& pgMask, pa &&& pgMask)
  zeroed : Zeroed k s.chunks → Zeroed k' chunks'
  machine : SameMachine k k'

theorem and_pgMask_self (a : Nat) : a &&& pgMask &&& pgMask = a &&& pgMask := by
  rw [Nat.and_assoc, Nat.and_self]

/-- The first node of the list. -/
theorem recordMap_first (h : PagingAt k s) (hnodes : s.nodes = [])
    {k₁ : Kernel}
    (hcall : Settles (fun fuel => kmalloc fuel k mmapBlockSize) (.ok (map, k₁)))
    (hne : map ≠ 0) (va pa : Nat) :
    ∃ k' chunks' pages',
      Settles (fun fuel => recordMap fuel k va pa) (.ok k') ∧
        nodeNext k'.mem map = nodeNext k₁.mem map ∧
        (nodeNext k₁.mem map = 0 →
          Recorded k s va pa k' chunks' pages' map ∧
            Framed k s k' (s.withHeap chunks' pages' (s.nodes ++ [map]))) := by
  obtain ⟨chunks', fresh, hmove, hgrant, hbeside⟩ :=
    Beside.alloc h.toPooled hcall hne
  have halloc := hbeside [map]
  have hdirect : Direct map 16 := halloc.pooled.block_direct hgrant.held
  let m' := filledMemory k₁.mem map (va &&& pgMask) (pa &&& pgMask)
  have hout : ∀ x, x ∉ (nodeBlock map).bytes → m' x = k₁.mem x := fun x hx =>
    filledMemory_outside hx
  have hwrite := Beside.write halloc.pooled hgrant.held hout
  have hstep := (halloc.trans hwrite).trans (Beside.head hwrite.pooled map)
  have hnew : [map] ⊆ map :: s.nodes := by simp
  have hframed := (Framed.alloc h.toPooled hmove hgrant hnew).trans
    ((Framed.write halloc.pooled (List.mem_singleton_self map) hgrant.held
      hout).trans (.head _ _ map))
  refine ⟨{ k₁.setMem m' with mmaplist := map }, chunks', s.pages ++ fresh, ?_,
    filledMemory_next k₁.mem, fun hblank =>
      ⟨⟨?_, hstep.same, ?_, ?_, hstep.zeroed, hstep.machine⟩, ?_⟩⟩
  · have hrecord := recordMap_empty h hnodes hcall va pa
    simp only [Bind.bind, Except.bind, fillBlock_direct hdirect] at hrecord
    exact hrecord
  · rw [hnodes, List.nil_append]
    refine hstep.paging h.forest ⟨⟨rfl, hne, ?_⟩, ?_, ?_, by simp [Paging.withHeap]⟩
    · exact (filledMemory_next k₁.mem).trans hblank
    · intro n hn
      obtain rfl := List.mem_singleton.mp hn
      exact hgrant.held
    · intro n hn
      obtain rfl := List.mem_singleton.mp hn
      exact filledMemory_inUse k₁.mem
  · simp [hnodes]
  · have hentry : nodeEntry m' map = _ := filledMemory_entry k₁.mem
    rw [and_pgMask_self, and_pgMask_self] at hentry
    exact hentry
  · rw [hnodes, List.nil_append]
    exact hframed

/-- A node of the list when `kmalloc` has handed out the block `map`. -/
structure OldNode (k : Kernel) (k₁ : Kernel) (chunks' : List Chunk)
    (map n : Nat) : Prop where
  held : Held chunks' (nodeBlock n)
  ne : n ≠ map
  kept : SameNode k.mem k₁.mem n
  apart : ∀ x ∈ (nodeBlock n).bytes, x ∉ (nodeBlock map).bytes

theorem Granted.old_node {k₁ : Kernel} {s₁ : Paging} {fresh : List Nat}
    (hgrant : Granted k s.chunks (nodeBlock map) k₁ s₁.chunks fresh)
    (h : PagingAt k s) (halloc : Pooled k₁ s₁)
    (hmove : HeapMove k s.chunks s.pages k₁ s₁.chunks fresh) (n : Nat)
    (hn : n ∈ s.nodes) : OldNode k k₁ s₁.chunks map n := by
  obtain ⟨hheld, hnew⟩ := hgrant.others _ (h.list.held n hn)
  have hne : n ≠ map := fun heq => hnew (congrArg nodeBlock heq)
  refine ⟨hheld, hne, fun x hx => ?_, ?_⟩
  · exact hmove.held_kept h.ready (h.list.held n hn) hx
  · exact halloc.heap.tiling.held_disjoint hheld hgrant.held hnew

/-- A node behind the last one. -/
theorem recordMap_later (h : PagingAt k s) {pre : List Nat} {last : Nat}
    (hnodes : s.nodes = pre ++ [last]) {k₁ : Kernel}
    (hcall : Settles (fun fuel => kmalloc fuel k mmapBlockSize) (.ok (map, k₁)))
    (hne : map ≠ 0) (va pa : Nat) :
    ∃ k' chunks' pages',
      Settles (fun fuel => recordMap fuel k va pa) (.ok k') ∧
        nodeNext k'.mem map = nodeNext k₁.mem map ∧
        (nodeNext k₁.mem map = 0 →
          Recorded k s va pa k' chunks' pages' map ∧
            Framed k s k' (s.withHeap chunks' pages' (s.nodes ++ [map]))) := by
  obtain ⟨chunks', fresh, hmove, hgrant, hbeside⟩ :=
    Beside.alloc h.toPooled hcall hne
  have halloc := hbeside (s.nodes ++ [map])
  have hlast : last ∈ s.nodes := by simp [hnodes]
  have hblock : Held chunks' (nodeBlock map) := hgrant.held
  have hdirect : Direct map 16 := halloc.pooled.block_direct hblock
  have hold := hgrant.old_node h halloc.pooled hmove
  let m₂ := filledMemory k₁.mem map va pa
  let m₃ := store32 m₂ (last + 12) map
  have hm₂ : ∀ x, x ∉ (nodeBlock map).bytes → m₂ x = k₁.mem x := fun x hx =>
    filledMemory_outside hx
  have hm₃ : ∀ x, x ∉ (nodeBlock last).bytes → m₃ x = m₂ x := fun x =>
    relink_outside m₂ map
  have hfirst := Beside.write halloc.pooled hblock hm₂
  have hsecond := Beside.write hfirst.pooled (hold last hlast).held hm₃
  have hstep := (halloc.trans hfirst).trans hsecond
  have hnew : s.nodes ++ [map] ⊆ map :: s.nodes := fun n hn => by
    simp only [List.mem_append, List.mem_cons] at hn ⊢
    tauto
  have hframed := ((Framed.alloc h.toPooled hmove hgrant hnew).trans
    (.write halloc.pooled (List.mem_append_right _ List.mem_cons_self) hblock
      hm₂)).trans (.write hfirst.pooled (List.mem_append_left _ hlast)
        (hold last hlast).held hm₃)
  have hnodup := h.list.nodup
  rw [hnodes] at hnodup
  have hfilled : ∀ n ∈ s.nodes, SameNode k.mem m₂ n := fun n hn x hx =>
    (hm₂ x ((hold n hn).apart x hx)).trans ((hold n hn).kept x hx)
  have hmap : SameNode m₂ m₃ map := by
    intro x hx
    refine hm₃ x fun hin => (hold last hlast).apart x hin hx
  have hlink : nodeNext m₃ last = map := by
    have hlt := hdirect.bounds
    rw [nodeNext, load32_store32_same]
    exact Nat.mod_eq_of_lt (by omega)
  have hnext : nodeNext m₃ map = nodeNext k₁.mem map :=
    hmap.next.trans (filledMemory_next k₁.mem)
  refine ⟨k₁.setMem m₃, chunks', s.pages ++ fresh, ?_, hnext, fun hblank =>
    ⟨⟨?_, hstep.same, ?_, ?_, hstep.zeroed, hstep.machine⟩, hframed⟩⟩
  · have hlastDirect := h.node_direct hlast
    have hstore := storeWord_direct (hlastDirect.word 12 (by omega))
    have hrecord := recordMap_append h hnodes hcall va pa
    simp only [Bind.bind, Except.bind, fillBlock_direct hdirect, hstore]
      at hrecord
    exact hrecord
  · refine hstep.paging h.forest ⟨?_, ?_, ?_, ?_⟩
    · have hlinked := h.list.linked
      rw [hnodes] at hlinked
      have hall := hlinked.extend hlink hne (hnext.trans hblank) fun n hn => by
        have hnl : n ≠ last := fun heq =>
          (List.nodup_append.mp hnodup).2.2 n hn last (by simp) heq
        have hin : n ∈ s.nodes := by simp [hnodes, hn]
        exact (h.relink_other hlast hin hnl m₂ map).next.trans
          (hfilled n hin).next
      have hlist : (s.withHeap chunks' (s.pages ++ fresh)
          (s.nodes ++ [map])).nodes = pre ++ [last, map] := by
        simp [Paging.withHeap, hnodes]
      rw [hlist]
      exact hmove.mmaplist ▸ hall
    · intro n hn
      rcases List.mem_append.mp hn with hn | hn
      · exact (hold n hn).held
      · obtain rfl := List.mem_singleton.mp hn
        exact hblock
    · intro n hn
      rcases List.mem_append.mp hn with hn | hn
      · have huse : m₃ (n + 8) = m₂ (n + 8) := (h.relink hlast hn m₂ map).2
        rw [Kernel.setMem_mem, huse, (hfilled n hn).inUse]
        exact h.list.inUse n hn
      · obtain rfl := List.mem_singleton.mp hn
        rw [Kernel.setMem_mem, hmap.inUse]
        exact filledMemory_inUse k₁.mem
    · refine List.Nodup.append h.list.nodup (List.nodup_singleton map) ?_
      intro n hn hn'
      obtain rfl := List.mem_singleton.mp hn'
      exact (hold n hn).ne rfl
  · intro n hn
    have hentry : nodeEntry m₃ n = nodeEntry m₂ n :=
      (h.relink hlast hn m₂ map).1
    rw [Kernel.setMem_mem, hentry, (hfilled n hn).entry]
  · rw [Kernel.setMem_mem, hmap.entry]
    exact filledMemory_entry k₁.mem

/-- The block `kmalloc` provides keeps its `next`; where that is zero the
mapping enters the list. -/
theorem recordMap_granted (h : PagingAt k s) {k₁ : Kernel}
    (hcall : Settles (fun fuel => kmalloc fuel k mmapBlockSize) (.ok (map, k₁)))
    (hne : map ≠ 0) (va pa : Nat) :
    ∃ k' chunks' pages',
      Settles (fun fuel => recordMap fuel k va pa) (.ok k') ∧
        nodeNext k'.mem map = nodeNext k₁.mem map ∧
        (nodeNext k₁.mem map = 0 →
          Recorded k s va pa k' chunks' pages' map ∧
            Framed k s k' (s.withHeap chunks' pages' (s.nodes ++ [map]))) := by
  rcases List.eq_nil_or_concat s.nodes with hnodes | ⟨pre, last, hnodes⟩
  · exact recordMap_first h hnodes hcall hne va pa
  · rw [List.concat_eq_append] at hnodes
    exact recordMap_later h hnodes hcall hne va pa

theorem recordMap_settles (h : PagingAt k s) {k₁ : Kernel}
    (hcall : Settles (fun fuel => kmalloc fuel k mmapBlockSize) (.ok (map, k₁)))
    (hne : map ≠ 0) (hblank : nodeNext k₁.mem map = 0) (va pa : Nat) :
    ∃ k' chunks' pages',
      Settles (fun fuel => recordMap fuel k va pa) (.ok k') ∧
        Recorded k s va pa k' chunks' pages' map ∧
        Framed k s k' (s.withHeap chunks' pages' (s.nodes ++ [map])) := by
  obtain ⟨k', chunks', pages', hrecord, -, hentered⟩ :=
    recordMap_granted h hcall hne va pa
  exact ⟨k', chunks', pages', hrecord, hentered hblank⟩

end Record

end Linda
