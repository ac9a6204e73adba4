/-
The lists the kernel builds on its heap: mappings and disk buffers are hung
behind the last node, whose own links come from kmalloc as they are.
-/
import Linda.BufLinks
import Linda.PageUpdates

namespace Linda

open ByteMemory CallHistory LinkedSegment FuelLoop

/-- The calls that put a node into a list. -/
inductive LinkCall where
  | map (mmap va pa flags : Nat)
  | read (dev blockno : Nat)

/-- The kernel, `bufs`, and the nodes put into the two lists and not taken out
again, the oldest first. -/
structure LinkRun where
  kernel : Kernel
  queue : Nat
  count : Nat
  nodes : List Nat
  queued : List Nat

namespace LinkCall

def exec (name fuel : Nat) (call : LinkCall) (r : LinkRun) :
    Except Halt LinkRun :=
  match call with
  | .map mmap va pa flags => do
      let node ← mapNode fuel r.kernel mmap va pa flags
      let k ← mmapDoMap fuel r.kernel mmap va pa flags
      let left := leftNodes r.kernel.mem mmap va r.nodes
      .ok { r with kernel := k, nodes := left ++ [node] }
  | .read dev blockno => do
      let bufs : BufKernel := ⟨r.kernel, r.queue, r.count⟩
      let (buf, s) ← bufs.bufRead name fuel dev blockno
      let queued := if buf = 0 then r.queued else r.queued ++ [buf]
      .ok ⟨s.kernel, s.queue, s.count, r.nodes, queued⟩

/-- What the kernel passes. -/
def Proper (roots : List Nat) : LinkCall → Prop
  | .map mmap va pa flags => (MmapCall.map mmap va pa flags).Proper roots
  | .read _ _ => True

/-- A node for `mmap_do_map` is not refused. -/
def Served (r : LinkRun) : LinkCall → Prop
  | .map mmap va pa flags => (MmapCall.map mmap va pa flags).Served r.kernel
  | .read _ _ => True

/-- The words of the block that become the links of the node are `NULL` when
`kmalloc` hands it out; `mmap_do_map` does get a block. -/
def BlankLinks (r : LinkRun) : LinkCall → Prop
  | .map mmap va pa flags =>
      (MmapCall.map mmap va pa flags).Served r.kernel ∧
        (MmapCall.map mmap va pa flags).BlankNode r.kernel
  | .read _ _ => ∀ buf k, GetsBuffer r.kernel buf k →
      bufNext k.mem buf = 0 ∧ (r.queue = 0 → bufPrev k.mem buf = 0)

end LinkCall

/-- Both lists end in `NULL` behind the nodes put into them, and every walk
along them ends, on one of these nodes or behind the last. -/
structure ListsEnd (r : LinkRun) : Prop where
  maps : Segment 0 (nodeNext r.kernel.mem) r.kernel.mmaplist r.nodes 0
  bufs : Segment 0 (bufNext r.kernel.mem) r.queue r.queued 0
  prevs : Back (bufPrev r.kernel.mem) 0 r.queued
  mapWalk : r.kernel.mmaplist ≠ 0 → ∃ last ∈ r.nodes,
    Settles (fun fuel => loop .spin (findUnusedBody r.kernel) fuel
      (0, r.kernel.mmaplist)) (.ok (last, 0))
  unmapWalk : ∀ va, ∃ k', Settles (fun fuel => loop .spin (unlinkBody va fuel)
    fuel (r.kernel, r.kernel.mmaplist, r.kernel.mmaplist, 0)) (.ok k')
  readWalk : r.queue ≠ 0 → ∃ last ∈ r.queued,
    Settles (fun fuel => loop .spin (lastBufBody r.kernel) fuel r.queue)
      (.ok last)
  removeWalk : ∀ buf, ∃ header, Settles (fun fuel =>
    loop .spin (findBufBody r.kernel buf) fuel r.queue) (.ok header) ∧
      (header = 0 ∨ header ∈ r.queued)

/-- `s` describes the kernel of the run, whose lists hold its nodes. -/
structure LinkRun.Ordered (r : LinkRun) (s : Paging) : Prop
    extends ListsAt r.kernel s r.queue r.queued where
  nodes : r.nodes = s.nodes

section Steps

variable {k k' : Kernel} {s : Paging} {r r' : LinkRun} {name fuel : Nat}
  {d va pa flags node : Nat}

theorem LinkRun.Ordered.ends (h : r.Ordered s) : ListsEnd r where
  maps := h.nodes ▸ h.paging.list.linked
  bufs := h.bufs.linked
  prevs := h.bufs.back
  mapWalk hne := by
    rcases List.eq_nil_or_concat s.nodes with hnil | ⟨pre, last, hlast⟩
    · have hhead := h.paging.list.head_eq
      rw [hnil] at hhead
      exact absurd hhead hne
    · rw [List.concat_eq_append] at hlast
      refine ⟨last, ?_, (findUnused_settles h.paging hlast).2⟩
      rw [h.nodes, hlast]
      simp
  unmapWalk va := by
    obtain ⟨k', chunks', hwalk, -⟩ := unlink_settles h.paging va
    exact ⟨k', hwalk⟩
  readWalk hne := by
    rcases List.eq_nil_or_concat r.queued with hnil | ⟨pre, last, hlast⟩
    · have hhead := h.bufs.head_eq
      rw [hnil] at hhead
      exact absurd hhead hne
    · rw [List.concat_eq_append] at hlast
      refine ⟨last, ?_, (lastBuf_settles h.toListsAt hlast).2⟩
      rw [hlast]
      simp
  removeWalk buf := by
    have hwhole : r.queued = [] ++ r.queued := rfl
    obtain ⟨header, hruns, hheader⟩ :=
      findBuf_runs h.toListsAt buf r.queued hwhole
    refine ⟨header, ?_, hheader.imp_right ?_⟩
    · rw [h.bufs.head_eq]
      exact hruns.settles
    · rintro ⟨rfl, hin⟩
      exact hin

theorem blank_of_segment {k₁ k₂ k₃ : Kernel} {s₂ : Paging} {nodes : List Nat}
    (h : PagingAt k₂ s₂)
    (hun : Settles (fun fuel => mmapDoUnmap fuel k d va) (.ok k₁))
    (hentry : mapEntry k₁ d va pa flags = .ok k₂)
    (halloc : Settles (fun fuel => kmalloc fuel k₂ mmapBlockSize)
      (.ok (node, k₃)))
    (hcall : Settles (fun fuel => mmapDoMap fuel k d va pa flags) (.ok k'))
    (hlinked : Segment 0 (nodeNext k'.mem) k'.mmaplist (nodes ++ [node]) 0) :
    node ≠ 0 ∧ nodeNext k₃.mem node = 0 := by
  obtain ⟨-, hne, hend⟩ := segment_snoc.mp hlinked
  obtain ⟨k'', chunks', pages', hrecord, hnext, -⟩ :=
    recordMap_granted h halloc hne va pa
  obtain rfl := Except.ok.inj
    (hcall.unique (mmapDoMap_settles hun hentry hrecord))
  exact ⟨hne, hnext.symm.trans hend⟩

theorem blankLinks_map {k₁ k₂ k₃ : Kernel}
    (hun : mmapDoUnmap fuel r.kernel d va = .ok k₁)
    (hentry : mapEntry k₁ d va pa flags = .ok k₂)
    (halloc : kmalloc fuel k₂ mmapBlockSize = .ok (node, k₃)) :
    LinkCall.BlankLinks r (.map d va pa flags) ↔
      node ≠ 0 ∧ nodeNext k₃.mem node = 0 := by
  constructor
  · rintro ⟨hserved, hblank⟩
    refine ⟨?_, hblank fuel k₁ k₂ node k₃ hun hentry halloc⟩
    rintro rfl
    exact hserved fuel k₁ k₂ k₃ hun hentry halloc
  · intro hnode
    constructor
    · intro fuel' k₁' k₂' k₃' hun' hentry' hnull
      have hsame := mapParts_same hun hentry halloc hun' hentry' hnull
      exact hnode.1 (Prod.mk.inj hsame).1.symm
    · intro fuel' k₁' k₂' node' k₃' hun' hentry' halloc'
      obtain ⟨rfl, rfl⟩ :=
        Prod.mk.inj (mapParts_same hun hentry halloc hun' hentry' halloc')
      exact hnode.2

/-- A call of `mmap_do_map` keeps both lists exactly when the block it gets is
blank. -/
theorem LinkRun.Ordered.map (h : r.Ordered s)
    (hproper : (LinkCall.map d va pa flags).Proper s.roots)
    (hstep : LinkCall.exec name fuel (.map d va pa flags) r = .ok r') :
    (ListsEnd r' ↔ LinkCall.BlankLinks r (.map d va pa flags)) ∧
      (LinkCall.BlankLinks r (.map d va pa flags) →
        ∃ s', r'.Ordered s' ∧ s'.roots = s.roots ∧
          (Zeroed r.kernel s.chunks → Zeroed r'.kernel s'.chunks)) := by
  have hd : d ∈ s.roots := hproper.mmap
  have hflags : flags < 4096 := hproper.flags
  obtain ⟨node, hnode, hstep⟩ := ok_of_bind hstep
  obtain ⟨k', hcall, hstep⟩ := ok_of_bind hstep
  obtain rfl := Except.ok.inj hstep
  obtain ⟨k₁, s₁, k₂, tables', k₃, hun, hunmapped, hentry, hplaced, halloc⟩ :=
    mapNode_parts h.paging hd hflags hnode
  have hun' := (mmapDoUnmap_stable r.kernel d va).settles hun (by simp)
  have halloc' := (kmalloc_stable k₂ mmapBlockSize).settles halloc (by simp)
  have hcall' :=
    (mmapDoMap_stable r.kernel d va pa flags).settles hcall (by simp)
  have hiff := blankLinks_map hun hentry halloc
  have hkeeps : LinkCall.BlankLinks r (.map d va pa flags) →
      ∃ s', LinkRun.Ordered ⟨k', r.queue, r.count,
          leftNodes r.kernel.mem d va r.nodes ++ [node], r.queued⟩ s' ∧
        s'.roots = s.roots ∧
        (Zeroed r.kernel s.chunks → Zeroed k' s'.chunks) := by
    intro hblank
    obtain ⟨hne, hnext⟩ := hiff.mp hblank
    obtain ⟨k'', s', hsettles, -, hmapped, hframed, hlist, -⟩ :=
      mapped_framed h.paging hd hflags hun' hentry halloc' hne hnext
    obtain rfl := Except.ok.inj (hcall'.unique hsettles)
    refine ⟨s', ⟨⟨hmapped.paging, ?_⟩, ?_⟩, hmapped.roots, hmapped.zeroed⟩
    · exact h.bufs.spares hframed.blocks fun _ _ => bufBlock_not_node
    · rw [h.nodes, hlist]
  refine ⟨⟨fun hends => ?_, fun hblank => ?_⟩, hkeeps⟩
  · exact hiff.mpr
      (blank_of_segment hplaced.paging hun' hentry halloc' hcall' hends.maps)
  · obtain ⟨s', hordered, -⟩ := hkeeps hblank
    exact hordered.ends

theorem LinkRun.Ordered.read {dev blockno : Nat} (h : r.Ordered s)
    (hstep : LinkCall.exec name fuel (.read dev blockno) r = .ok r') :
    (ListsEnd r' ↔ LinkCall.BlankLinks r (.read dev blockno)) ∧
      (LinkCall.BlankLinks r (.read dev blockno) →
        ∃ s', r'.Ordered s' ∧ s'.roots = s.roots ∧
          (Zeroed r.kernel s.chunks → Zeroed r'.kernel s'.chunks)) := by
  obtain ⟨⟨buf, b⟩, hcall, hstep⟩ := ok_of_bind hstep
  obtain rfl := Except.ok.inj hstep
  have hempty : r.queue = 0 ↔ r.queued = [] := h.bufs.linked.eq_nil_iff.symm
  obtain ⟨s', hroots, hsame, ⟨rfl, hnone, hlists, hzeroed⟩ |
    ⟨k₁, hgets, hnext, hprev, hentered⟩⟩ := h.toListsAt.read hcall
  · have hblank : LinkCall.BlankLinks r (.read dev blockno) :=
      fun buf k hgets => absurd hgets (hnone buf k)
    have hordered : LinkRun.Ordered ⟨b.kernel, b.queue, b.count, r.nodes,
        r.queued⟩ s' := ⟨hlists, h.nodes.trans hsame.symm⟩
    exact ⟨iff_of_true hordered.ends hblank,
      fun _ => ⟨s', hordered, hroots, hzeroed⟩⟩
  · have hkeeps : LinkCall.BlankLinks r (.read dev blockno) →
        LinkRun.Ordered ⟨b.kernel, b.queue, b.count, r.nodes,
          r.queued ++ [buf]⟩ s' ∧
        (Zeroed r.kernel s.chunks → Zeroed b.kernel s'.chunks) := by
      intro hblank
      obtain ⟨hnext₀, hprev₀⟩ := hblank buf k₁ hgets
      obtain ⟨hlists, hzeroed⟩ :=
        hentered hnext₀ fun hnil => hprev₀ (hempty.mpr hnil)
      exact ⟨⟨hlists, h.nodes.trans hsame.symm⟩, hzeroed⟩
    simp only [if_neg hgets.ne_zero]
    refine ⟨⟨fun hends => ?_, fun hblank => ?_⟩, fun hblank => ?_⟩
    · intro c k₁' hgets'
      obtain ⟨rfl, rfl⟩ := hgets.unique hgets'
      have hlinked := hends.bufs
      have hback := hends.prevs
      dsimp only at hlinked hback
      refine ⟨hnext.symm.trans (segment_snoc.mp hlinked).2.2, fun hzero => ?_⟩
      have hnil := hempty.mp hzero
      rw [hnil] at hback
      exact (hprev hnil).symm.trans hback.1
    · exact (hkeeps hblank).1.ends
    · obtain ⟨hordered, hzeroed⟩ := hkeeps hblank
      exact ⟨s', hordered, hroots, hzeroed⟩

theorem LinkRun.Ordered.step {call : LinkCall} (h : r.Ordered s)
    (hproper : call.Proper s.roots)
    (hstep : LinkCall.exec name fuel call r = .ok r') :
    (ListsEnd r' ↔ call.BlankLinks r) ∧ (call.BlankLinks r →
      ∃ s', r'.Ordered s' ∧ s'.roots = s.roots ∧
        (Zeroed r.kernel s.chunks → Zeroed r'.kernel s'.chunks)) := by
  cases call with
  | map d va pa flags => exact h.map hproper hstep
  | read dev blockno => exact h.read hstep

theorem LinkRun.Ordered.blank {call : LinkCall} (h : r.Ordered s)
    (hproper : call.Proper s.roots) (hz : Zeroed r.kernel s.chunks)
    (hserved : call.Served r) : call.BlankLinks r := by
  cases call with
  | map d va pa flags =>
      refine ⟨hserved, fun fuel k₁ k₂ node k₃ hun hentry halloc => ?_⟩
      have hd : d ∈ s.roots := hproper.mmap
      obtain ⟨k₁', s₁, hsettles, hunmapped⟩ := unmapped_settles h.paging hd va
      obtain rfl := Except.ok.inj ((mmapDoUnmap_stable r.kernel d va).eq_of_settles
        hun (by simp) hsettles)
      obtain ⟨tables', hplaced⟩ := placed_of_mapEntry hunmapped.paging
        (hunmapped.roots ▸ hd) hproper.flags hentry
      have hne : node ≠ 0 := by
        rintro rfl
        exact hserved fuel k₁ k₂ k₃ hun hentry halloc
      exact blank_of_zeroed hplaced.paging.toPooled
        (hplaced.zeroed (hunmapped.zeroed hz))
        ((kmalloc_stable k₂ mmapBlockSize).settles halloc (by simp)) hne
  | read dev blockno =>
      intro buf k hgets
      obtain ⟨hnext, hprev⟩ := hgets.blank h.paging.toPooled hz
      exact ⟨hnext, fun _ => hprev⟩

end Steps

/-- Where pages and free blocks are zero at first, the links of every call are
blank as long as `mmap_do_map` gets its nodes. -/
theorem blankLinks_of_zeroed {roots : List Nat} {calls : List LinkCall}
    (hcalls : ∀ call ∈ calls, call.Proper roots) {name fuel : Nat}
    {r : LinkRun} {s : Paging} (h : r.Ordered s) (hroots : s.roots = roots)
    (hz : Zeroed r.kernel s.chunks)
    (hserved : EachStep (LinkCall.exec name fuel)
      (fun r call _ => call.Served r) calls r) :
    EachStep (LinkCall.exec name fuel) (fun r call _ => call.BlankLinks r)
      calls r := by
  induction calls generalizing r s with
  | nil => trivial
  | cons call calls ih =>
      intro r' hstep
      obtain ⟨hserved, hrest⟩ := hserved r' hstep
      have hproper : call.Proper s.roots :=
        hroots ▸ hcalls call List.mem_cons_self
      have hblank := h.blank hproper hz hserved
      obtain ⟨s', hordered, hroots', hzeroed⟩ := (h.step hproper hstep).2 hblank
      have htail : ∀ call' ∈ calls, call'.Proper roots := fun call' hmem =>
        hcalls call' (List.mem_cons_of_mem call hmem)
      exact ⟨hblank,
        ih htail hordered (hroots'.trans hroots) (hzeroed hz) hrest⟩

/-- From any list of mappings and an empty queue, every call leaves both lists
ended exactly when every call gets blocks with blank links. -/
theorem listsEnd_iff {k : Kernel} {s : Paging} (h : PagingAt k s)
    {calls : List LinkCall} (hcalls : ∀ call ∈ calls, call.Proper s.roots)
    (name fuel : Nat) :
    EachStep (LinkCall.exec name fuel) (fun _ _ r' => ListsEnd r') calls
        ⟨k, 0, 0, s.nodes, []⟩ ↔
      EachStep (LinkCall.exec name fuel) (fun r call _ => call.BlankLinks r)
        calls ⟨k, 0, 0, s.nodes, []⟩ := by
  apply eachStep_congr fun calls r => (∃ s', r.Ordered s' ∧ s'.roots = s.roots) ∧
    ∀ call ∈ calls, call.Proper s.roots
  · rintro r call calls r' ⟨⟨s', hordered, hroots⟩, hproper⟩ hstep
    have hcall := hroots ▸ hproper call List.mem_cons_self
    exact (hordered.step hcall hstep).1
  · rintro r call calls r' ⟨⟨s', hordered, hroots⟩, hproper⟩ hstep hblank
    have hcall := hroots ▸ hproper call List.mem_cons_self
    obtain ⟨s'', hordered', hroots', -⟩ := (hordered.step hcall hstep).2 hblank
    exact ⟨⟨s'', hordered', hroots'.trans hroots⟩,
      fun call' hmem => hproper call' (List.mem_cons_of_mem call hmem)⟩
  · exact ⟨⟨s, ⟨⟨h, rfl, trivial, by simp, List.nodup_nil⟩, rfl⟩, rfl⟩, hcalls⟩

/-- One call of each kind out of zeroed pages. -/
theorem listsEnd_zeroed :
    EachStep (LinkCall.exec 0 10) (fun _ _ r' => ListsEnd r')
      [.map 0xC0001000 0xF8000000 0x38000000 0, .read 0 7]
      ⟨tableKernel, 0, 0, [], []⟩ := by
  have hcalls : ∀ call ∈ [LinkCall.map 0xC0001000 0xF8000000 0x38000000 0,
      .read 0 7], call.Proper [0xC0001000] := by
    simp only [List.forall_mem_cons]
    exact ⟨⟨List.mem_cons_self, by decide, Or.inr le_rfl⟩, trivial, by simp⟩
  refine (listsEnd_iff tableKernel_paging hcalls 0 10).mpr ?_
  refine blankLinks_of_zeroed hcalls
    ⟨⟨tableKernel_paging, rfl, trivial, by simp, List.nodup_nil⟩, rfl⟩ rfl
    tableKernel_zeroed fun r' _ => ⟨tableKernel_served, fun r'' _ => ?_⟩
  exact ⟨trivial, trivial⟩

theorem staleRam_link :
    (LinkCall.exec 0 10 (.map smallImage.kpgdir 0xF8000000 0x38000000 0)
      ⟨smallKernel staleRam 2, 0, 0, [], []⟩).toOption.map
        (fun r => (r.nodes, nodeNext r.kernel.mem 0xC05E1010)) =
      some ([0xC05E1010], 0xC05E0000) := by
  simp only [LinkCall.exec, mapNode, mmapDoMap, mapEntry, memset_eq_fill]
  decide +kernel

/-- The first node has the word of its page for a successor. -/
theorem stale_next_follows :
    ¬ ∀ (k : Kernel) (s : Paging), PagingAt k s →
      ∀ calls : List LinkCall, (∀ call ∈ calls, call.Proper s.roots) →
      ∀ name fuel, EachStep (LinkCall.exec name fuel)
        (fun _ _ r' => ListsEnd r') calls ⟨k, 0, 0, s.nodes, []⟩ := by
  intro hall
  have hlink := staleRam_link
  rw [Option.map_eq_some_iff] at hlink
  obtain ⟨r, hstep, hr⟩ := hlink
  obtain ⟨hnodes, hnext⟩ := Prod.mk.inj hr
  have hproper : ∀ call ∈ [LinkCall.map smallImage.kpgdir 0xF8000000 0x38000000 0],
      call.Proper (bootPaging smallImage).roots := by
    intro call hcall
    obtain rfl := List.mem_singleton.mp hcall
    exact ⟨List.mem_cons_self, by decide, Or.inr le_rfl⟩
  obtain ⟨hends, -⟩ := hall _ _ (bootedKernel_paging (by decide)) _ hproper 0 10 r
    (ok_of_toOption hstep)
  have hmaps := hends.maps
  rw [hnodes] at hmaps
  have hlast : nodeNext r.kernel.mem 0xC05E1010 = 0 := hmaps.2.2
  rw [hnext] at hlast
  exact absurd hlast (by decide)

end Linda
