/-
Histories of mmap_do_map and mmap_do_unmap on kpgdir, from the boot on: what
the walk of kpgdir finds for a page afterwards.
-/
import Linda.BootPaging
import Linda.CallHistory
import Linda.MmapHistory

namespace Linda

open ByteMemory CallHistory FuelLoop

/-- The calls, on `kpgdir` and with no flags. -/
inductive PageCall where
  | map (va pa : Nat)
  | unmap (va : Nat)

namespace PageCall

def va : PageCall → Nat
  | .map va _ => va
  | .unmap va => va

def exec (kpgdir fuel : Nat) (call : PageCall) (k : Kernel) :
    Except Halt Kernel :=
  match call with
  | .map va pa => mmapDoMap fuel k kpgdir va pa 0
  | .unmap va => mmapDoUnmap fuel k kpgdir va

/-- What the page of the call is to be translated to. -/
def result : PageCall → Option Translation
  | .map _ pa => some ⟨pa &&& pgMask, true, false⟩
  | .unmap _ => none

/-- Not in the direct map, through which the kernel reaches its tables. -/
def Outside (call : PageCall) : Prop :=
  call.va < kernBase ∨ kernBase + memNormal ≤ call.va ∧ call.va < 4294967296

/-- The requests of the call for a table and for a list node succeed. -/
def Served (kpgdir : Nat) (k : Kernel) : PageCall → Prop
  | .map va pa => ∀ k₁,
      Settles (fun fuel => mmapDoUnmap fuel k kpgdir va) (.ok k₁) →
        ∃ k₂ node k₃, mapEntry k₁ kpgdir va pa 0 = .ok k₂ ∧
          Settles (fun fuel => kmalloc fuel k₂ mmapBlockSize) (.ok (node, k₃)) ∧
            node ≠ 0
  | .unmap _ => True

/-- The field `next`, which `mmap_do_map` does not set, is `NULL` in the node
that `kmalloc` provides. -/
def BlankNode (kpgdir : Nat) (k : Kernel) : PageCall → Prop
  | .map va pa => ∀ k₁ k₂ node k₃,
      Settles (fun fuel => mmapDoUnmap fuel k kpgdir va) (.ok k₁) →
        mapEntry k₁ kpgdir va pa 0 = .ok k₂ →
          Settles (fun fuel => kmalloc fuel k₂ mmapBlockSize) (.ok (node, k₃)) →
            nodeNext k₃.mem node = 0
  | .unmap _ => True

/-- The condition on a call: it is outside the direct map, its requests succeed,
and the node it gets is blank. -/
structure Proper (kpgdir : Nat) (k : Kernel) (call : PageCall) : Prop where
  outside : call.Outside
  served : call.Served kpgdir k
  blank : call.BlankNode kpgdir k

end PageCall

/-- What the calls make of a translation: the last one on the page decides. -/
def lastResult (calls : List PageCall) (va : Nat) (before : Option Translation) :
    Option Translation :=
  calls.foldl (fun t call =>
    if call.va &&& pgMask = va &&& pgMask then call.result else t) before

section Updates

variable {k k' : Kernel} {s s' : Paging} {d va va' pa flags pte : Nat}

/-- The walks that read the entry of a page are those of the page. -/
theorem PagingAt.meets_iff (h : PagingAt k s) (hd : d ∈ s.roots)
    (hne : entry k.mem d (pdx va) ≠ 0) :
    Meets k.mem d va' (slotOf k.mem d va) ↔ va &&& pgMask = va' &&& pgMask := by
  rw [and_pgMask_eq_iff]
  constructor
  · intro hmeets
    obtain ⟨hpdx, hptx, -⟩ :=
      h.forest.meets_same h.pool hd hd ⟨hne, rfl⟩ hmeets
    exact ⟨hpdx, hptx⟩
  · rintro ⟨hpdx, hptx⟩
    refine ⟨hpdx ▸ hne, ?_⟩
    rw [slotOf, slotOf, hpdx, hptx]

/-- A call of `mmap_do_map` sets the translation of its page only. -/
theorem Mapped.walk_flags (h : Mapped k s d va pa flags k' s')
    (hplain : AllPlain k.mem s.roots) (hflags : flags < 4096)
    (hsmall : flags.testBit 7 = false) (hd : d ∈ s.roots) (va' : Nat) :
    pageWalk k'.mem (v2p d) va' =
      if va &&& pgMask = va' &&& pgMask then some ⟨pa &&& pgMask, true,
        (entry k'.mem d (pdx va)).testBit 2 && flags.testBit 2⟩
      else pageWalk k.mem (v2p d) va' := by
  have hd' : d ∈ s'.roots := h.roots ▸ hd
  have hplain' := h.write.allPlain hplain hsmall
  rw [h.write.walk hplain hsmall d hd va']
  by_cases hpage : va &&& pgMask = va' &&& pgMask
  · have hmeets := (h.paging.meets_iff hd' h.present).mpr hpage
    have hpdx := ((and_pgMask_eq_iff va va').mp hpage).1
    rw [if_pos hmeets, if_pos hpage, hpdx,
      leaf_pteWord ((hplain' d hd _ (pdx_lt va')).resolve_left hmeets.1) hflags]
  · rw [if_neg fun hmeets => hpage ((h.paging.meets_iff hd' h.present).mp hmeets),
      if_neg hpage]

/-- What it makes of its page. -/
theorem Mapped.walk_page (h : Mapped k s d va pa flags k' s')
    (hplain : AllPlain k.mem s.roots) (hflags : flags < 4096)
    (hsmall : flags.testBit 7 = false) (hd : d ∈ s.roots) :
    pageWalk k'.mem (v2p d) va = some ⟨pa &&& pgMask, true,
      (entry k'.mem d (pdx va)).testBit 2 && flags.testBit 2⟩ := by
  rw [h.walk_flags hplain hflags hsmall hd, if_pos rfl]

theorem Mapped.walk_eq (h : Mapped k s d va pa 0 k' s')
    (hplain : AllPlain k.mem s.roots) (hd : d ∈ s.roots) (va' : Nat) :
    pageWalk k'.mem (v2p d) va' =
      if va &&& pgMask = va' &&& pgMask then some ⟨pa &&& pgMask, true, false⟩
      else pageWalk k.mem (v2p d) va' := by
  rw [h.walk_flags hplain (by decide) (by decide) hd, Nat.zero_testBit,
    Bool.and_false]

/-- One of `mmap_do_unmap` clears it. -/
theorem Unmapped.walk_eq (h : Unmapped k s d va k' s')
    (hplain : AllPlain k.mem s.roots) (hd : d ∈ s.roots) (va' : Nat) :
    pageWalk k'.mem (v2p d) va' =
      if va &&& pgMask = va' &&& pgMask then none
      else pageWalk k.mem (v2p d) va' := by
  have hd' : d ∈ s'.roots := h.roots ▸ hd
  rw [(h.write 0).walk hplain (by decide) d hd va']
  by_cases hzero : entry k'.mem d (pdx va) = 0
  · rw [if_neg (h.paging.forest.not_meets_empty h.paging.pool hd' hzero)]
    split_ifs with hpage
    · -- nothing was mapped there before
      rw [h.pde d hd _ (pdx_lt va)] at hzero
      have hpdx := ((and_pgMask_eq_iff va va').mp hpage).1
      rw [pageWalk_root (h.paging.root_page hd'), ← hpdx, hzero, walkEntry_zero]
    · rfl
  · by_cases hpage : va &&& pgMask = va' &&& pgMask
    · rw [if_pos ((h.paging.meets_iff hd' hzero).mpr hpage), if_pos hpage,
        leaf_zero]
    · rw [if_neg fun hmeets => hpage ((h.paging.meets_iff hd' hzero).mp hmeets),
        if_neg hpage]

/-- The paging state of a call on `d`. -/
structure Walked (k : Kernel) (d : Nat) (s : Paging) : Prop where
  paging : PagingAt k s
  plain : AllPlain k.mem s.roots
  root : d ∈ s.roots

/-- A call of which the requests succeed, with a blank node, returns and sets
the translation of its page only. -/
theorem Walked.step (h : Walked k d s) {call : PageCall}
    (hproper : call.Proper d k) :
    ∃ k' s', Settles (fun fuel => call.exec d fuel k) (.ok k') ∧
      Walked k' d s' ∧ (Zeroed k s.chunks → Zeroed k' s'.chunks) ∧
      ∀ va', pageWalk k'.mem (v2p d) va' =
        if call.va &&& pgMask = va' &&& pgMask then call.result
        else pageWalk k.mem (v2p d) va' := by
  obtain ⟨hpaging, hplain, hd⟩ := h
  obtain ⟨-, hserved, hblank⟩ := hproper
  cases call with
  | map va pa =>
      obtain ⟨k₁, s₁, hun, hunmapped⟩ := unmapped_settles hpaging hd va
      obtain ⟨k₂, node, k₃, hentry, halloc, hne⟩ := hserved k₁ hun
      have hnext := hblank k₁ k₂ node k₃ hun hentry halloc
      obtain ⟨k', s', hcall, hmapped, -⟩ :=
        mapped_of_grant hpaging hd (by decide) hun hentry halloc hne hnext
      exact ⟨k', s', hcall, ⟨hmapped.paging,
        hmapped.roots ▸ hmapped.write.allPlain hplain (by decide),
        hmapped.roots ▸ hd⟩, hmapped.zeroed, hmapped.walk_eq hplain hd⟩
  | unmap va =>
      obtain ⟨k', s', hcall, hunmapped⟩ := unmapped_settles hpaging hd va
      exact ⟨k', s', hcall, ⟨hunmapped.paging,
        hunmapped.roots ▸ (hunmapped.write 0).allPlain hplain (by decide),
        hunmapped.roots ▸ hd⟩, hunmapped.zeroed, hunmapped.walk_eq hplain hd⟩

/-- So does a history of such calls. -/
theorem Walked.run (calls : List PageCall) (h : Walked k d s)
    (hcalls : EachSettled (PageCall.exec d)
      (fun k call => call.Proper d k) calls k) :
    ∃ k', Settles (fun fuel => run (PageCall.exec d fuel) calls k)
        (.ok k') ∧
      ∀ va', pageWalk k'.mem (v2p d) va' =
        lastResult calls va' (pageWalk k.mem (v2p d) va') := by
  induction calls generalizing k s with
  | nil => exact ⟨k, settles_const _, fun _ => rfl⟩
  | cons call calls ih =>
      obtain ⟨hproper, hrest⟩ := hcalls
      obtain ⟨k₁, s₁, hcall, hwalked, -, hwalk⟩ := h.step hproper
      obtain ⟨k', hrun, hwalk'⟩ := ih hwalked (hrest k₁ hcall)
      refine ⟨k', hcall.bind hrun, fun va' => ?_⟩
      rw [hwalk', hwalk]
      rfl

/-- Where free memory is zero every node is blank. -/
theorem Walked.blank (h : Walked k d s) (hz : Zeroed k s.chunks)
    {call : PageCall} (hserved : call.Served d k) : call.BlankNode d k := by
  cases call with
  | map va pa =>
      intro k₁ k₂ node k₃ hun hentry halloc
      obtain ⟨k₁', s₁, hun', hunmapped⟩ := unmapped_settles h.paging h.root va
      obtain rfl := Except.ok.inj (hun.unique hun')
      obtain ⟨tables', hplaced⟩ := placed_of_mapEntry hunmapped.paging
        (hunmapped.roots ▸ h.root) (by decide) hentry
      obtain ⟨k₂', node', k₃', hentry', halloc', hne⟩ := hserved k₁ hun
      rw [hentry] at hentry'
      obtain rfl := Except.ok.inj hentry'
      obtain ⟨rfl, rfl⟩ := Prod.mk.inj (Except.ok.inj (halloc.unique halloc'))
      exact blank_of_zeroed hplaced.paging.toPooled
        (hplaced.zeroed (hunmapped.zeroed hz)) halloc hne
  | unmap va => trivial

/-- There the condition on a history is that of its requests. -/
theorem Walked.proper_of_zeroed (calls : List PageCall) (h : Walked k d s)
    (hz : Zeroed k s.chunks)
    (hcalls : EachSettled (PageCall.exec d)
      (fun k call => call.Outside ∧ call.Served d k) calls k) :
    EachSettled (PageCall.exec d) (fun k call => call.Proper d k) calls k := by
  induction calls generalizing k s with
  | nil => trivial
  | cons call calls ih =>
      obtain ⟨⟨houtside, hserved⟩, hrest⟩ := hcalls
      have hproper : call.Proper d k :=
        ⟨houtside, hserved, h.blank hz hserved⟩
      obtain ⟨k₁, s₁, hcall, hwalked, hzeroed, -⟩ := h.step hproper
      exact (eachSettled_cons hcall).mpr
        ⟨hproper, ih hwalked (hzeroed hz) (hrest k₁ hcall)⟩

end Updates

section Boot

variable {image : Image} {ram : Memory} {slots : Int → Nat}
  {bounds : Nat × Nat} {entries : List MmapEntry} {fuel : Nat} {k : Kernel}

theorem walked_of_boot (hloaded : Loaded image ram)
    (hboot : boot image bounds entries fuel (loadedKernel image ram slots) =
      .ok k) :
    Walked k image.kpgdir (bootPaging image) := by
  obtain ⟨memMap, rfl, hcount⟩ := boot_ok hloaded hboot
  exact ⟨bootedKernel_paging hcount, bootedKernel_plain,
    List.mem_singleton_self _⟩

/-- From the boot on the last call on a page decides its translation, and a
page of which there is no call keeps the one it had. -/
theorem updates_of_run (hloaded : Loaded image ram)
    (hboot : boot image bounds entries fuel (loadedKernel image ram slots) =
      .ok k) (calls : List PageCall)
    (hcalls : EachSettled (PageCall.exec image.kpgdir)
      (fun k call => call.Proper image.kpgdir k) calls k) :
    ∃ k', Settles (fun fuel => run (PageCall.exec image.kpgdir fuel) calls k)
        (.ok k') ∧
      ∀ va, pageWalk k'.mem (v2p image.kpgdir) va =
        lastResult calls va (pageWalk k.mem (v2p image.kpgdir) va) :=
  (walked_of_boot hloaded hboot).run calls hcalls

/-- On a machine whose memory behind the kernel is zero every request may be
made. -/
theorem proper_of_zeroMemory (hzero : ZeroMemory image ram slots)
    (hboot : boot image bounds entries fuel (loadedKernel image ram slots) =
      .ok k) (calls : List PageCall)
    (hcalls : EachSettled (PageCall.exec image.kpgdir)
      (fun k call => call.Outside ∧ call.Served image.kpgdir k) calls k) :
    EachSettled (PageCall.exec image.kpgdir)
      (fun k call => call.Proper image.kpgdir k) calls k := by
  have hwalked := walked_of_boot hzero.loaded hboot
  obtain ⟨memMap, rfl, hcount⟩ := boot_ok hzero.loaded hboot
  exact hwalked.proper_of_zeroed calls (bootedKernel_zeroed hcount hzero.behind)
    hcalls

end Boot

/-- The requests of a call whose parts are known. -/
theorem PageCall.proper_of_parts {fuel d va pa node next : Nat} {k k' : Kernel}
    (h : mapParts fuel k d va pa 0 = .ok (node, next, k')) (hne : node ≠ 0) :
    (PageCall.map va pa).Served d k ∧
      (next = 0 → (PageCall.map va pa).BlankNode d k) := by
  obtain ⟨k₁, k₂, k₃, hun, hentry, halloc, rfl, -⟩ := mapParts_ok h
  have hun' := (mmapDoUnmap_stable k d va).settles hun (by simp)
  have halloc' := (kmalloc_stable k₂ mmapBlockSize).settles halloc (by simp)
  constructor
  · intro k₁' hun₁
    obtain rfl := Except.ok.inj (hun'.unique hun₁)
    exact ⟨k₂, _, k₃, hentry, halloc', hne⟩
  · intro hblank k₁' k₂' node' k₃' hun₁ hentry₁ halloc₁
    obtain rfl := Except.ok.inj (hun'.unique hun₁)
    rw [hentry] at hentry₁
    obtain rfl := Except.ok.inj hentry₁
    obtain ⟨rfl, rfl⟩ := Prod.mk.inj (Except.ok.inj (halloc'.unique halloc₁))
    exact hblank

theorem mapParts_settles {fuel d va pa node next : Nat} {k k' : Kernel}
    (h : mapParts fuel k d va pa 0 = .ok (node, next, k')) :
    Settles (fun fuel => mmapDoMap fuel k d va pa 0) (.ok k') := by
  obtain ⟨k₁, k₂, k₃, -, -, -, -, hmap⟩ := mapParts_ok h
  exact (mmapDoMap_stable _ _ _ _ _).settles hmap (by simp)

/-- Two pages mapped, the second once more elsewhere: the nodes of the calls
and what they hold in `next`. -/
theorem remapped_eval : (do
    let (node, next, k) ← mapParts 10 (smallKernel (fun _ => 0) 2)
      smallImage.kpgdir 0xF8000000 0x38000000 0
    let (node', next', k) ← mapParts 10 k smallImage.kpgdir 0xF8001000
      0x38001000 0
    let (node'', next'', _) ← mapParts 10 k smallImage.kpgdir 0xF8001000
      0x38002000 0
    Except.ok ((node, next), (node', next'), node'', next'')).toOption =
      some ((0xC05E1010, 0), (0xC05E1030, 0), 0xC05E1030, 0) := by
  -- a fill is read in one step, `memset` in one for every byte
  unfold mapParts mmapDoUnmap unlinkBody kmfree chunkGlue
  delta kmfreeBody glueBody
  simp only [mapEntry, memset_eq_fill]
  decide +kernel

theorem updates_remapped :
    ∃ k k', boot smallImage (0, 0) smallMap 1048577
        (loadedKernel smallImage (fun _ => 0) fun _ => 0) = .ok k ∧
      Settles (fun fuel => run (PageCall.exec smallImage.kpgdir fuel)
        [.map 0xF8000000 0x38000000, .map 0xF8001000 0x38001000,
          .map 0xF8001000 0x38002000, .unmap 0xF8000000] k) (.ok k') ∧
      ∀ va, pageWalk k'.mem (v2p smallImage.kpgdir) va =
        lastResult [.map 0xF8000000 0x38000000, .map 0xF8001000 0x38001000,
          .map 0xF8001000 0x38002000, .unmap 0xF8000000] va
          (pageWalk k.mem (v2p smallImage.kpgdir) va) := by
  have hboot := smallKernel_boot smallImage_zero.loaded
  obtain ⟨⟨node, next, k₁⟩, hfirst, heval⟩ :=
    ok_of_bind (ok_of_toOption remapped_eval)
  obtain ⟨⟨node', next', k₂⟩, hsecond, heval⟩ := ok_of_bind heval
  obtain ⟨⟨node'', next'', k₃⟩, hthird, heval⟩ := ok_of_bind heval
  simp only [Except.ok.injEq, Prod.mk.injEq] at heval
  obtain ⟨⟨rfl, rfl⟩, ⟨rfl, rfl⟩, rfl, rfl⟩ := heval
  obtain ⟨hserved₁, hblank₁⟩ := PageCall.proper_of_parts hfirst (by decide)
  obtain ⟨hserved₂, hblank₂⟩ := PageCall.proper_of_parts hsecond (by decide)
  obtain ⟨hserved₃, hblank₃⟩ := PageCall.proper_of_parts hthird (by decide)
  obtain ⟨k', hrun⟩ := updates_of_run smallImage_zero.loaded hboot
    [.map 0xF8000000 0x38000000, .map 0xF8001000 0x38001000,
      .map 0xF8001000 0x38002000, .unmap 0xF8000000] (by
      refine ⟨⟨Or.inr (by decide), hserved₁, hblank₁ rfl⟩, fun k hk => ?_⟩
      obtain rfl := Except.ok.inj ((mapParts_settles hfirst).unique hk)
      refine ⟨⟨Or.inr (by decide), hserved₂, hblank₂ rfl⟩, fun k hk => ?_⟩
      obtain rfl := Except.ok.inj ((mapParts_settles hsecond).unique hk)
      refine ⟨⟨Or.inr (by decide), hserved₃, hblank₃ rfl⟩, fun k hk => ?_⟩
      obtain rfl := Except.ok.inj ((mapParts_settles hthird).unique hk)
      exact ⟨⟨Or.inr (by decide), trivial, trivial⟩, fun _ _ => trivial⟩)
  exact ⟨_, k', hboot, hrun⟩

/-- Memory that was zero but for the word the first node finds in its `next`:
the address of the page the first table gets. -/
def staleRam : Memory := store32 (fun _ => 0) 0xC05E101C 0xC05E0000

theorem staleRam_loaded : Loaded smallImage staleRam := by
  have hout : ∀ x, x < 0xC05E101C → staleRam x = 0 := fun x hx =>
    store32_of_outside _ _ (Or.inl hx)
  refine ⟨fun x hx => hout x ?_, fun x _ hx => hout x ?_⟩
  · have hhi := (pageExtent_iff.mp hx).2
    have hdir : smallImage.kpgdir = 0xC0100000 := rfl
    omega
  · have htbl : smallImage.kpgtbl = 0xC0101000 := rfl
    omega

/-- Two calls, the nodes `kmalloc` has for them, and the first page
afterwards. -/
theorem staleRam_eval : (do
    let (node, _, k) ← mapParts 10 (smallKernel staleRam 2) smallImage.kpgdir
      0xF8000000 0x38000000 0
    let (node', _, k') ← mapParts 10 k smallImage.kpgdir 0xF8001000 0x38001000 0
    Except.ok (node, node',
      pageWalk k'.mem (v2p smallImage.kpgdir) 0xF8000000)).toOption =
        some (0xC05E1010, 0xC05E1030, none) := by
  simp only [mapParts, mapEntry, memset_eq_fill]
  decide +kernel

/-- With a stale `next` in the first node the second call takes the first
table for a list node and clears the first mapping. -/
theorem stale_next_unmaps :
    ¬ ∀ (image : Image) (ram : Memory) (slots : Int → Nat)
      (bounds : Nat × Nat) (entries : List MmapEntry) (fuel : Nat) (k : Kernel),
      Loaded image ram →
        boot image bounds entries fuel (loadedKernel image ram slots) = .ok k →
      ∀ calls : List PageCall, EachSettled (PageCall.exec image.kpgdir)
        (fun k call => call.Outside ∧ call.Served image.kpgdir k) calls k →
      ∃ k', Settles (fun fuel => run (PageCall.exec image.kpgdir fuel) calls k)
          (.ok k') ∧
        ∀ va, pageWalk k'.mem (v2p image.kpgdir) va =
          lastResult calls va (pageWalk k.mem (v2p image.kpgdir) va) := by
  intro hall
  obtain ⟨⟨node, _, k₁⟩, hfirst, heval⟩ := ok_of_bind (ok_of_toOption staleRam_eval)
  obtain ⟨⟨node', _, k₂⟩, hsecond, heval⟩ := ok_of_bind heval
  simp only [Except.ok.injEq, Prod.mk.injEq] at heval
  obtain ⟨rfl, rfl, hnone⟩ := heval
  obtain ⟨hserved, -⟩ := PageCall.proper_of_parts hfirst (by decide)
  obtain ⟨hserved', -⟩ := PageCall.proper_of_parts hsecond (by decide)
  have hstep := mapParts_settles hfirst
  have hstep' := mapParts_settles hsecond
  obtain ⟨k', hrun, hwalk⟩ := hall _ _ _ _ _ _ _ staleRam_loaded
    (smallKernel_boot staleRam_loaded)
    [.map 0xF8000000 0x38000000, .map 0xF8001000 0x38001000] (by
      refine ⟨⟨Or.inr (by decide), hserved⟩, fun k hk => ?_⟩
      obtain rfl := Except.ok.inj (hstep.unique hk)
      exact ⟨⟨Or.inr (by decide), hserved'⟩, fun _ _ => trivial⟩)
  obtain rfl := Except.ok.inj
    (hrun.unique (hstep.bind (hstep'.bind (settles_const (.ok k₂)))))
  have hsome := hwalk 0xF8000000
  rw [hnone] at hsome
  exact absurd hsome (by decide)

end Linda
