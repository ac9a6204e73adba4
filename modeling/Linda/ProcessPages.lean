/-
What umap_init and the copying of uvm_init do: a directory that shares the
kernel half of another, and writes through pages outside the direct map.
-/
import Linda.MmapEffects

namespace Linda

open ByteMemory FuelLoop

section Copy

variable {k : Kernel} {s : Paging} {kpgdir page : Nat}

/-- The loop of `umap_init` copies the entries as bytes. -/
theorem copyEntries_direct (hdir : Direct kpgdir 4096) (hpage : Direct page 4096)
    (hne : page + 4096 ≤ kpgdir ∨ kpgdir + 4096 ≤ page) (n i : Nat)
    (hn : i + n ≤ 1024) (k : Kernel) :
    copyEntries kpgdir page n i k =
      .ok (k.setMem (copied k.mem (page + 4 * i) (kpgdir + 4 * i) (4 * n))) := by
  induction n generalizing i k with
  | zero =>
      rw [copyEntries, Nat.mul_zero, copied_zero]
      rfl
  | succ n ih =>
      have hfour : 4 * (i + 1) = 4 * i + 4 := by omega
      have hlen : 4 * (n + 1) = 4 + 4 * n := by omega
      rw [copyEntries, loadWord_direct (hdir.word (4 * i) (by omega)), ok_bind,
        storeWord_direct (hpage.word (4 * i) (by omega)), ok_bind,
        ih (i + 1) (by omega), Kernel.setMem_mem, Kernel.setMem_setMem,
        store32_load32, hfour, hlen, ← Nat.add_assoc, ← Nat.add_assoc,
        copied_copied _ (by omega)]

theorem copyEntries_eq (hdir : KernelPage kpgdir) (hpage : KernelPage page)
    (hne : page ≠ kpgdir) (n i : Nat) (hn : i + n ≤ 1024) (k : Kernel) :
    copyEntries kpgdir page n i k =
      .ok (k.setMem (copied k.mem (page + 4 * i) (kpgdir + 4 * i) (4 * n))) := by
  have haligned := hdir.aligned
  have haligned' := hpage.aligned
  exact copyEntries_direct hdir.whole hpage.whole (by omega) n i hn k

/-- The directory in `page`, with the kernel half of the one in `kpgdir`. -/
def directoryMemory (m : Memory) (kpgdir page : Nat) : Memory :=
  copied m (page + 3072) (kpgdir + 3072) 1024

theorem directoryMemory_same {m : Memory} {pages : List Nat}
    (hpage : KernelPage page)
    (hpages : ∀ q ∈ pages, KernelPage q ∧ q ≠ page) :
    SamePages m (directoryMemory m kpgdir page) pages := by
  intro q hq x hx
  obtain ⟨hkernel, hne⟩ := hpages q hq
  have hout := hkernel.apart hpage hne x hx
  rw [pageExtent_iff] at hout
  exact copied_of_outside _ _ (by omega)

theorem directoryMemory_kernel {m : Memory} {i : Nat} (hlo : 768 ≤ i)
    (hhi : i < 1024) :
    entry (directoryMemory m kpgdir page) page i = entry m kpgdir i := by
  have hcopy := @load32_copied m (page + 3072) (kpgdir + 3072) 1024
    (4 * i - 3072) (by omega)
  have hdst : page + 3072 + (4 * i - 3072) = page + 4 * i := by omega
  have hsrc : kpgdir + 3072 + (4 * i - 3072) = kpgdir + 4 * i := by omega
  rw [hdst, hsrc] at hcopy
  exact hcopy

theorem directoryMemory_user {m : Memory} {i : Nat} (hi : i < 768) :
    entry (directoryMemory m kpgdir page) page i = entry m page i :=
  load32_congr fun x _ _ => copied_of_outside _ _ (by omega)

/-- A directory that shares the kernel half of one of the forest. -/
theorem Forest.addRoot {m m' : Memory} {roots tables : List Nat}
    (h : Forest m roots tables) (hdir : kpgdir ∈ roots)
    (hsame : SamePages m m' (roots ++ tables))
    (huser : ∀ i < 768, entry m' page i = 0)
    (hkernel : ∀ i, 768 ≤ i → i < 1024 → entry m' page i = entry m kpgdir i) :
    Forest m' (page :: roots) tables := by
  have hroot : ∀ d ∈ roots, ∀ i < 1024, entry m' d i = entry m d i :=
    fun d hd i hi => hsame.entry (List.mem_append_left _ hd) hi
  have hhalf : pdx kernBase = 768 := by decide
  -- an entry in use of the new directory is one of `kpgdir`
  have hnew : ∀ i < 1024, entry m' page i ≠ 0 →
      768 ≤ i ∧ entry m' page i = entry m kpgdir i := by
    intro i hi hne
    by_cases hlow : i < 768
    · exact absurd (huser i hlow) hne
    · exact ⟨by omega, hkernel i (by omega) hi⟩
  constructor
  · intro d hd i hi
    rcases List.mem_cons.mp hd with rfl | hd
    · by_cases hzero : entry m' d i = 0
      · exact Or.inl hzero
      · rw [(hnew i hi hzero).2]
        exact h.pde kpgdir hdir i hi
    · rw [hroot d hd i hi]
      exact h.pde d hd i hi
  · intro d hd d' hd' i hi i' hi' hne hne' htable
    rw [hhalf]
    rcases List.mem_cons.mp hd with rfl | hin <;>
      rcases List.mem_cons.mp hd' with rfl | hin'
    · obtain ⟨hlo, heq⟩ := hnew i hi hne
      obtain ⟨-, heq'⟩ := hnew i' hi' hne'
      rw [heq] at hne htable
      rw [heq'] at hne' htable
      obtain ⟨hindex, -⟩ :=
        h.apart kpgdir hdir kpgdir hdir i hi i' hi' hne hne' htable
      exact ⟨hindex, Or.inl rfl⟩
    · obtain ⟨hlo, heq⟩ := hnew i hi hne
      rw [heq] at hne htable
      rw [hroot d' hin' i' hi'] at hne' htable
      obtain ⟨hindex, -⟩ := h.apart kpgdir hdir d' hin' i hi i' hi' hne hne' htable
      exact ⟨hindex, Or.inr hlo⟩
    · obtain ⟨hlo', heq'⟩ := hnew i' hi' hne'
      rw [heq'] at hne' htable
      rw [hroot d hin i hi] at hne htable
      obtain ⟨hindex, -⟩ := h.apart d hin kpgdir hdir i hi i' hi' hne hne' htable
      exact ⟨hindex, Or.inr (hindex ▸ hlo')⟩
    · rw [hroot d hin i hi] at hne htable
      rw [hroot d' hin' i' hi'] at hne' htable
      obtain ⟨hindex, hdirs⟩ := h.apart d hin d' hin' i hi i' hi' hne hne' htable
      exact ⟨hindex, hhalf ▸ hdirs⟩

/-- `umap_init` returned the directory in `page`. -/
structure NewRoot (k : Kernel) (s : Paging) (kpgdir page : Nat) (k' : Kernel) :
    Prop where
  paging : PagingAt k' { s with roots := page :: s.roots }
  zeroed : Zeroed k' s.chunks
  fresh : page ∉ s.fixed
  same : SamePages k.mem k'.mem s.fixed
  user : ∀ i < 768, entry k'.mem page i = 0
  kernel : ∀ i, 768 ≤ i → i < 1024 → entry k'.mem page i = entry k.mem kpgdir i
  machine : SameMachine k k'

/-- `umap_init` takes one page. -/
theorem umapInit_eq (h : PagingAt k s) (hdir : kpgdir ∈ s.roots) {page : Nat}
    {kvmlist' : Nat → VmBlock}
    (hcall : kvmAllocPage k = .ok (page, k.setKvmlist kvmlist'))
    (havail : availablePages k.kvmlist = page :: availablePages kvmlist') :
    umapInit kpgdir k = .ok (page, (k.setKvmlist kvmlist').setMem
      (directoryMemory k.mem kpgdir page)) := by
  have hpool := h.pool
  rw [havail] at hpool
  have hpage := hpool.fresh_page List.mem_cons_self
  have hne : page ≠ kpgdir := fun heq =>
    hpool.not_mem_fixed (heq ▸ List.mem_append_left _ hdir)
  have hfrom : pdx kernBase = 768 := by decide
  have hcount : npdEntries - 768 = 256 := rfl
  have hcopy : copyEntries kpgdir page 256 768 (k.setKvmlist kvmlist') =
      .ok ((k.setKvmlist kvmlist').setMem
        (directoryMemory k.mem kpgdir page)) :=
    copyEntries_eq (h.root_page hdir) hpage hne 256 768 (by decide) _
  rw [umapInit, hcall, ok_bind]
  dsimp only
  rw [hfrom, hcount, hcopy, ok_bind]

theorem newRoot_of_umapInit (h : PagingAt k s) (hz : Zeroed k s.chunks)
    (hdir : kpgdir ∈ s.roots) {k' : Kernel}
    (hcall : umapInit kpgdir k = .ok (page, k')) :
    NewRoot k s kpgdir page k' := by
  rcases kvmAllocPage_spec k with ⟨-, hnone⟩ |
    ⟨page', kvmlist', halloc, havail, hmapped⟩
  · rw [umapInit, hnone] at hcall
    cases hcall
  · rw [umapInit_eq h hdir halloc havail] at hcall
    obtain ⟨rfl, rfl⟩ := Prod.mk.inj (Except.ok.inj hcall)
    obtain ⟨hfree, hfresh⟩ := hz
    have hpool := h.pool
    rw [havail] at hpool hfresh
    have hpage := hpool.fresh_page List.mem_cons_self
    have htaken : PagePool (page' :: s.fixed) s.pages (availablePages kvmlist') :=
      hpool.take
    have hsame : SamePages k.mem (directoryMemory k.mem kpgdir page')
        (s.pages ++ availablePages kvmlist') :=
      directoryMemory_same hpage (htaken.other List.mem_cons_self)
    have hheap : SamePages k.mem (directoryMemory k.mem kpgdir page') s.pages :=
      fun q hq => hsame q (List.mem_append_left _ hq)
    have hfixed : SamePages k.mem (directoryMemory k.mem kpgdir page')
        s.fixed := by
      refine directoryMemory_same hpage fun q hq => ⟨hpool.fixed_page hq, ?_⟩
      rintro rfl
      exact hpool.not_mem_fixed hq
    have huser : ∀ i < 768,
        entry (directoryMemory k.mem kpgdir page') page' i = 0 := by
      intro i hi
      rw [directoryMemory_user hi]
      exact load32_eq_zero fun x hlo hhi =>
        hfresh page' List.mem_cons_self x (pageExtent_iff.mpr (by omega))
    refine ⟨⟨⟨h.heap.congr_pages hheap, htaken⟩, ?_, ?_⟩, ⟨?_, ?_⟩,
      hpool.not_mem_fixed, hfixed, huser,
      fun i hlo hhi => directoryMemory_kernel hlo hhi, ⟨hmapped, rfl, rfl, rfl⟩⟩
    · exact h.forest.addRoot hdir hfixed huser
        fun i hlo hhi => directoryMemory_kernel hlo hhi
    · exact h.list.congr (h.list.sameNode h.heap.tiling hheap)
    · exact hfree.congr_pages h.heap.tiling hheap
    · intro q hq x hx
      have hq' : q ∈ availablePages kvmlist' := hq
      rw [Kernel.setMem_mem, hsame q (List.mem_append_right _ hq') x hx]
      exact hfresh q (List.mem_cons_of_mem _ hq') x hx

end Copy

/-- Outside the direct map the walks of every directory end outside the
kernel's pages. -/
def Away (m : Memory) (roots : List Nat) : Prop :=
  ∀ d ∈ roots, ∀ va, ¬ (kernBase ≤ va ∧ va < kernBase + memNormal) →
    va < 4294967296 → ∀ t, pageWalk m (v2p d) va = some t →
      t.frame = 0 ∨ memNormal ≤ t.frame

section Stores

variable {k k' : Kernel} {s : Paging} {m' : Memory}

theorem Away.offDirect (h : Away k.mem s.roots) (hpaging : PagingAt k s)
    (hoff : OffDirect k.mem m') : Away m' s.roots := by
  have hfixed : SamePages k.mem m' (s.roots ++ s.tables) :=
    hoff.samePages fun page hpage =>
      hpaging.pool.kernel page (List.mem_append_left _ hpage)
  intro d hd va hout hva t ht
  rw [hpaging.forest.walk_congr hpaging.pool hfixed hd] at ht
  exact h d hd va hout hva t ht

theorem Away.nullAway (h : Away k.mem s.roots) (hcr3 : ∃ d ∈ s.roots,
    k.cr3 = v2p d) : NullAway k s := by
  obtain ⟨d, hd, hcr3⟩ := hcr3
  refine ⟨⟨d, hd, hcr3⟩, fun va hva t ht => h d hd va ?_ ?_ t (hcr3 ▸ ht)⟩
  · simp only [pgSize] at hva
    simp only [kernBase]
    omega
  · simp only [pgSize] at hva
    omega

/-- A store outside the direct map. -/
theorem storeByte_away (haway : Away k.mem s.roots)
    (hcr3 : ∃ d ∈ s.roots, k.cr3 = v2p d) {a : Nat} (ha : a < 4294967296)
    (hout : ¬ (kernBase ≤ a ∧ a < kernBase + memNormal)) {b : UInt8}
    (hcall : storeByte k (u32 a) b = .ok k') : NullStores k k' := by
  obtain ⟨d, hd, hcr3⟩ := hcr3
  rw [u32_of_lt ha, storeByte] at hcall
  cases hwalk : pageWalk k.mem k.cr3 a with
  | none =>
      simp only [resolve, hout, ↓reduceIte, hwalk, Option.map_none] at hcall
      cases hcall
  | some t =>
      simp only [resolve, hout, ↓reduceIte, hwalk, Option.map_some] at hcall
      obtain rfl := Except.ok.inj hcall
      have hframe := haway d hd a hout ha t (hcr3 ▸ hwalk)
      have hpage : a % pgSize < pgSize := Nat.mod_lt _ (by decide)
      refine ⟨_, fun x hlo hhi => store8_of_ne _ _ ?_, rfl⟩
      simp only [pgSize] at hlo hpage ⊢
      omega

theorem NullStores.refl (k : Kernel) : NullStores k k :=
  ⟨k.mem, fun _ _ _ => rfl, rfl⟩

theorem NullStores.memMap (h : NullStores k k') : k'.memMap = k.memMap := by
  obtain ⟨m', -, rfl⟩ := h
  rfl

/-- What follows such stores goes on from the same paging state. -/
theorem NullStores.keeps (h : NullStores k k') (hpaging : PagingAt k s)
    (haway : Away k.mem s.roots) (hcr3 : ∃ d ∈ s.roots, k.cr3 = v2p d) :
    PagingAt k' s ∧ Away k'.mem s.roots ∧ ∃ d ∈ s.roots, k'.cr3 = v2p d := by
  obtain ⟨m', hoff, rfl⟩ := h
  exact ⟨(hpaging.offDirect hoff).1, haway.offDirect hpaging hoff, hcr3⟩

theorem copyUp_away {dest src count : Nat} (hpaging : PagingAt k s)
    (haway : Away k.mem s.roots) (hcr3 : ∃ d ∈ s.roots, k.cr3 = v2p d)
    (hlo : kernBase + memNormal ≤ dest) (hhi : dest + count ≤ 4294967296)
    (hcall : copyUp dest src count k = .ok k') : NullStores k k' := by
  induction count generalizing dest src k with
  | zero =>
      obtain rfl := Except.ok.inj hcall
      exact .refl k
  | succ count ih =>
      obtain ⟨b, -, hcall⟩ := ok_of_bind hcall
      obtain ⟨k₁, hstore, hcall⟩ := ok_of_bind hcall
      have hfirst := storeByte_away haway hcr3 (by omega) (by omega) hstore
      obtain ⟨hpaging₁, haway₁, hcr3₁⟩ := hfirst.keeps hpaging haway hcr3
      exact hfirst.trans (ih hpaging₁ haway₁ hcr3₁ (by omega) (by omega) hcall)

theorem copyDown_away {dest src count : Nat} (hpaging : PagingAt k s)
    (haway : Away k.mem s.roots) (hcr3 : ∃ d ∈ s.roots, k.cr3 = v2p d)
    (hlo : kernBase + memNormal ≤ dest) (hhi : dest + count ≤ 4294967296)
    (hcall : copyDown dest src count k = .ok k') : NullStores k k' := by
  induction count generalizing k with
  | zero =>
      obtain rfl := Except.ok.inj hcall
      exact .refl k
  | succ count ih =>
      obtain ⟨b, -, hcall⟩ := ok_of_bind hcall
      obtain ⟨k₁, hstore, hcall⟩ := ok_of_bind hcall
      have hfirst := storeByte_away haway hcr3 (by omega) (by omega) hstore
      obtain ⟨hpaging₁, haway₁, hcr3₁⟩ := hfirst.keeps hpaging haway hcr3
      exact hfirst.trans (ih hpaging₁ haway₁ hcr3₁ (by omega) hcall)

theorem memmove_away {dest src count : Nat} (hpaging : PagingAt k s)
    (haway : Away k.mem s.roots) (hcr3 : ∃ d ∈ s.roots, k.cr3 = v2p d)
    (hlo : kernBase + memNormal ≤ dest) (hhi : dest + count ≤ 4294967296)
    (hcall : memmove k dest src count = .ok k') : NullStores k k' := by
  rw [memmove] at hcall
  split_ifs at hcall
  · exact copyUp_away hpaging haway hcr3 hlo hhi hcall
  · exact copyDown_away hpaging haway hcr3 hlo hhi hcall

end Stores

end Linda
