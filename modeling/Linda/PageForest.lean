/-
The page directories and page tables of the kernel as a forest: directories
share tables in the kernel half only, every paging page has no other use, and
the writing of one entry changes the walks that meet it and no others.
-/
import Linda.HeapClients
import Linda.KernelMmap

namespace Linda

open ByteMemory

/-- A page of the direct map, other than the first one. -/
structure KernelPage (page : Nat) : Prop where
  aligned : page % 4096 = 0
  lo : kernBase + pgSize ≤ page
  hi : page + pgSize ≤ kernBase + memNormal

theorem KernelPage.bounds {page : Nat} (h : KernelPage page) :
    page % 4096 = 0 ∧ 3221229568 ≤ page ∧ page + 4096 ≤ 4160749568 := by
  obtain ⟨haligned, hlo, hhi⟩ := h
  simp only [kernBase, pgSize, memNormal] at hlo hhi
  omega

theorem KernelPage.root {page : Nat} (h : KernelPage page) :
    kernBase + v2p page = page := by
  obtain ⟨_, hlo, hhi⟩ := h.bounds
  simp only [v2p, sub32, kernBase]
  omega

theorem KernelPage.apart {p q : Nat} (hp : KernelPage p) (hq : KernelPage q)
    (hne : p ≠ q) : (pageExtent p).Disjoint (pageExtent q) := by
  intro x hx hx'
  have hap := hp.aligned
  have haq := hq.aligned
  rw [mem_pageExtent] at hx hx'
  omega

/-- The frame number of a kernel page is the page's own. -/
theorem KernelPage.mask {page : Nat} (h : KernelPage page) :
    v2p page &&& pgMask = v2p page := by
  obtain ⟨haligned, hlo, hhi⟩ := h.bounds
  rw [and_pgMask_eq]
  simp only [v2p, sub32, kernBase]
  omega

/-- The directory entry of a new table. -/
theorem KernelPage.pde {page : Nat} (h : KernelPage page)
    {flags : Nat} (hflags : flags < 4096) :
    tableOf (pteWord (v2p page) flags) = page := by
  rw [pteWord_tableOf hflags, h.mask, h.root]

theorem pageExtent_iff {page x : Nat} :
    x ∈ pageExtent page ↔ page ≤ x ∧ x < page + 4096 := mem_pageExtent

/-- Pages of three uses: `fixed` hold paging structures, `pages` the heap,
`fresh` are not in use yet. -/
structure PagePool (fixed pages fresh : List Nat) : Prop where
  nodup : (fixed ++ (pages ++ fresh)).Nodup
  kernel : ∀ page ∈ fixed ++ (pages ++ fresh), KernelPage page

namespace PagePool

variable {fixed fixed' pages fresh fresh' : List Nat} {page : Nat}

theorem supply (h : PagePool fixed pages fresh) : Supply pages fresh := by
  refine ⟨(List.nodup_append.mp h.nodup).2.1, fun page hpage => ?_⟩
  obtain ⟨haligned, hlo, hhi⟩ :=
    (h.kernel page (List.mem_append_right _ hpage)).bounds
  exact ⟨by omega, haligned, by omega⟩

theorem fixed_page (h : PagePool fixed pages fresh) (hpage : page ∈ fixed) :
    KernelPage page := h.kernel page (List.mem_append_left _ hpage)

theorem fresh_page (h : PagePool fixed pages fresh) (hpage : page ∈ fresh) :
    KernelPage page :=
  h.kernel page (List.mem_append_right _ (List.mem_append_right _ hpage))

theorem perm (h : PagePool fixed pages fresh) (hperm : fixed.Perm fixed') :
    PagePool fixed' pages fresh := by
  have happ := hperm.append_right (pages ++ fresh)
  exact ⟨happ.nodup_iff.mp h.nodup,
    fun page hpage => h.kernel page (happ.mem_iff.mpr hpage)⟩

/-- Pages the heap took. -/
theorem toHeap (h : PagePool fixed pages (fresh ++ fresh')) :
    PagePool fixed (pages ++ fresh) fresh' := by
  obtain ⟨hnodup, hkernel⟩ := h
  rw [← List.append_assoc pages] at hnodup hkernel
  exact ⟨hnodup, hkernel⟩

/-- A page a paging structure took. -/
theorem take (h : PagePool fixed pages (page :: fresh)) :
    PagePool (page :: fixed) pages fresh := by
  have hperm : (fixed ++ (pages ++ page :: fresh)).Perm
      (page :: fixed ++ (pages ++ fresh)) := by
    rw [← List.append_assoc, List.cons_append, ← List.append_assoc]
    exact List.perm_middle
  exact ⟨hperm.nodup_iff.mp h.nodup,
    fun q hq => h.kernel q (hperm.mem_iff.mpr hq)⟩

/-- The bytes of a paging page are no bytes of the heap or of unused pages. -/
theorem offHeap (h : PagePool fixed pages fresh) (hpage : page ∈ fixed)
    {x : Nat} (hx : x ∈ pageExtent page) : OffHeap (pages ++ fresh) x := by
  intro q hq hxq
  have hne : page ≠ q := fun heq =>
    (List.nodup_append.mp h.nodup).2.2 page hpage q hq heq
  exact (h.fixed_page hpage).apart (h.kernel q (List.mem_append_right _ hq))
    hne x hx hxq

/-- A paging page is no page of the heap and not unused. -/
theorem other (h : PagePool fixed pages fresh) {t : Nat} (ht : t ∈ fixed) :
    ∀ q ∈ pages ++ fresh, KernelPage q ∧ q ≠ t := fun q hq =>
  ⟨h.kernel q (List.mem_append_right _ hq), fun heq =>
    (List.nodup_append.mp h.nodup).2.2 t ht q hq heq.symm⟩

theorem not_mem_fixed (h : PagePool fixed pages (page :: fresh)) :
    page ∉ fixed := fun hin =>
  (List.nodup_append.mp h.nodup).2.2 page hin page (by simp) rfl

/-- The bytes of an unused page are no bytes of the heap. -/
theorem fresh_offHeap (h : PagePool fixed pages fresh) (hpage : page ∈ fresh)
    {x : Nat} (hx : x ∈ pageExtent page) : OffHeap pages x :=
  offHeap_iff.mpr (h.supply.outside hpage hx)

end PagePool

/-- `m'` shows the bytes of the pages as `m` does. -/
def SamePages (m m' : Memory) (pages : List Nat) : Prop :=
  ∀ page ∈ pages, ∀ x ∈ pageExtent page, m' x = m x

theorem SamePages.refl (m : Memory) (pages : List Nat) : SamePages m m pages :=
  fun _ _ _ _ => rfl

theorem SamePages.trans {m₁ m₂ m₃ : Memory} {pages : List Nat}
    (h₁ : SamePages m₁ m₂ pages) (h₂ : SamePages m₂ m₃ pages) :
    SamePages m₁ m₃ pages := fun page hpage x hx =>
  (h₂ page hpage x hx).trans (h₁ page hpage x hx)

theorem SamePages.entry {m m' : Memory} {pages : List Nat} {page i : Nat}
    (h : SamePages m m' pages) (hpage : page ∈ pages) (hi : i < 1024) :
    entry m' page i = entry m page i :=
  entry_congr hi fun x hlo hhi =>
    h page hpage x (pageExtent_iff.mpr ⟨hlo, hhi⟩)

/-- The directories `roots` over the tables `tables`. -/
structure Forest (m : Memory) (roots tables : List Nat) : Prop where
  pde : ∀ d ∈ roots, ∀ i < 1024,
    entry m d i = 0 ∨ tableOf (entry m d i) ∈ tables
  apart : ∀ d ∈ roots, ∀ d' ∈ roots, ∀ i < 1024, ∀ i' < 1024,
    entry m d i ≠ 0 → entry m d' i' ≠ 0 →
      tableOf (entry m d i) = tableOf (entry m d' i') →
        i = i' ∧ (d = d' ∨ pdx kernBase ≤ i)

/-- Every directory entry in use is one `mmap_do_map` or `kmap_init` makes. -/
def AllPlain (m : Memory) (roots : List Nat) : Prop :=
  ∀ d ∈ roots, ∀ i < 1024, entry m d i = 0 ∨ PlainEntry (entry m d i)

/-- Where the page table entry of the page of `va` is in memory. -/
def slotOf (m : Memory) (d va : Nat) : Nat :=
  tableOf (entry m d (pdx va)) + 4 * ptx va

/-- The walk from `d` at `va` reads the page table entry at `slot`. -/
def Meets (m : Memory) (d va slot : Nat) : Prop :=
  entry m d (pdx va) ≠ 0 ∧ slotOf m d va = slot

instance (m : Memory) (d va slot : Nat) : Decidable (Meets m d va slot) :=
  inferInstanceAs (Decidable (_ ∧ _))

theorem pageWalk_root {m : Memory} {d : Nat} (hd : KernelPage d) (va : Nat) :
    pageWalk m (v2p d) va = walkEntry m (entry m d (pdx va)) va := by
  rw [pageWalk, hd.root]

/-- The code tests a directory entry by its frame. -/
theorem Forest.mask_eq_zero_iff {m : Memory} {roots tables pages fresh : List Nat}
    (h : Forest m roots tables)
    (hpool : PagePool (roots ++ tables) pages fresh) {d i : Nat}
    (hd : d ∈ roots) (hi : i < 1024) :
    entry m d i &&& pgMask = 0 ↔ entry m d i = 0 := by
  constructor
  · intro hmask
    rcases h.pde d hd i hi with hzero | htable
    · exact hzero
    · have hlo := (hpool.fixed_page (List.mem_append_right _ htable)).lo
      simp only [tableOf, hmask, pgSize] at hlo
      omega
  · rintro hzero
    simp [hzero]

namespace Forest

variable {m m' : Memory} {roots tables pages fresh : List Nat}
  {d d' i i' va va' t j v : Nat}

theorem table (h : Forest m roots tables) (hd : d ∈ roots) (hi : i < 1024)
    (hne : entry m d i ≠ 0) : tableOf (entry m d i) ∈ tables :=
  (h.pde d hd i hi).resolve_left hne

theorem congr (h : Forest m roots tables)
    (hsame : SamePages m m' (roots ++ tables)) : Forest m' roots tables := by
  have hentry : ∀ d ∈ roots, ∀ i < 1024, entry m' d i = entry m d i :=
    fun d hd i hi => hsame.entry (List.mem_append_left _ hd) hi
  constructor
  · intro d hd i hi
    rw [hentry d hd i hi]
    exact h.pde d hd i hi
  · intro d hd d' hd' i hi i' hi'
    rw [hentry d hd i hi, hentry d' hd' i' hi']
    exact h.apart d hd d' hd' i hi i' hi'

/-- A walk reads the pages of the forest only. -/
theorem walk_congr (h : Forest m roots tables)
    (hpool : PagePool (roots ++ tables) pages fresh)
    (hsame : SamePages m m' (roots ++ tables)) (hd : d ∈ roots) (va : Nat) :
    pageWalk m' (v2p d) va = pageWalk m (v2p d) va := by
  have hpage := hpool.fixed_page (List.mem_append_left tables hd)
  have hentry := hsame.entry (List.mem_append_left _ hd) (pdx_lt va)
  rw [pageWalk_root hpage, pageWalk_root hpage, hentry]
  by_cases hne : entry m d (pdx va) = 0
  · rw [hne, walkEntry_zero, walkEntry_zero]
  · have htable := h.table hd (pdx_lt va) hne
    have hpte := hsame.entry (List.mem_append_right _ htable) (ptx_lt va)
    rw [walkEntry, walkEntry, hpte]

/-- Two walks that read one entry go to one page, from one directory or in the
kernel half. -/
theorem meets_same (h : Forest m roots tables)
    (hpool : PagePool (roots ++ tables) pages fresh) (hd : d ∈ roots)
    (hd' : d' ∈ roots) {slot : Nat} (hmeets : Meets m d va slot)
    (hmeets' : Meets m d' va' slot) :
    pdx va = pdx va' ∧ ptx va = ptx va' ∧ (d = d' ∨ pdx kernBase ≤ pdx va) := by
  obtain ⟨hne, hslot⟩ := hmeets
  obtain ⟨hne', hslot'⟩ := hmeets'
  have htable := (hpool.fixed_page (List.mem_append_right _
    (h.table hd (pdx_lt va) hne))).aligned
  have htable' := (hpool.fixed_page (List.mem_append_right _
    (h.table hd' (pdx_lt va') hne'))).aligned
  have hlt := ptx_lt va
  have hlt' := ptx_lt va'
  simp only [slotOf] at hslot hslot'
  have hsame : tableOf (entry m d (pdx va)) = tableOf (entry m d' (pdx va')) := by
    omega
  obtain ⟨hpdx, hdir⟩ :=
    h.apart d hd d' hd' _ (pdx_lt va) _ (pdx_lt va') hne hne' hsame
  exact ⟨hpdx, by omega, hdir⟩

section SetEntry

variable (h : Forest m roots tables)
  (hpool : PagePool (roots ++ tables) pages fresh) (ht : t ∈ tables)
  (hj : j < 1024)

include hpool ht hj

/-- The entry of a table is none of a directory. -/
theorem entry_setEntry (hd : d ∈ roots) (hi : i < 1024) :
    entry (setEntry m t j v) d i = entry m d i := by
  have htable := hpool.fixed_page (List.mem_append_right roots ht)
  have hroot := hpool.fixed_page (List.mem_append_left tables hd)
  have hdisj := (List.nodup_append.mp
    (List.nodup_append.mp hpool.nodup).1).2.2
  exact entry_setEntry_of_ne htable.aligned hroot.aligned hj hi
    (Or.inl (hdisj d hd t ht))

include h

theorem setPte : Forest (setEntry m t j v) roots tables := by
  constructor
  · intro d hd i hi
    rw [entry_setEntry hpool ht hj hd hi]
    exact h.pde d hd i hi
  · intro d hd d' hd' i hi i' hi'
    rw [entry_setEntry hpool ht hj hd hi, entry_setEntry hpool ht hj hd' hi']
    exact h.apart d hd d' hd' i hi i' hi'

/-- Writing a page table entry changes the walks that read it. -/
theorem walk_setEntry (hplain : AllPlain m roots) (hd : d ∈ roots) (va : Nat) :
    pageWalk (setEntry m t j v) (v2p d) va =
      if Meets m d va (t + 4 * j) then
        leaf (entry m d (pdx va)) (v % 4294967296)
      else pageWalk m (v2p d) va := by
  have hpage := hpool.fixed_page (List.mem_append_left tables hd)
  rw [pageWalk_root hpage, pageWalk_root hpage,
    entry_setEntry hpool ht hj hd (pdx_lt va)]
  rcases hplain d hd _ (pdx_lt va) with hzero | hpde
  · rw [hzero, walkEntry_zero, walkEntry_zero, if_neg fun hm => hm.1 hzero]
  · have htable := h.table hd (pdx_lt va) hpde.ne_zero
    have halign := (hpool.fixed_page (List.mem_append_right _ htable)).aligned
    have halign' := (hpool.fixed_page (List.mem_append_right roots ht)).aligned
    have hlt := ptx_lt va
    rw [hpde.walk, hpde.walk]
    by_cases hmeets : Meets m d va (t + 4 * j)
    · have hslot := hmeets.2
      simp only [slotOf] at hslot
      have htab : tableOf (entry m d (pdx va)) = t := by omega
      have hptx : ptx va = j := by omega
      rw [if_pos hmeets, htab, hptx, entry_setEntry_same]
    · rw [if_neg hmeets]
      congr 1
      apply entry_setEntry_of_ne halign' halign hj hlt
      by_contra hcon
      push Not at hcon
      refine hmeets ⟨hpde.ne_zero, ?_⟩
      rw [slotOf, hcon.1, hcon.2]

end SetEntry

section AddTable

variable {page pde : Nat} (h : Forest m roots tables)
  (hpool : PagePool (roots ++ tables) pages (page :: fresh)) (hd : d ∈ roots)
  (hi : i < 1024) (hpde : tableOf pde = page) (hlt : pde < 4294967296)

include hpool hd hi

/-- Tables in use and the new one are not touched. -/
theorem table_addTable (ht : t ∈ page :: tables) (hj : j < 1024) :
    entry (setEntry (fill m page 4096 0) d i pde) t j =
      if t = page then 0 else entry m t j := by
  have hpage := (hpool.fresh_page List.mem_cons_self).aligned
  have hroot := (hpool.fixed_page (List.mem_append_left tables hd)).aligned
  have hmem : t ∈ tables ∨ t = page := by
    rcases List.mem_cons.mp ht with rfl | ht
    · exact Or.inr rfl
    · exact Or.inl ht
  have hne : t ≠ d := by
    rcases hmem with ht | rfl
    · have hdisj := (List.nodup_append.mp
        (List.nodup_append.mp hpool.nodup).1).2.2
      exact fun heq => hdisj d hd t ht heq.symm
    · exact fun heq => hpool.not_mem_fixed (heq ▸ List.mem_append_left tables hd)
  have halign : t % 4096 = 0 := by
    rcases hmem with ht | rfl
    · exact (hpool.fixed_page (List.mem_append_right roots ht)).aligned
    · exact hpage
  rw [entry_setEntry_of_ne hroot halign hi hj (Or.inl hne)]
  split_ifs with heq
  · rw [heq]
    exact entry_fill_zero hj
  · exact entry_fill_of_ne hpage halign hj heq

include hlt

/-- The directories after entry `i` of `d` got the new table. -/
theorem entry_addTable (hd' : d' ∈ roots) (hi' : i' < 1024) :
    entry (setEntry (fill m page 4096 0) d i pde) d' i' =
      if d' = d ∧ i' = i then pde else entry m d' i' := by
  have hroot := (hpool.fixed_page (List.mem_append_left tables hd)).aligned
  have hroot' := (hpool.fixed_page (List.mem_append_left tables hd')).aligned
  have hpage := (hpool.fresh_page List.mem_cons_self).aligned
  have hne : d' ≠ page := fun heq =>
    hpool.not_mem_fixed (heq ▸ List.mem_append_left tables hd')
  split_ifs with heq
  · obtain ⟨rfl, rfl⟩ := heq
    rw [entry_setEntry_same]
    exact Nat.mod_eq_of_lt hlt
  · rw [entry_setEntry_of_ne hroot hroot' hi hi' (by tauto),
      entry_fill_of_ne hpage hroot' hi' hne]

include h hpde

theorem addTable :
    Forest (setEntry (fill m page 4096 0) d i pde) roots
      (page :: tables) := by
  have hnot : page ∉ tables := fun hin =>
    hpool.not_mem_fixed (List.mem_append_right _ hin)
  -- the new table is the table of no other entry
  have hfresh : ∀ d' ∈ roots, ∀ i' < 1024, entry m d' i' ≠ 0 →
      tableOf (entry m d' i') ≠ page := fun d' hd' i' hi' hne heq =>
    hnot (heq ▸ h.table hd' hi' hne)
  constructor
  · intro d' hd' i' hi'
    rw [entry_addTable hpool hd hi hlt hd' hi']
    split_ifs
    · exact Or.inr (hpde ▸ List.mem_cons_self)
    · exact (h.pde d' hd' i' hi').imp_right (List.mem_cons_of_mem _)
  · intro d₁ hd₁ d₂ hd₂ i₁ hi₁ i₂ hi₂
    rw [entry_addTable hpool hd hi hlt hd₁ hi₁,
      entry_addTable hpool hd hi hlt hd₂ hi₂]
    intro hne₁ hne₂ htab
    split_ifs at hne₁ hne₂ htab with heq₁ heq₂ heq₂
    · exact ⟨heq₁.2.trans heq₂.2.symm, Or.inl (heq₁.1.trans heq₂.1.symm)⟩
    · exact absurd (htab.symm.trans hpde) (hfresh d₂ hd₂ i₂ hi₂ hne₂)
    · exact absurd (htab.trans hpde) (hfresh d₁ hd₁ i₁ hi₁ hne₁)
    · exact h.apart d₁ hd₁ d₂ hd₂ i₁ hi₁ i₂ hi₂ hne₁ hne₂ htab

/-- An empty table maps nothing, as the empty directory entry did. -/
theorem walk_addTable (hzero : entry m d i = 0) (hplain : PlainEntry pde)
    (hd' : d' ∈ roots) (va : Nat) :
    pageWalk (setEntry (fill m page 4096 0) d i pde) (v2p d') va =
      pageWalk m (v2p d') va := by
  have hpage := hpool.fixed_page (List.mem_append_left tables hd')
  rw [pageWalk_root hpage, pageWalk_root hpage,
    entry_addTable hpool hd hi hlt hd' (pdx_lt va)]
  split_ifs with heq
  · rw [heq.1, heq.2, hzero, walkEntry_zero, hplain.walk, hpde,
      table_addTable hpool hd hi List.mem_cons_self (ptx_lt va),
      if_pos rfl, leaf_zero]
  · by_cases hne : entry m d' (pdx va) = 0
    · rw [hne, walkEntry_zero, walkEntry_zero]
    · have htable := h.table hd' (pdx_lt va) hne
      have hnot : tableOf (entry m d' (pdx va)) ≠ page := fun heq' =>
        hpool.not_mem_fixed (List.mem_append_right _ (heq' ▸ htable))
      rw [walkEntry, walkEntry, table_addTable hpool hd hi
        (List.mem_cons_of_mem _ htable) (ptx_lt va), if_neg hnot]

end AddTable

end Forest

end Linda
