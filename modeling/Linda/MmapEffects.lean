/-
The effect of a whole call of `mmap_do_unmap` or `mmap_do_map`: one page table
entry below one directory, seen through the walks of every directory.
-/
import Linda.MmapSteps

namespace Linda

open ByteMemory LinkedSegment FuelLoop

/-- From `m` to `m'` the page table entry of the page of `va` below `d` became
`pte`; a directory entry that was empty may have got a table for it. -/
structure PteWrite (m m' : Memory) (roots : List Nat) (d va flags pte : Nat) :
    Prop where
  pde : ∀ d' ∈ roots, ∀ i < 1024, entry m' d' i = entry m d' i ∨
    (d' = d ∧ i = pdx va) ∧ entry m d' i = 0 ∧
      ∃ addr, entry m' d' i = pteWord addr flags
  walk : AllPlain m roots → flags.testBit 7 = false → ∀ d' ∈ roots, ∀ va',
    pageWalk m' (v2p d') va' =
      if Meets m' d' va' (slotOf m' d va) then
        leaf (entry m' d' (pdx va')) pte
      else pageWalk m (v2p d') va'

section Writes

variable {m m₁ m₂ : Memory} {roots tables pages fresh : List Nat}
  {d d' va va' flags pte pte₁ i : Nat}

/-- The slot below an empty directory entry is in no table. -/
theorem Forest.not_meets_empty (h : Forest m roots tables)
    (hpool : PagePool (roots ++ tables) pages fresh) (hd' : d' ∈ roots)
    (hzero : entry m d (pdx va) = 0) : ¬ Meets m d' va' (slotOf m d va) := by
  rintro ⟨hne, hslot⟩
  have htable := h.table hd' (pdx_lt va') hne
  have hlo := (hpool.fixed_page (List.mem_append_right _ htable)).lo
  have hptx := ptx_lt va
  simp only [slotOf, hzero, tableOf, Nat.zero_and] at hslot
  simp only [tableOf, pgSize] at hlo
  omega

theorem meets_slot_congr (h : entry m₁ d (pdx va) = entry m d (pdx va))
    (h' : entry m₁ d' (pdx va') = entry m d' (pdx va')) :
    Meets m₁ d' va' (slotOf m₁ d va) ↔ Meets m d' va' (slotOf m d va) := by
  simp only [Meets, slotOf, h, h']

namespace PteWrite

theorem pde_of_ne (h : PteWrite m m₁ roots d va flags pte) (hd' : d' ∈ roots)
    (hi : i < 1024) (hne : entry m d' i ≠ 0) : entry m₁ d' i = entry m d' i :=
  (h.pde d' hd' i hi).resolve_right fun hnew => hne hnew.2.1

theorem allPlain (h : PteWrite m m₁ roots d va flags pte)
    (hplain : AllPlain m roots) (hsmall : flags.testBit 7 = false) :
    AllPlain m₁ roots := by
  intro d' hd' i hi
  rcases h.pde d' hd' i hi with hsame | ⟨_, _, addr, hnew⟩
  · rw [hsame]
    exact hplain d' hd' i hi
  · rw [hnew]
    exact Or.inr (pteWord_plain hsmall)

/-- A walk that meets the slot before the write meets it afterwards. -/
theorem meets (h : PteWrite m m₁ roots d va flags pte)
    (hforest : Forest m roots tables)
    (hpool : PagePool (roots ++ tables) pages fresh) (hd : d ∈ roots)
    (hd' : d' ∈ roots) (hmeets : Meets m d' va' (slotOf m d va)) :
    Meets m₁ d' va' (slotOf m₁ d va) := by
  have hne : entry m d (pdx va) ≠ 0 := fun hzero =>
    hforest.not_meets_empty hpool hd' hzero hmeets
  have hsame := h.pde_of_ne hd (pdx_lt va) hne
  have hsame' := h.pde_of_ne hd' (pdx_lt va') hmeets.1
  exact (meets_slot_congr hsame hsame').mpr hmeets

/-- The last write of two to one entry counts. -/
theorem trans (h₁ : PteWrite m m₁ roots d va flags pte₁)
    (h₂ : PteWrite m₁ m₂ roots d va flags pte)
    (hforest : Forest m₁ roots tables)
    (hpool : PagePool (roots ++ tables) pages fresh) (hd : d ∈ roots) :
    PteWrite m m₂ roots d va flags pte := by
  constructor
  · intro d' hd' i hi
    rcases h₂.pde d' hd' i hi with hsame | ⟨hat, hzero, hnew⟩
    · rw [hsame]
      exact h₁.pde d' hd' i hi
    · refine Or.inr ⟨hat, ?_, hnew⟩
      by_contra hne
      exact hne (h₁.pde_of_ne hd' hi hne ▸ hzero)
  · intro hplain hsmall d' hd' va'
    rw [h₂.walk (h₁.allPlain hplain hsmall) hsmall d' hd',
      h₁.walk hplain hsmall d' hd']
    by_cases hmeets : Meets m₂ d' va' (slotOf m₂ d va)
    · rw [if_pos hmeets, if_pos hmeets]
    · rw [if_neg hmeets, if_neg hmeets, if_neg fun hold =>
        hmeets (h₂.meets hforest hpool hd hd' hold)]

/-- What is written besides the paging pages does not matter. -/
theorem same (h : PteWrite m m₁ roots d va flags pte)
    (hforest : Forest m₁ roots tables)
    (hpool : PagePool (roots ++ tables) pages fresh) (hd : d ∈ roots)
    (hsame : SamePages m₁ m₂ (roots ++ tables)) :
    PteWrite m m₂ roots d va flags pte := by
  have hentry : ∀ d' ∈ roots, ∀ i < 1024, entry m₂ d' i = entry m₁ d' i :=
    fun d' hd' i hi => hsame.entry (List.mem_append_left _ hd') hi
  constructor
  · intro d' hd' i hi
    rw [hentry d' hd' i hi]
    exact h.pde d' hd' i hi
  · intro hplain hsmall d' hd' va'
    have hsame' := hentry d' hd' _ (pdx_lt va')
    rw [hforest.walk_congr hpool hsame hd', h.walk hplain hsmall d' hd', hsame']
    exact if_congr (meets_slot_congr (hentry d hd _ (pdx_lt va)) hsame').symm
      rfl rfl

end PteWrite

end Writes

section Places

variable {k : Kernel} {s : Paging} {d va pa flags : Nat}

/-- Writing an entry of a table in use. -/
theorem PagingAt.setPte_write (h : PagingAt k s) (hd : d ∈ s.roots)
    (hne : entry k.mem d (pdx va) ≠ 0) {v : Nat} (hv : v < 4294967296)
    (flags : Nat) :
    PteWrite k.mem
      (setEntry k.mem (tableOf (entry k.mem d (pdx va))) (ptx va) v)
      s.roots d va flags v := by
  have htable := (h.table_pointer hd hne).2.2
  have hsame : ∀ d' ∈ s.roots, ∀ i < 1024, entry (setEntry k.mem
      (tableOf (entry k.mem d (pdx va))) (ptx va) v) d' i = entry k.mem d' i :=
    fun d' hd' i hi =>
      Forest.entry_setEntry h.pool htable (ptx_lt va) hd' hi
  refine ⟨fun d' hd' i hi => Or.inl (hsame d' hd' i hi), ?_⟩
  intro hplain _ d' hd' va'
  have hsame' := hsame d' hd' _ (pdx_lt va')
  rw [h.forest.walk_setEntry h.pool htable (ptx_lt va) hplain hd',
    Nat.mod_eq_of_lt hv, hsame']
  exact if_congr (meets_slot_congr (hsame d hd _ (pdx_lt va)) hsame').symm
    rfl rfl

/-- The nodes `mmap_do_unmap` leaves: it looks at the list only below a
directory entry in use. -/
def leftNodes (m : Memory) (d va : Nat) (nodes : List Nat) : List Nat :=
  if entry m d (pdx va) = 0 then nodes
  else unlinkNodes m (va &&& pgMask) nodes

theorem unlinkNodes_congr {m m' : Memory} {page : Nat} {nodes : List Nat}
    (h : ∀ n ∈ nodes, nodeEntry m' n = nodeEntry m n) :
    unlinkNodes m' page nodes = unlinkNodes m page nodes := by
  cases nodes with
  | nil => rfl
  | cons n rest =>
      have hrest : rest.eraseP (fun n => (nodeEntry m' n).1 = page) =
          rest.eraseP fun n => (nodeEntry m n).1 = page := by
        induction rest with
        | nil => rfl
        | cons c rest ih =>
            have hc := h c (by simp)
            have htail := ih fun b hb => by
              rcases List.mem_cons.mp hb with rfl | hb
              · exact h b (by simp)
              · exact h b (by simp [hb])
            simp only [List.eraseP_cons, hc, htail]
      simp only [unlinkNodes, h n List.mem_cons_self, hrest]

theorem unlinkNodes_subset {m : Memory} {page : Nat} {nodes : List Nat} :
    ∀ n ∈ unlinkNodes m page nodes, n ∈ nodes := by
  intro n hn
  cases nodes with
  | nil => simp [unlinkNodes] at hn
  | cons c rest =>
      rw [unlinkNodes] at hn
      split_ifs at hn with hpage
      · simp at hn
      · rcases List.mem_cons.mp hn with rfl | hn
        · exact List.mem_cons_self
        · exact List.mem_cons_of_mem _ (List.mem_of_mem_eraseP hn)

/-- `mmap_do_unmap` returned: `k'` is the kernel and `s'` its paging state. -/
structure Unmapped (k : Kernel) (s : Paging) (d va : Nat) (k' : Kernel)
    (s' : Paging) : Prop where
  paging : PagingAt k' s'
  roots : s'.roots = s.roots
  tables : s'.tables = s.tables
  nodes : s'.nodes = leftNodes k.mem d va s.nodes
  entries : ∀ n ∈ s'.nodes, nodeEntry k'.mem n = nodeEntry k.mem n
  pde : ∀ d' ∈ s.roots, ∀ i < 1024, entry k'.mem d' i = entry k.mem d' i
  write : ∀ flags, PteWrite k.mem k'.mem s.roots d va flags 0
  zeroed : Zeroed k s.chunks → Zeroed k' s'.chunks
  kvmlist : k'.kvmlist = k.kvmlist
  machine : SameMachine k k'

/-- `mmap_do_unmap` always returns, and leaves the rest alone. -/
theorem unmapped_framed (h : PagingAt k s) (hd : d ∈ s.roots) (va : Nat) :
    ∃ k' s', Settles (fun fuel => mmapDoUnmap fuel k d va) (.ok k') ∧
      Unmapped k s d va k' s' ∧ Framed k s k' s' := by
  by_cases hzero : entry k.mem d (pdx va) = 0
  · refine ⟨k, s, ?_, ?_, .refl k s⟩
    · simp only [mmapDoUnmap_empty h hd hzero]
      exact settles_const _
    · refine ⟨h, rfl, rfl, ?_, fun _ _ => rfl, fun _ _ _ _ => rfl, ?_,
        fun hz => hz, rfl, .refl k⟩
      · rw [leftNodes, if_pos hzero]
      · intro flags
        refine ⟨fun _ _ _ _ => Or.inl rfl, fun _ _ d' hd' va' => ?_⟩
        rw [if_neg (h.forest.not_meets_empty h.pool hd' hzero)]
  · obtain ⟨hpaging, hzeroed, hsame, k', chunks', hcall, hun, hframed⟩ :=
      mmapDoUnmap_settles h hd hzero
    have hentries : ∀ n ∈ s.nodes, nodeEntry _ n = nodeEntry k.mem n :=
      fun n hn => (hsame n hn).entry
    have hnodes : unlinkNodes _ (va &&& pgMask) s.nodes =
        unlinkNodes k.mem (va &&& pgMask) s.nodes := unlinkNodes_congr hentries
    rw [hnodes] at hun hframed
    have hwrite := h.setPte_write hd hzero (show 0 < 4294967296 by omega)
    have hpages : SamePages _ k'.mem (s.roots ++ s.tables) := hun.same
    refine ⟨k', _, hcall, ⟨hun.paging, rfl, rfl, ?_, ?_, ?_, ?_,
      fun hz => hun.zeroed (hzeroed hz), hun.kvmlist,
      ⟨hun.machine.mapped, hun.machine.memMap, hun.machine.cr3,
        hun.machine.curproc⟩⟩, hframed⟩
    · rw [leftNodes, if_neg hzero]
      rfl
    · intro n hn
      have hin : n ∈ s.nodes := unlinkNodes_subset n hn
      rw [hun.entries n hn]
      exact hentries n hin
    · intro d' hd' i hi
      rw [hpages.entry (List.mem_append_left _ hd') hi]
      exact Forest.entry_setEntry h.pool (h.table_pointer hd hzero).2.2
        (ptx_lt va) hd' hi
    · intro flags
      exact (hwrite flags).same hpaging.forest hpaging.pool hd hpages

theorem unmapped_settles (h : PagingAt k s) (hd : d ∈ s.roots) (va : Nat) :
    ∃ k' s', Settles (fun fuel => mmapDoUnmap fuel k d va) (.ok k') ∧
      Unmapped k s d va k' s' := by
  obtain ⟨k', s', hcall, hun, -⟩ := unmapped_framed h hd va
  exact ⟨k', s', hcall, hun⟩

/-- `mapEntry` returned; `tables'` are the tables afterwards. -/
structure Placed (k : Kernel) (s : Paging) (d va pa flags : Nat) (k' : Kernel)
    (tables' : List Nat) : Prop where
  paging : PagingAt k' { s with tables := tables' }
  present : entry k'.mem d (pdx va) ≠ 0
  fresh : entry k.mem d (pdx va) = 0 →
    tableOf (entry k'.mem d (pdx va)) ∉ s.tables
  write : PteWrite k.mem k'.mem s.roots d va flags (pteWord pa flags)
  nodes : ∀ n ∈ s.nodes, SameNode k.mem k'.mem n
  zeroed : Zeroed k s.chunks → Zeroed k' s.chunks
  machine : SameMachine k k'

/-- The memory with an empty table in `page` below `d`. -/
def tableMemory (m : Memory) (page d va flags : Nat) : Memory :=
  setEntry (fill m page 4096 0) d (pdx va) (pteWord (v2p page) flags)

/-- A new table maps nothing yet. -/
theorem PagingAt.addTable_write (h : PagingAt k s) (hd : d ∈ s.roots)
    (hzero : entry k.mem d (pdx va) = 0) {page : Nat}
    {kvmlist' : Nat → VmBlock}
    (havail : availablePages k.kvmlist = page :: availablePages kvmlist')
    (hflags : flags < 4096) :
    PteWrite k.mem (tableMemory k.mem page d va flags) s.roots d va flags
      0 := by
  have hpool := h.pool
  rw [havail] at hpool
  have hpage := hpool.fresh_page List.mem_cons_self
  have hpde := hpage.pde hflags
  have hlt : pteWord (v2p page) flags < 4294967296 := pteWord_lt hflags
  have hentry : ∀ d' ∈ s.roots, ∀ i < 1024,
      entry (tableMemory k.mem page d va flags) d' i =
        if d' = d ∧ i = pdx va then pteWord (v2p page) flags
        else entry k.mem d' i := by
    intro d' hd' i hi
    rw [tableMemory]
    exact Forest.entry_addTable hpool hd (pdx_lt va) hlt hd' hi
  constructor
  · intro d' hd' i hi
    rw [hentry d' hd' i hi]
    split_ifs with hat
    · refine Or.inr ⟨hat, ?_, v2p page, rfl⟩
      rw [hat.1, hat.2]
      exact hzero
    · exact Or.inl rfl
  · intro hplain hsmall d' hd' va'
    have hwalk : pageWalk (tableMemory k.mem page d va flags) (v2p d') va' =
        pageWalk k.mem (v2p d') va' := by
      rw [tableMemory]
      exact h.forest.walk_addTable hpool hd (pdx_lt va) hpde hlt hzero
        (pteWord_plain hsmall) hd' va'
    rw [hwalk]
    split_ifs with hmeets
    · -- what meets the new table met the empty directory entry
      rw [leaf_zero, pageWalk_root (h.root_page hd')]
      obtain ⟨hne, hslot⟩ := hmeets
      have hd₁ := hentry d hd _ (pdx_lt va)
      have hd₂ := hentry d' hd' _ (pdx_lt va')
      rw [if_pos ⟨rfl, rfl⟩] at hd₁
      rw [slotOf, slotOf, hd₁, hpde] at hslot
      by_cases hat : d' = d ∧ pdx va' = pdx va
      · rw [hat.1, hat.2, hzero, walkEntry_zero]
      · rw [if_neg hat] at hd₂
        rw [hd₂] at hne hslot
        have htable := h.forest.table hd' (pdx_lt va') hne
        have haligned := (h.table_page htable).aligned
        have hptx := ptx_lt va
        have hptx' := ptx_lt va'
        have hpageAligned := hpage.aligned
        have heq : tableOf (entry k.mem d' (pdx va')) = page := by omega
        rw [heq] at htable
        exact absurd (List.mem_append_right _ htable) hpool.not_mem_fixed
    · rfl

/-- A page table for the page of `va`, and the entry in it. -/
theorem PagingAt.placed_new (h : PagingAt k s) (hd : d ∈ s.roots)
    (hzero : entry k.mem d (pdx va) = 0) {page : Nat}
    {kvmlist' : Nat → VmBlock}
    (havail : availablePages k.kvmlist = page :: availablePages kvmlist')
    (hmapped : SameMapped k.kvmlist kvmlist') (hflags : flags < 4096)
    (pa : Nat) :
    Placed k s d va pa flags ((k.setKvmlist kvmlist').setMem
      (setEntry (tableMemory k.mem page d va flags) page (ptx va)
        (pteWord pa flags))) (page :: s.tables) := by
  have hpool := h.pool
  rw [havail] at hpool
  have hpde := (hpool.fresh_page List.mem_cons_self).pde hflags
  have hlt : pteWord (v2p page) flags < 4294967296 := pteWord_lt hflags
  obtain ⟨hpaging, hzeroed, hnodes⟩ :=
    h.addTable hd (pdx_lt va) havail hpde hlt
  rw [← tableMemory] at hpaging hzeroed hnodes
  have hadd := h.addTable_write hd hzero havail hflags
  have hroot : entry (tableMemory k.mem page d va flags) d (pdx va) =
      pteWord (v2p page) flags := by
    rw [tableMemory, Forest.entry_addTable hpool hd (pdx_lt va) hlt hd
      (pdx_lt va), if_pos ⟨rfl, rfl⟩]
  have hne : entry (tableMemory k.mem page d va flags) d (pdx va) ≠ 0 :=
    hroot ▸ pteWord_ne_zero
  -- the second write is one to a table in use
  obtain ⟨_, _, htable⟩ := hpaging.table_pointer hd hne
  have hwrite := hpaging.setPte_write hd hne (v := pteWord pa flags)
    (pteWord_lt hflags) flags
  simp only [Kernel.setMem_mem, hroot, hpde] at htable hwrite
  obtain ⟨hplaced, hzeroed', hnodes'⟩ :=
    hpaging.setPte htable (ptx_lt va) (pteWord pa flags)
  have hpresent : entry (setEntry (tableMemory k.mem page d va flags) page
      (ptx va) (pteWord pa flags)) d (pdx va) = _ :=
    Forest.entry_setEntry hpaging.pool htable (ptx_lt va) hd (pdx_lt va)
  refine ⟨hplaced, ?_, fun _ => ?_, ?_, ?_, fun hz => hzeroed' (hzeroed hz),
    ⟨hmapped, rfl, rfl, rfl⟩⟩
  · exact hpresent.symm ▸ hne
  · rw [Kernel.setMem_mem, hpresent, hroot, hpde]
    exact fun hin => hpool.not_mem_fixed (List.mem_append_right _ hin)
  · exact hadd.trans hwrite hpaging.forest hpaging.pool hd
  · intro n hn
    exact (hnodes n hn).trans (hnodes' n hn)

/-- The new table and the two entries are all that is written. -/
theorem PagingAt.placed_new_framed (h : PagingAt k s) (hd : d ∈ s.roots)
    {page : Nat} {kvmlist' : Nat → VmBlock}
    (havail : availablePages k.kvmlist = page :: availablePages kvmlist')
    (v v' : Nat) :
    Framed k s ((k.setKvmlist kvmlist').setMem
      (setEntry (setEntry (fill k.mem page 4096 0) d (pdx va) v) page (ptx va)
        v')) { s with tables := page :: s.tables } := by
  apply Framed.table h.toPooled (List.mem_append_left _ hd) havail
  intro x hpage hroot
  have hpdx := pdx_lt va
  have hptx := ptx_lt va
  rw [pageExtent_iff] at hpage hroot
  simp only [setEntry]
  rw [store32_of_outside _ _ (by omega), store32_of_outside _ _ (by omega),
    fill_of_outside _ _ (by omega)]

/-- `mapEntry` returned, and left the rest alone. -/
theorem placed_framed (h : PagingAt k s) (hd : d ∈ s.roots)
    (hflags : flags < 4096) {k' : Kernel}
    (hcall : mapEntry k d va pa flags = .ok k') :
    ∃ tables', Placed k s d va pa flags k' tables' ∧
      Framed k s k' { s with tables := tables' } := by
  by_cases hzero : entry k.mem d (pdx va) = 0
  · rcases mapEntry_new h hd hzero with
      ⟨_, hnone⟩ | ⟨page, kvmlist', havail, hmapped, hcall'⟩
    · rw [hnone] at hcall
      cases hcall
    · rw [hcall'] at hcall
      obtain rfl := Except.ok.inj hcall
      exact ⟨page :: s.tables, h.placed_new hd hzero havail hmapped hflags pa,
        h.placed_new_framed hd havail _ _⟩
  · rw [mapEntry_old h hd hzero] at hcall
    obtain rfl := Except.ok.inj hcall
    obtain ⟨_, _, htable⟩ := h.table_pointer hd hzero
    obtain ⟨hpaging, hzeroed, hnodes⟩ :=
      h.setPte htable (ptx_lt va) (pteWord pa flags)
    have hentry : entry (setEntry k.mem (tableOf (entry k.mem d (pdx va)))
        (ptx va) (pteWord pa flags)) d (pdx va) = _ :=
      Forest.entry_setEntry h.pool htable (ptx_lt va) hd (pdx_lt va)
    refine ⟨s.tables, ⟨hpaging, hentry.symm ▸ hzero,
      fun hnone => absurd hnone hzero, ?_, hnodes, hzeroed,
      ⟨.refl _, rfl, rfl, rfl⟩⟩, h.setPte_framed htable (ptx_lt va) _⟩
    exact h.setPte_write hd hzero (pteWord_lt hflags) flags

theorem placed_of_mapEntry (h : PagingAt k s) (hd : d ∈ s.roots)
    (hflags : flags < 4096) {k' : Kernel}
    (hcall : mapEntry k d va pa flags = .ok k') :
    ∃ tables', Placed k s d va pa flags k' tables' := by
  obtain ⟨tables', hplaced, -⟩ := placed_framed h hd hflags hcall
  exact ⟨tables', hplaced⟩

end Places

/-- `mmap_do_map` returned: `k'` is the kernel and `s'` its paging state. -/
structure Mapped (k : Kernel) (s : Paging) (d va pa flags : Nat) (k' : Kernel)
    (s' : Paging) : Prop where
  paging : PagingAt k' s'
  roots : s'.roots = s.roots
  present : entry k'.mem d (pdx va) ≠ 0
  fresh : entry k.mem d (pdx va) = 0 →
    tableOf (entry k'.mem d (pdx va)) ∉ s.tables
  write : PteWrite k.mem k'.mem s.roots d va flags (pteWord pa flags)
  zeroed : Zeroed k s.chunks → Zeroed k' s'.chunks
  machine : SameMachine k k'

section Maps

variable {k k₁ k₂ k' : Kernel} {s s₁ s' : Paging} {d va pa flags : Nat}
  {tables' : List Nat}

/-- The last part of the call only touches the heap and the list. -/
theorem Mapped.of_parts (hd : d ∈ s.roots) (hun : Unmapped k s d va k₁ s₁)
    (hplaced : Placed k₁ s₁ d va pa flags k₂ tables')
    (hpaging : PagingAt k' s') (hroots : s'.roots = s.roots)
    (hsame : SamePages k₂.mem k'.mem (s.roots ++ tables'))
    (hzeroed : Zeroed k₂ s₁.chunks → Zeroed k' s'.chunks)
    (hmachine : SameMachine k₂ k') : Mapped k s d va pa flags k' s' := by
  have hforest := hplaced.paging.forest
  have hpool : PagePool (s₁.roots ++ tables') s₁.pages
      (availablePages k₂.kvmlist) := hplaced.paging.pool
  have hpool₁ : PagePool (s₁.roots ++ s₁.tables) s₁.pages
      (availablePages k₁.kvmlist) := hun.paging.pool
  have hforest₁ := hun.paging.forest
  have hsecond := hplaced.write
  rw [hun.roots] at hforest hpool hpool₁ hforest₁ hsecond
  have hboth := (hun.write flags).trans hsecond hforest₁ hpool₁ hd
  have hentry := hsame.entry (List.mem_append_left _ hd) (pdx_lt va)
  refine ⟨hpaging, hroots, ?_, ?_, hboth.same hforest hpool hd hsame,
    fun hz => hzeroed (hplaced.zeroed (hun.zeroed hz)),
    (hun.machine.trans hplaced.machine).trans hmachine⟩
  · rw [hentry]
    exact hplaced.present
  · rw [hentry, ← hun.tables, ← hun.pde d hd _ (pdx_lt va)]
    exact hplaced.fresh

/-- The call answers what `recordMap` answers. -/
theorem mmapDoMap_settles {r : Except Halt Kernel}
    (hun : Settles (fun fuel => mmapDoUnmap fuel k d va) (.ok k₁))
    (hentry : mapEntry k₁ d va pa flags = .ok k₂)
    (hrecord : Settles (fun fuel => recordMap fuel k₂ va pa) r) :
    Settles (fun fuel => mmapDoMap fuel k d va pa flags) r := by
  apply Settles.bind hun
  simp only [hentry, Bind.bind, Except.bind]
  exact hrecord

/-- The call with a block whose `next` is zero; the rest is left alone. -/
theorem mapped_framed (h : PagingAt k s) (hd : d ∈ s.roots)
    (hflags : flags < 4096)
    (hun : Settles (fun fuel => mmapDoUnmap fuel k d va) (.ok k₁))
    (hentry : mapEntry k₁ d va pa flags = .ok k₂) {map : Nat} {k₃ : Kernel}
    (hcall : Settles (fun fuel => kmalloc fuel k₂ mmapBlockSize) (.ok (map, k₃)))
    (hne : map ≠ 0) (hblank : nodeNext k₃.mem map = 0) :
    ∃ k' s', Settles (fun fuel => mmapDoMap fuel k d va pa flags) (.ok k') ∧
      Settles (fun fuel => recordMap fuel k₂ va pa) (.ok k') ∧
      Mapped k s d va pa flags k' s' ∧ Framed k s k' s' ∧
      s'.nodes = leftNodes k.mem d va s.nodes ++ [map] ∧
      (∀ n ∈ leftNodes k.mem d va s.nodes,
        nodeEntry k'.mem n = nodeEntry k.mem n) ∧
      nodeEntry k'.mem map = (va &&& pgMask, pa &&& pgMask) := by
  obtain ⟨k₁', s₁, hun', hunmapped, hleft⟩ := unmapped_framed h hd va
  obtain rfl := Except.ok.inj (hun'.unique hun)
  have hd₁ : d ∈ s₁.roots := hunmapped.roots ▸ hd
  obtain ⟨tables', hplaced, hset⟩ :=
    placed_framed hunmapped.paging hd₁ hflags hentry
  obtain ⟨k', chunks', pages', hrecord, hrecorded, hframed⟩ :=
    recordMap_settles hplaced.paging hcall hne hblank va pa
  have hsame : SamePages k₂.mem k'.mem (s.roots ++ tables') := by
    have hall := hrecorded.same
    simp only [Paging.fixed, hunmapped.roots] at hall
    exact hall
  refine ⟨k', _, mmapDoMap_settles hun hentry hrecord, hrecord,
    .of_parts hd hunmapped hplaced hrecorded.paging hunmapped.roots hsame
      hrecorded.zeroed hrecorded.machine, (hleft.trans hset).trans hframed,
    ?_, ?_, hrecorded.entry⟩
  · rw [← hunmapped.nodes]
    rfl
  · intro n hn
    rw [← hunmapped.nodes] at hn
    rw [hrecorded.entries n hn, (hplaced.nodes n hn).entry,
      hunmapped.entries n hn]

theorem mapped_of_grant (h : PagingAt k s) (hd : d ∈ s.roots)
    (hflags : flags < 4096)
    (hun : Settles (fun fuel => mmapDoUnmap fuel k d va) (.ok k₁))
    (hentry : mapEntry k₁ d va pa flags = .ok k₂) {map : Nat} {k₃ : Kernel}
    (hcall : Settles (fun fuel => kmalloc fuel k₂ mmapBlockSize) (.ok (map, k₃)))
    (hne : map ≠ 0) (hblank : nodeNext k₃.mem map = 0) :
    ∃ k' s', Settles (fun fuel => mmapDoMap fuel k d va pa flags) (.ok k') ∧
      Mapped k s d va pa flags k' s' ∧
      s'.nodes = leftNodes k.mem d va s.nodes ++ [map] ∧
      (∀ n ∈ leftNodes k.mem d va s.nodes,
        nodeEntry k'.mem n = nodeEntry k.mem n) ∧
      nodeEntry k'.mem map = (va &&& pgMask, pa &&& pgMask) := by
  obtain ⟨k', s', hsettles, -, hmapped, -, hlist⟩ :=
    mapped_framed h hd hflags hun hentry hcall hne hblank
  exact ⟨k', s', hsettles, hmapped, hlist⟩

/-- In zeroed memory so is the `next` of a new block. -/
theorem blank_of_zeroed (h : Pooled k s) (hz : Zeroed k s.chunks) {map : Nat}
    (hcall : Settles (fun fuel => kmalloc fuel k mmapBlockSize) (.ok (map, k')))
    (hne : map ≠ 0) : nodeNext k'.mem map = 0 := by
  obtain ⟨chunks', fresh, hmove, hgrant, _⟩ := Beside.alloc h hcall hne
  have hfresh : ∀ page ∈ fresh, ∀ x ∈ pageExtent page, k.mem x = 0 := by
    intro page hpage
    apply hz.2
    rw [hmove.taken]
    exact List.mem_append_left _ hpage
  obtain ⟨_, hblock⟩ := hgrant.zeroed hz.1 hfresh
  exact load32_eq_zero fun x hlo hhi =>
    hblock x ⟨show map ≤ x by omega, show x < map + 16 by omega⟩

end Maps

/-- Memory changed, but not behind the first page of the direct map. -/
def OffDirect (m m' : Memory) : Prop :=
  ∀ x, kernBase + pgSize ≤ x → x < kernBase + memNormal → m' x = m x

section Null

variable {k k' : Kernel} {s : Paging} {m m' : Memory}

theorem OffDirect.samePages {pages : List Nat} (h : OffDirect m m')
    (hpages : ∀ page ∈ pages, KernelPage page) : SamePages m m' pages := by
  intro page hpage x hx
  obtain ⟨_, hlo, hhi⟩ := hpages page hpage
  rw [pageExtent_iff] at hx
  simp only [pgSize] at hlo hhi
  apply h
  · simp only [pgSize]
    omega
  · omega

theorem PagingAt.offDirect_node (h : PagingAt k s) (hoff : OffDirect k.mem m') :
    ∀ n ∈ s.nodes, SameNode k.mem m' n :=
  h.list.sameNode h.heap.tiling (hoff.samePages fun page hpage =>
    h.pool.kernel page (by simp [hpage]))

/-- Such writes leave the paging state alone. -/
theorem PagingAt.offDirect (h : PagingAt k s) (hoff : OffDirect k.mem m') :
    PagingAt (k.setMem m') s ∧ Beside k s (k.setMem m') s := by
  have hkernel := h.pool.kernel
  have hheap : SamePages k.mem m' s.pages := hoff.samePages fun page hpage =>
    hkernel page (by simp [hpage])
  have hfixed : SamePages k.mem m' s.fixed := hoff.samePages fun page hpage =>
    hkernel page (List.mem_append_left _ hpage)
  have hfresh : SamePages k.mem m' (availablePages k.kvmlist) :=
    hoff.samePages fun page hpage => hkernel page (by simp [hpage])
  have hpooled : Pooled (k.setMem m') s :=
    ⟨h.heap.congr_pages hheap, h.pool⟩
  refine ⟨⟨hpooled, h.forest.congr hfixed,
    h.list.congr (h.offDirect_node hoff)⟩, hpooled, rfl, rfl,
    hfixed, fun hz => ?_, ⟨.refl _, rfl, rfl, rfl⟩⟩
  refine ⟨hz.1.congr_pages h.heap.tiling hheap, fun page hpage x hx => ?_⟩
  rw [Kernel.setMem_mem, hfresh page hpage x hx]
  exact hz.2 page hpage x hx

/-- The walks of the first virtual page end outside the kernel's pages. -/
structure NullAway (k : Kernel) (s : Paging) : Prop where
  root : ∃ d ∈ s.roots, k.cr3 = v2p d
  frame : ∀ va < pgSize, ∀ t, pageWalk k.mem k.cr3 va = some t →
    t.frame = 0 ∨ memNormal ≤ t.frame

theorem NullAway.offDirect (h : NullAway k s) (hpaging : PagingAt k s)
    (hoff : OffDirect k.mem m') : NullAway (k.setMem m') s := by
  obtain ⟨⟨d, hd, hcr3⟩, hframe⟩ := h
  refine ⟨⟨d, hd, hcr3⟩, fun va hva t ht => hframe va hva t ?_⟩
  have hfixed : SamePages k.mem m' (s.roots ++ s.tables) :=
    hoff.samePages fun page hpage =>
      hpaging.pool.kernel page (List.mem_append_left _ hpage)
  rw [Kernel.setMem_mem, Kernel.setMem_cr3, hcr3,
    hpaging.forest.walk_congr hpaging.pool hfixed hd] at ht
  rw [hcr3]
  exact ht

/-- `k'` is `k` after stores through a `NULL` pointer. -/
def NullStores (k k' : Kernel) : Prop :=
  ∃ m', OffDirect k.mem m' ∧ k' = k.setMem m'

theorem NullStores.trans {k₁ k₂ k₃ : Kernel} (h₁ : NullStores k₁ k₂)
    (h₂ : NullStores k₂ k₃) : NullStores k₁ k₃ := by
  obtain ⟨m₁, hoff₁, rfl⟩ := h₁
  obtain ⟨m₂, hoff₂, rfl⟩ := h₂
  exact ⟨m₂, fun x hlo hhi => (hoff₂ x hlo hhi).trans (hoff₁ x hlo hhi), rfl⟩

theorem storeByte_null (haway : NullAway k s) {a : Nat} (ha : a < pgSize)
    {b : UInt8} (hcall : storeByte k (u32 a) b = .ok k') : NullStores k k' := by
  simp only [pgSize] at ha
  have hu : u32 a = a := u32_of_lt (by omega)
  rw [hu, storeByte] at hcall
  have hdirect : ¬ (kernBase ≤ a ∧ a < kernBase + memNormal) := by
    simp only [kernBase]
    omega
  cases hwalk : pageWalk k.mem k.cr3 a with
  | none =>
      simp only [resolve, hdirect, ↓reduceIte, hwalk, Option.map_none] at hcall
      cases hcall
  | some t =>
      simp only [resolve, hdirect, ↓reduceIte, hwalk, Option.map_some] at hcall
      obtain rfl := Except.ok.inj hcall
      have hframe := haway.frame a ha t hwalk
      refine ⟨_, fun x hlo hhi => store8_of_ne _ _ ?_, rfl⟩
      simp only [pgSize] at hlo ⊢
      omega

/-- A store through `NULL` leaves the paging state alone, like any further
one. -/
theorem nullStores_bind {x : Except Halt Kernel}
    {f : Kernel → Except Halt Kernel} (hpaging : PagingAt k s)
    (haway : NullAway k s) (hx : ∀ k₁, x = .ok k₁ → NullStores k k₁)
    (hf : ∀ k₁ k₂, PagingAt k₁ s → NullAway k₁ s → f k₁ = .ok k₂ →
      NullStores k₁ k₂)
    (hcall : x >>= f = .ok k') : NullStores k k' := by
  obtain ⟨k₁, hk₁, hk'⟩ := ok_of_bind hcall
  have hfirst := hx k₁ hk₁
  apply hfirst.trans
  obtain ⟨m₁, hoff, rfl⟩ := hfirst
  exact hf _ k' (hpaging.offDirect hoff).1 (haway.offDirect hpaging hoff) hk'

theorem storeWord_null (hpaging : PagingAt k s) (haway : NullAway k s)
    {a v : Nat} (ha : a + 3 < pgSize) (hcall : storeWord k a v = .ok k') :
    NullStores k k' := by
  refine nullStores_bind hpaging haway
    (fun _ => storeByte_null haway (by omega)) ?_ hcall
  intro k₁ k₂ hpaging₁ haway₁ hcall₁
  refine nullStores_bind hpaging₁ haway₁
    (fun _ => storeByte_null haway₁ (by omega)) ?_ hcall₁
  intro k₂ k₃ hpaging₂ haway₂ hcall₂
  refine nullStores_bind hpaging₂ haway₂
    (fun _ => storeByte_null haway₂ (by omega)) ?_ hcall₂
  intro k₃ k₄ _ haway₃ hcall₃
  exact storeByte_null haway₃ (by omega) hcall₃

theorem fillBlock_null (hpaging : PagingAt k s) (haway : NullAway k s)
    {va pa : Nat} (hcall : fillBlock k 0 va pa = .ok k') : NullStores k k' := by
  refine nullStores_bind hpaging haway
    (fun _ => storeWord_null hpaging haway (by decide)) ?_ hcall
  intro k₁ k₂ hpaging₁ haway₁ hcall₁
  refine nullStores_bind hpaging₁ haway₁
    (fun _ => storeWord_null hpaging₁ haway₁ (by decide)) ?_ hcall₁
  intro k₂ k₃ _ haway₂ hcall₂
  exact storeByte_null haway₂ (by decide) hcall₂

/-- The list enters a call that got no block and leaves it as it was, or the
call faults. -/
theorem recordMap_refused (h : PagingAt k s) (haway : NullAway k s)
    {k₁ : Kernel}
    (hcall : Settles (fun fuel => kmalloc fuel k mmapBlockSize) (.ok (0, k₁)))
    (va pa : Nat) : Ends (fun fuel => recordMap fuel k va pa) fun k' =>
      ∃ s', PagingAt k' s' ∧ Beside k s k' s' ∧
        Listed (s.entries k) (s.managed k) va pa k' s' := by
  obtain ⟨chunks', pages', hpaging, hbeside, hsame, hpages⟩ :=
    Beside.refused h hcall
  have hmanaged : (s.withHeap chunks' pages' s.nodes).managed k₁ =
      s.managed k := by
    rw [Paging.managed, Paging.managed, List.append_assoc, List.append_assoc,
      ← hpages]
    rfl
  have hlisted : ∀ k₂ : Kernel, OffDirect k₁.mem k₂.mem →
      k₂.kvmlist = k₁.kvmlist → Listed (s.entries k) (s.managed k) va pa k₂
        (s.withHeap chunks' pages' s.nodes) := by
    intro k₂ hoff hkvm
    refine ⟨Or.inl (List.map_congr_left fun n hn => ?_), ?_⟩
    · have hkept := hpaging.offDirect_node hoff n hn
      exact hkept.entry.trans (hsame n hn).entry
    · rw [Paging.managed, hkvm, ← Paging.managed, hmanaged]
      exact fun _ hp => hp
  obtain ⟨⟨d, hd, hcr3⟩, hframe⟩ := haway
  -- the walks are those from before the call
  have haway₁ : NullAway k₁ (s.withHeap chunks' pages' s.nodes) := by
    refine ⟨⟨d, hd, hbeside.machine.cr3.trans hcr3⟩, fun va hva t ht => ?_⟩
    rw [hbeside.machine.cr3, hcr3,
      h.forest.walk_congr h.pool hbeside.same hd] at ht
    exact hframe va hva t (hcr3 ▸ ht)
  rcases List.eq_nil_or_concat s.nodes with hnodes | ⟨pre, last, hnodes⟩
  · refine ⟨_, recordMap_empty h hnodes hcall va pa, fun k' hk' => ?_⟩
    replace hk' : (do
        let k ← fillBlock k₁ 0 (va &&& pgMask) (pa &&& pgMask)
        Except.ok { k with mmaplist := 0 }) = .ok k' := hk'
    obtain ⟨k₂, hfill, hk₂⟩ := ok_of_bind hk'
    obtain ⟨m', hoff, rfl⟩ := fillBlock_null hpaging haway₁ hfill
    obtain rfl := Except.ok.inj hk₂
    obtain ⟨hpaging₂, hbeside₂⟩ := hpaging.offDirect hoff
    have hhead := hbeside₂.trans (Beside.head hbeside₂.pooled 0)
    refine ⟨_, ⟨hhead.pooled, hpaging₂.forest, ?_⟩, hbeside.trans hhead,
      hlisted _ hoff rfl⟩
    have hnil : (s.withHeap chunks' pages' s.nodes).nodes = [] := hnodes
    rw [hnil]
    exact ⟨rfl, by simp, by simp, List.nodup_nil⟩
  · rw [List.concat_eq_append] at hnodes
    refine ⟨_, recordMap_append h hnodes hcall va pa, fun k' hk' => ?_⟩
    replace hk' : (do
        let k ← fillBlock k₁ 0 va pa
        storeWord k (last + 12) 0) = .ok k' := hk'
    obtain ⟨k₂, hfill, hk₂⟩ := ok_of_bind hk'
    obtain ⟨m', hoff, rfl⟩ := fillBlock_null hpaging haway₁ hfill
    obtain ⟨hpaging₂, hbeside₂⟩ := hpaging.offDirect hoff
    have hlast : last ∈ s.nodes := by simp [hnodes]
    have hdirect := hpaging₂.node_direct hlast
    rw [storeWord_direct (hdirect.word 12 (by omega))] at hk₂
    obtain rfl := Except.ok.inj hk₂
    -- the link of the last node was `NULL` already
    have hlink := hpaging₂.list
    have hlist : (s.withHeap chunks' pages' s.nodes).nodes =
        pre ++ last :: [] := hnodes
    rw [hlist] at hlink
    have hnull : nodeNext m' last = 0 := hlink.next_eq
    have hbytes : store32 m' (last + 12) 0 = m' := store32_zero hnull
    rw [Kernel.setMem_mem, Kernel.setMem_setMem, hbytes]
    exact ⟨_, hpaging₂, hbeside.trans hbeside₂, hlisted _ hoff rfl⟩

theorem Recorded.listed {va pa map : Nat} {chunks' : List Chunk}
    {pages' : List Nat} (h : Recorded k s va pa k' chunks' pages' map) :
    (s.withHeap chunks' pages' (s.nodes ++ [map])).entries k' = s.entries k ∨
      (s.withHeap chunks' pages' (s.nodes ++ [map])).entries k' =
        s.entries k ++ [(va &&& pgMask, pa &&& pgMask)] := by
  right
  have hold : s.nodes.map (nodeEntry k'.mem) = s.entries k :=
    List.map_congr_left h.entries
  have hnodes : (s.withHeap chunks' pages' (s.nodes ++ [map])).nodes =
      s.nodes ++ [map] := rfl
  rw [Paging.entries, hnodes, List.map_append, hold, List.map_singleton,
    h.entry]

/-- Placing the entry of a page changes no node. -/
theorem Placed.entries_left {k₁ k₂ : Kernel} {s₁ : Paging} {d va pa flags : Nat}
    {tables' : List Nat} (h : Placed k₁ s₁ d va pa flags k₂ tables')
    (hun : Unmapped k s d va k₁ s₁) :
    Paging.entries { s₁ with tables := tables' } k₂ =
      (leftNodes k.mem d va s.nodes).map (nodeEntry k.mem) := by
  rw [← hun.nodes]
  apply List.map_congr_left
  intro n hn
  exact (h.nodes n hn).entry.trans (hun.entries n hn)

/-- Whatever `kmalloc` answers, the paging pages are left alone. -/
theorem recordMap_ends (h : PagingAt k s) (hz : Zeroed k s.chunks)
    (haway : NullAway k s) (va pa : Nat) :
    Ends (fun fuel => recordMap fuel k va pa) fun k' =>
      ∃ s', PagingAt k' s' ∧ Beside k s k' s' ∧
        Listed (s.entries k) (s.managed k) va pa k' s' := by
  obtain ⟨r, hcall, _⟩ := kmalloc_settles mmapBlockSize h.ready
  cases r with
  | error e =>
      rcases List.eq_nil_or_concat s.nodes with hnodes | ⟨pre, last, hnodes⟩
      · exact .of_error (recordMap_empty h hnodes hcall va pa)
      · rw [List.concat_eq_append] at hnodes
        exact .of_error (recordMap_append h hnodes hcall va pa)
  | ok answer =>
      obtain ⟨map, k₁⟩ := answer
      by_cases hne : map = 0
      · subst hne
        exact recordMap_refused h haway hcall va pa
      · have hblank := blank_of_zeroed h.toPooled hz hcall hne
        obtain ⟨k', chunks', pages', hrecord, hrec, hframed⟩ :=
          recordMap_settles h hcall hne hblank va pa
        exact .of_ok hrecord ⟨_, hrec.paging, ⟨hrec.paging.toPooled, rfl, rfl,
          hrec.same, hrec.zeroed, hrec.machine⟩, hrec.listed, hframed.pages⟩

end Null

section MapEnds

variable {k k' : Kernel} {s : Paging} {d va pa flags : Nat}

/-- `mmap_do_map` on zeroed memory, where the first virtual page is not mapped
to a page of the kernel: if it returns it has mapped the page. -/
theorem mmapDoMap_ends (h : PagingAt k s) (hd : d ∈ s.roots)
    (hflags : flags < 4096) (hz : Zeroed k s.chunks)
    (haway : ∀ k₁ s₁ k₂ tables', Unmapped k s d va k₁ s₁ →
      Placed k₁ s₁ d va pa flags k₂ tables' →
        NullAway k₂ { s₁ with tables := tables' }) :
    Ends (fun fuel => mmapDoMap fuel k d va pa flags) fun k' =>
      ∃ s', Mapped k s d va pa flags k' s' ∧
        Listed ((leftNodes k.mem d va s.nodes).map (nodeEntry k.mem))
          (s.managed k) va pa k' s' := by
  obtain ⟨k₁, s₁, hun, hunmapped, hleft⟩ := unmapped_framed h hd va
  have hd₁ : d ∈ s₁.roots := hunmapped.roots ▸ hd
  cases hentry : mapEntry k₁ d va pa flags with
  | error e =>
      apply Ends.of_error (e := e)
      apply Settles.bind hun
      simp only [hentry, Bind.bind, Except.bind]
      exact settles_const _
  | ok k₂ =>
      obtain ⟨tables', hplaced, hset⟩ :=
        placed_framed hunmapped.paging hd₁ hflags hentry
      have hz₂ : Zeroed k₂ s₁.chunks := hplaced.zeroed (hunmapped.zeroed hz)
      obtain ⟨r, hrecord, hpost⟩ := recordMap_ends hplaced.paging hz₂
        (haway k₁ s₁ k₂ tables' hunmapped hplaced) va pa
      refine ⟨r, mmapDoMap_settles hun hentry hrecord, fun k' hk' => ?_⟩
      obtain ⟨s', hpaging, hbeside, hlisted⟩ := hpost k' hk'
      have hroots : s'.roots = s.roots := hbeside.roots.trans hunmapped.roots
      have hsame : SamePages k₂.mem k'.mem (s.roots ++ tables') := by
        have hall := hbeside.same
        simp only [Paging.fixed, hunmapped.roots] at hall
        exact hall
      have hentries := hlisted.entries
      rw [hplaced.entries_left hunmapped] at hentries
      exact ⟨s', .of_parts hd hunmapped hplaced hpaging hroots hsame
        hbeside.zeroed hbeside.machine, hentries,
        fun _ hp => (hleft.trans hset).pages (hlisted.pages hp)⟩

end MapEnds

end Linda
