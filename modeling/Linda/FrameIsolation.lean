/-
Who may touch which frame: the frames of the user halves over whole runs of
uvm_init and user page faults.
-/
import Linda.PageFaults
import Linda.PageUpdates

namespace Linda

open ByteMemory CallHistory FuelLoop PagingRun

/-- Every frame open to the user is one `phy_mem_init` pushed, is not in the
direct map, and is at one user page only. -/
def FramesIsolated (kpgdir : Nat) (initial : MemMap) (r : PagingRun) : Prop :=
  ∀ d, d = kpgdir ∨ d ∈ r.dirs → ∀ va < 4294967296, ∀ t,
    pageWalk r.kernel.mem (v2p d) va = some t → t.user = true →
      Pushed initial t.frame ∧ memNormal ≤ t.frame ∧
        ∀ d', d' = kpgdir ∨ d' ∈ r.dirs → ∀ va' < 4294967296, ∀ t',
          pageWalk r.kernel.mem (v2p d') va' = some t' → t'.user = true →
            t'.frame = t.frame → d' = d ∧ va' &&& pgMask = va &&& pgMask

namespace PagingCall

/-- Faults are at user pages. -/
def UserFault : PagingCall → Prop
  | .fault _ addr => addr < kernBase
  | _ => True

/-- The user page of a fault. -/
def faultPage : PagingCall → Option Nat
  | .fault _ addr => some (addr &&& pgMask)
  | _ => none

/-- A fault finds a frame in the list. -/
def Stocked (r : PagingRun) : PagingCall → Prop
  | .fault _ _ => 1 ≤ r.kernel.memMap.header
  | _ => True

end PagingCall

/-- The frames in the user halves left the list, each for one page. -/
structure UserFrames (m : Memory) (kpgdir : Nat) (dirs : List Nat)
    (first n : Nat) (left : Int) : Prop where
  supervisor : ∀ d, d = kpgdir ∨ d ∈ dirs → ∀ va, kernBase ≤ va →
    va < 4294967296 → ∀ t, pageWalk m (v2p d) va = some t → t.user = false
  empty : ∀ va < kernBase, pageWalk m (v2p kpgdir) va = none
  handed : ∀ d ∈ dirs, ∀ va < kernBase, ∀ t, pageWalk m (v2p d) va = some t →
    ∃ j : Int, left < j ∧ 1 ≤ j ∧ j ≤ n ∧ t.frame = lowestFrame first n j ∧
      memNormal ≤ t.frame
  apart : ∀ d ∈ dirs, ∀ va < kernBase, ∀ t, pageWalk m (v2p d) va = some t →
    ∀ d' ∈ dirs, ∀ va' < kernBase, ∀ t', pageWalk m (v2p d') va' = some t' →
      t'.frame = t.frame → d' = d ∧ va' &&& pgMask = va &&& pgMask

section Frames

variable {slots : Int → Nat} {first n fuel : Nat} {left left' j : Int}
  {kpgdir d flags va pa : Nat} {m m' : Memory} {dirs : List Nat}
  {r r' : PagingRun} {s s' : Paging} {k k' : Kernel}

theorem lowestFrame_inj (hj : j ≤ n) (hleft : left ≤ n)
    (h : lowestFrame first n j = lowestFrame first n left) : j = left := by
  simp only [lowestFrame] at h
  omega

theorem pushed_lowestFrame (hlo : 1 ≤ j) (hhi : j ≤ n) :
    Pushed (frameMap slots first n n) (lowestFrame first n j) :=
  ⟨j, hlo, hhi, if_pos ⟨hlo, hhi⟩⟩

/-- What the invariant is for. -/
theorem UserFrames.isolated (h : UserFrames r.kernel.mem kpgdir r.dirs first n left) :
    FramesIsolated kpgdir (frameMap slots first n n) r := by
  have huser : ∀ d, d = kpgdir ∨ d ∈ r.dirs → ∀ va < 4294967296, ∀ t,
      pageWalk r.kernel.mem (v2p d) va = some t → t.user = true →
        d ∈ r.dirs ∧ va < kernBase := by
    intro d hd va hva t ht hopen
    have hlow : va < kernBase := by
      by_contra hhigh
      have hclosed := h.supervisor d hd va (by omega) hva t ht
      rw [hopen] at hclosed
      cases hclosed
    refine ⟨?_, hlow⟩
    rcases hd with rfl | hd
    · rw [h.empty va hlow] at ht
      cases ht
    · exact hd
  intro d hd va hva t ht hopen
  obtain ⟨hdir, hlow⟩ := huser d hd va hva t ht hopen
  obtain ⟨j, -, hlo, hhi, hframe, habove⟩ := h.handed d hdir va hlow t ht
  refine ⟨hframe ▸ pushed_lowestFrame hlo hhi, habove, ?_⟩
  intro d' hd' va' hva' t' ht' hopen' heq
  obtain ⟨hdir', hlow'⟩ := huser d' hd' va' hva' t' ht' hopen'
  exact h.apart d hdir va hlow t ht d' hdir' va' hlow' t' ht' heq

/-- Walks that did not change. -/
theorem UserFrames.congr (h : UserFrames m kpgdir dirs first n left)
    (hle : left' ≤ left)
    (hsuper : ∀ d, d = kpgdir ∨ d ∈ dirs → ∀ va, kernBase ≤ va →
      va < 4294967296 → ∀ t, pageWalk m' (v2p d) va = some t → t.user = false)
    (hsame : ∀ d, d = kpgdir ∨ d ∈ dirs → ∀ va < kernBase,
      pageWalk m' (v2p d) va = pageWalk m (v2p d) va) :
    UserFrames m' kpgdir dirs first n left' := by
  refine ⟨hsuper, fun va hva => ?_, fun d hd va hva t ht => ?_,
    fun d hd va hva t ht d' hd' va' hva' t' ht' => ?_⟩
  · rw [hsame kpgdir (Or.inl rfl) va hva]
    exact h.empty va hva
  · rw [hsame d (Or.inr hd) va hva] at ht
    obtain ⟨j, hj, hrest⟩ := h.handed d hd va hva t ht
    exact ⟨j, by omega, hrest⟩
  · rw [hsame d (Or.inr hd) va hva] at ht
    rw [hsame d' (Or.inr hd') va' hva'] at ht'
    exact h.apart d hd va hva t ht d' hd' va' hva' t' ht'

theorem leaf_supervisor {pde : Nat} {t : Translation}
    (ht : leaf pde (pteWord pa 0) = some t) : t.user = false := by
  have hbit : (pteWord pa 0).testBit 2 = false := by
    rw [pteWord_testBit]
    simp
  rw [leaf] at ht
  split_ifs at ht
  obtain rfl := Option.some.inj ht
  simp only [hbit, Bool.and_false]

/-- A mapping in the kernel half is closed to the user and leaves the user
halves alone. -/
theorem UserFrames.write_kernel (h : UserFrames k.mem kpgdir dirs first n left)
    (hroots : ∀ d, d ∈ s.roots ↔ d = kpgdir ∨ d ∈ dirs)
    (hplain : AllPlain k.mem s.roots) (hpaging : PagingAt k' s')
    (hsame : s'.roots = s.roots) {pte : Nat}
    (hwrite : PteWrite k.mem k'.mem s.roots kpgdir scratchPage 0 pte)
    (hpte : ∀ pde t, leaf pde pte = some t → t.user = false) :
    UserFrames k'.mem kpgdir dirs first n left := by
  have hkpgdir : kpgdir ∈ s.roots := (hroots kpgdir).mpr (Or.inl rfl)
  have hscratch : kernBase ≤ scratchPage ∧ scratchPage < 4294967296 := by decide
  refine h.congr le_rfl (fun d hd va hlo hhi t ht => ?_) fun d hd va hva => ?_
  · rw [hwrite.walk hplain (by decide) d ((hroots d).mpr hd) va] at ht
    split_ifs at ht
    · exact hpte _ t ht
    · exact h.supervisor d hd va hlo hhi t ht
  · rw [hwrite.walk hplain (by decide) d ((hroots d).mpr hd) va, if_neg]
    intro hmeets
    have hroot : d ∈ s'.roots := hsame ▸ (hroots d).mpr hd
    have hroot' : kpgdir ∈ s'.roots := hsame ▸ hkpgdir
    have hpresent : entry k'.mem kpgdir (pdx scratchPage) ≠ 0 := fun hzero =>
      hpaging.forest.not_meets_empty hpaging.pool hroot hzero hmeets
    have hpage := (hpaging.meets_page hroot' hroot hpresent hmeets).1
    have hpdx := ((and_pgMask_eq_iff va scratchPage).mp hpage).1
    have huser := pdx_user hva
    have hkernel := pdx_kernel hscratch.1 hscratch.2
    omega

/-- A frame from the list is mapped at a user page. -/
theorem UserFrames.map_user (h : UserFrames k.mem kpgdir dirs first n left)
    (hroots : ∀ d, d ∈ s.roots ↔ d = kpgdir ∨ d ∈ dirs)
    (hplain : AllPlain k.mem s.roots) (hd : d ∈ dirs) (hne : d ≠ kpgdir)
    (hva : va < kernBase) (hframes : FramesLeft first n left) (hlo : 1 ≤ left)
    (hmapped : Mapped k s d va (lowestFrame first n left) pteU k' s') :
    UserFrames k'.mem kpgdir dirs first n (left - 1) := by
  have hroot : d ∈ s.roots := (hroots d).mpr (Or.inr hd)
  have hgood := hframes.good hlo
  -- the walks that read the new entry are those of the page
  have hmeets : ∀ d', d' = kpgdir ∨ d' ∈ dirs → ∀ va' < 4294967296,
      Meets k'.mem d' va' (slotOf k'.mem d va) →
        va' < kernBase ∧ d' = d ∧ va' &&& pgMask = va &&& pgMask := by
    intro d' hd' va' hva' hmeet
    obtain ⟨hpage, hdir⟩ := hmapped.paging.meets_page (hmapped.roots ▸ hroot)
      (hmapped.roots ▸ (hroots d').mpr hd') hmapped.present hmeet
    have hpdx := ((and_pgMask_eq_iff va' va).mp hpage).1
    have huser := pdx_user hva
    have hlow : va' < kernBase := by
      by_contra hhigh
      have hkernel := pdx_kernel (by omega) hva'
      omega
    exact ⟨hlow, hdir.resolve_right (by omega), hpage⟩
  have hwalk : ∀ d', d' = kpgdir ∨ d' ∈ dirs → ∀ va' < 4294967296, ∀ t,
      pageWalk k'.mem (v2p d') va' = some t →
        (va' < kernBase ∧ d' = d ∧ va' &&& pgMask = va &&& pgMask ∧
          t.frame = lowestFrame first n left) ∨
        pageWalk k.mem (v2p d') va' = some t := by
    intro d' hd' va' hva' t ht
    rw [hmapped.write.walk hplain (by decide) d' ((hroots d').mpr hd') va'] at ht
    split_ifs at ht with hmeet
    · obtain ⟨hlow, hdir, hpage⟩ := hmeets d' hd' va' hva' hmeet
      exact Or.inl ⟨hlow, hdir, hpage, leaf_frame hgood (by decide) ht⟩
    · exact Or.inr ht
  have hsmall : ∀ {va'}, va' < kernBase → va' < 4294967296 := by
    intro va' hva'
    simp only [kernBase] at hva'
    omega
  -- a frame handed out before is another one
  have hother : ∀ d' ∈ dirs, ∀ va' < kernBase, ∀ t,
      pageWalk k.mem (v2p d') va' = some t →
        t.frame ≠ lowestFrame first n left := by
    intro d' hd' va' hva' t ht heq
    obtain ⟨j, hj, -, hhi, hframe, -⟩ := h.handed d' hd' va' hva' t ht
    have hsame := lowestFrame_inj hhi hframes.hi (hframe.symm.trans heq)
    omega
  constructor
  · intro d' hd' va' hlow hhi t ht
    rcases hwalk d' hd' va' hhi t ht with ⟨hcon, -⟩ | hold
    · omega
    · exact h.supervisor d' hd' va' hlow hhi t hold
  · intro va' hva'
    cases ht : pageWalk k'.mem (v2p kpgdir) va' with
    | none => rfl
    | some t =>
        rcases hwalk kpgdir (Or.inl rfl) va' (hsmall hva') t ht with
          ⟨-, hdir, -⟩ | hold
        · exact absurd hdir.symm hne
        · rw [h.empty va' hva'] at hold
          cases hold
  · intro d' hd' va' hva' t ht
    rcases hwalk d' (Or.inr hd') va' (hsmall hva') t ht with
      ⟨-, -, -, hframe⟩ | hold
    · exact ⟨left, by omega, hlo, hframes.hi, hframe,
        hframe ▸ hframes.above hlo⟩
    · obtain ⟨j, hj, hrest⟩ := h.handed d' hd' va' hva' t hold
      exact ⟨j, by omega, hrest⟩
  · intro d₁ hd₁ va₁ hva₁ t₁ ht₁ d₂ hd₂ va₂ hva₂ t₂ ht₂ heq
    rcases hwalk d₁ (Or.inr hd₁) va₁ (hsmall hva₁) t₁ ht₁ with
      ⟨-, hdir₁, hpage₁, hframe₁⟩ | hold₁ <;>
    rcases hwalk d₂ (Or.inr hd₂) va₂ (hsmall hva₂) t₂ ht₂ with
      ⟨-, hdir₂, hpage₂, hframe₂⟩ | hold₂
    · exact ⟨hdir₂.trans hdir₁.symm, hpage₂.trans hpage₁.symm⟩
    · exact absurd (heq.trans hframe₁) (hother d₂ hd₂ va₂ hva₂ t₂ hold₂)
    · exact absurd (heq.symm.trans hframe₂) (hother d₁ hd₁ va₁ hva₁ t₁ hold₁)
    · exact h.apart d₁ hd₁ va₁ hva₁ t₁ hold₁ d₂ hd₂ va₂ hva₂ t₂ hold₂ heq

end Frames

namespace PagingRun

/-- The invariant of a run: what left the list is at one user page. -/
def Accounted (kpgdir : Nat) (slots : Int → Nat) (first n : Nat)
    (r : PagingRun) : Prop :=
  ∃ left, r.kernel.memMap = frameMap slots first n left ∧
    FramesLeft first n left ∧
    UserFrames r.kernel.mem kpgdir r.dirs first n left

section Steps

variable {kpgdir : Nat} {slots : Int → Nat} {first n fuel : Nat}
  {r r' : PagingRun} {s s' : Paging} {k' : Kernel} {d flags pa : Nat}
  {left left' : Int}

theorem Sound.root_or (h : r.Sound kpgdir slots first n s) (d : Nat) :
    d ∈ s.roots ↔ d = kpgdir ∨ d ∈ r.dirs :=
  h.root_iff.trans or_comm

/-- A call of the allocator that answered a frame took the lowest one. -/
theorem frameMap_alloc_eq (hframes : FramesLeft first n left) (hlo : 1 ≤ left)
    (halloc : phyMemAlloc (frameMap slots first n left) =
      (pa, frameMap slots first n left')) :
    pa = lowestFrame first n left ∧ left' = left - 1 := by
  rw [frameMap_alloc hlo hframes.hi] at halloc
  obtain ⟨hframe, hmap⟩ := Prod.mk.inj halloc
  exact ⟨hframe.symm, (congrArg MemMap.header hmap).symm⟩

/-- A frame other than `NULL` comes from a list that has one. -/
theorem frameMap_alloc_pos (hslot : slots 0 = 0)
    (hframes : FramesLeft first n left)
    (halloc : phyMemAlloc (frameMap slots first n left) =
      (pa, frameMap slots first n left')) (hne : pa ≠ 0) : 1 ≤ left := by
  obtain ⟨-, -, -, ⟨-, -, hnull⟩ | ⟨hlo, -⟩⟩ := hframes.alloc hslot
  · rw [halloc] at hnull
    exact absurd hnull hne
  · exact hlo

theorem Sound.newRoot_accounted {page : Nat} (h : r.Sound kpgdir slots first n s)
    (hnew : NewRoot r.kernel s kpgdir page k')
    (hacc : r.Accounted kpgdir slots first n) :
    Accounted kpgdir slots first n ⟨k', page :: r.dirs⟩ := by
  obtain ⟨left, hmap, hframes, huser⟩ := hacc
  -- the user half of the new directory is empty
  have hold : ∀ d ∈ page :: r.dirs, ∀ va < kernBase, ∀ t,
      pageWalk k'.mem (v2p d) va = some t →
        d ∈ r.dirs ∧ pageWalk r.kernel.mem (v2p d) va = some t := by
    intro d hd va hva t ht
    rcases List.mem_cons.mp hd with rfl | hd
    · rw [newRoot_user hnew hva] at ht
      cases ht
    · rw [h.newRoot_walk hnew (h.dir_root hd)] at ht
      exact ⟨hd, ht⟩
  refine ⟨left, hnew.machine.memMap.trans hmap, hframes, ?_, ?_, ?_, ?_⟩
  · intro d hd va hlo hhi t ht
    by_cases hroot : d = kpgdir ∨ d ∈ r.dirs
    · rw [h.newRoot_walk hnew ((h.root_or d).mpr hroot)] at ht
      exact huser.supervisor d hroot va hlo hhi t ht
    · obtain rfl : d = page := by simpa [not_or.mp hroot] using hd
      rw [h.newRoot_kernel hnew hlo hhi, h.newRoot_walk hnew h.kpgdir_root] at ht
      exact huser.supervisor kpgdir (Or.inl rfl) va hlo hhi t ht
  · intro va hva
    rw [h.newRoot_walk hnew h.kpgdir_root]
    exact huser.empty va hva
  · intro d hd va hva t ht
    obtain ⟨hdir, hwalk⟩ := hold d hd va hva t ht
    exact huser.handed d hdir va hva t hwalk
  · intro d hd va hva t ht d' hd' va' hva' t' ht'
    obtain ⟨hdir, hwalk⟩ := hold d hd va hva t ht
    obtain ⟨hdir', hwalk'⟩ := hold d' hd' va' hva' t' ht'
    exact huser.apart d hdir va hva t hwalk d' hdir' va' hva' t' hwalk'

/-- A fault at a user page takes a frame for it. -/
theorem Handled.accounted {addr : Nat} (h : r.Sound kpgdir slots first n s)
    (hhandled : Handled kpgdir slots first n r s addr d flags pa left' k' s')
    (haddr : addr < kernBase) (hstocked : 1 ≤ r.kernel.memMap.header)
    (hacc : r.Accounted kpgdir slots first n) :
    Accounted kpgdir slots first n ⟨k', r.dirs⟩ := by
  obtain ⟨left, hmap, hframes, huser⟩ := hacc
  have hmapped := hhandled.mapped
  rw [hmap] at hstocked
  obtain ⟨rfl, rfl⟩ := frameMap_alloc_eq hframes hstocked
    (hmap ▸ hhandled.frame)
  refine ⟨left - 1, hmapped.machine.memMap, hframes.next, ?_⟩
  cases hhandled.target with
  | kernel _ hlo hhi => omega
  | user _ _ hd hva =>
      exact UserFrames.map_user
        (k := { r.kernel with memMap := frameMap slots first n (left - 1) }) huser
        h.root_or h.plain hd (h.dir_ne hd) hva hframes hstocked hmapped

/-- `uvm_init` takes one for the bottom of the process; the kernel has it for a
while, closed to the user. -/
theorem Filled.accounted {pgdir : Nat} {k₁ k₂ k₃ : Kernel} {s₁ s₂ : Paging}
    (hslot : slots 0 = 0) (h : r.Sound kpgdir slots first n s)
    (hfilled : Filled kpgdir slots first n r s pgdir pa left' k₁ s₁ k₂ k₃ s₂ k' s')
    (hpgdir : pgdir ∈ r.dirs) (hacc : r.Accounted kpgdir slots first n) :
    Accounted kpgdir slots first n ⟨k', r.dirs⟩ := by
  obtain ⟨left, hmap, hframes, huser⟩ := hacc
  have halloc := hfilled.frame
  rw [hmap] at halloc
  have hlo := frameMap_alloc_pos hslot hframes halloc hfilled.ne_zero
  obtain ⟨rfl, rfl⟩ := frameMap_alloc_eq hframes hlo halloc
  have hmap' : k'.memMap = frameMap slots first n (left - 1) := by
    rw [hfilled.filled.machine.memMap, hfilled.unmapped.machine.memMap,
      hfilled.kept, hfilled.mapped.machine.memMap]
  have hscratch : UserFrames k₁.mem kpgdir r.dirs first n left :=
    UserFrames.write_kernel
      (k := { r.kernel with memMap := frameMap slots first n (left - 1) }) huser
      h.root_or h.plain hfilled.mapped.paging hfilled.mapped.roots
      hfilled.mapped.write fun _ _ => leaf_supervisor
  have hwalk : ∀ d, d = kpgdir ∨ d ∈ r.dirs → ∀ va,
      pageWalk k₂.mem (v2p d) va = pageWalk k₁.mem (v2p d) va := fun d hd va =>
    hfilled.sound₁.paging.forest.walk_congr hfilled.sound₁.paging.pool
      hfilled.copied ((hfilled.sound₁.root_or d).mpr hd) va
  have hcopied : UserFrames k₂.mem kpgdir r.dirs first n left :=
    hscratch.congr le_rfl
      (fun d hd va hva hhi t ht =>
        hscratch.supervisor d hd va hva hhi t (hwalk d hd va ▸ ht))
      fun d hd va _ => hwalk d hd va
  have hunmapped : UserFrames k₃.mem kpgdir r.dirs first n left := by
    refine hcopied.write_kernel hfilled.sound₂.root_or hfilled.sound₂.plain
      hfilled.unmapped.paging hfilled.unmapped.roots (hfilled.unmapped.write 0) ?_
    intro pde t ht
    rw [leaf_zero] at ht
    cases ht
  exact ⟨left - 1, hmap', hframes.next,
    hunmapped.map_user hfilled.sound₃.root_or hfilled.sound₃.plain hpgdir
      (h.dir_ne hpgdir) (by decide) hframes hlo hfilled.filled⟩

theorem setRoot_accounted (hacc : r.Accounted kpgdir slots first n) (root : Nat)
    (proc : Option Nat) : Accounted kpgdir slots first n
      ⟨{ r.kernel with cr3 := root, curproc := proc }, r.dirs⟩ := hacc

theorem spares_of_user {call : PagingCall} (huser : call.UserFault) :
    call.SparesDirect := by
  cases call with
  | fault user addr => exact fun hin => absurd hin.1 (Nat.not_le.mpr huser)
  | _ => trivial

theorem Stepped.accounted (hslot : slots 0 = 0) {call : PagingCall}
    (hstepped : Stepped kpgdir slots first n r s call r')
    (h : r.Sound kpgdir slots first n s) (huser : call.UserFault)
    (hstocked : call.Stocked r) (hacc : r.Accounted kpgdir slots first n) :
    r'.Accounted kpgdir slots first n := by
  cases hstepped with
  | newRoot hnew => exact h.newRoot_accounted hnew hacc
  | filled hd hfilled => exact hfilled.accounted hslot h hd hacc
  | handled hhandled => exact hhandled.accounted h huser hstocked hacc
  | uvm hd => exact setRoot_accounted hacc _ _
  | kvm => exact setRoot_accounted hacc _ _

/-- The kernel after its boot has no user page. -/
theorem accounted_of_boot {image : Image} {ram : Memory} {bounds : Nat × Nat}
    {entries : List MmapEntry} {k : Kernel} (hzero : ZeroMemory image ram slots)
    (hboot : boot image bounds entries fuel (loadedKernel image ram slots) =
      .ok k) :
    Accounted image.kpgdir slots (frameBounds image bounds entries).1
      (frameCount image bounds entries) ⟨k, []⟩ := by
  obtain ⟨left, hmap, hframes, -⟩ := boot_frames hzero.slot hzero.loaded hboot
  obtain ⟨memMap, rfl, -⟩ := boot_ok hzero.loaded hboot
  have hnone : ∀ d, ¬ d ∈ (⟨bootedKernel image ram memMap, []⟩ : PagingRun).dirs :=
    fun _ => List.not_mem_nil
  refine ⟨left, hmap, hframes, ?_, ?_, fun d hd => absurd hd (hnone d),
    fun d hd => absurd hd (hnone d)⟩
  · intro d hd va hlo hhi t ht
    obtain rfl := hd.resolve_right (hnone d)
    dsimp only at ht
    rw [bootedKernel_walk hhi] at ht
    split_ifs at ht
    obtain rfl := Option.some.inj ht
    rfl
  · intro va hva
    have hlt : va < 4294967296 := by
      simp only [kernBase] at hva
      omega
    dsimp only
    rw [bootedKernel_walk hlt, if_neg (by omega)]

end Steps

end PagingRun

/-- From the boot on frames are isolated while no fault finds the list of
frames empty. -/
theorem framesIsolated_of_stocked {image : Image} {ram : Memory}
    {slots : Int → Nat} {bounds : Nat × Nat} {entries : List MmapEntry}
    {fuel fuel' : Nat} {initial : MemMap} {k : Kernel}
    (hzero : ZeroMemory image ram slots)
    (hinit : phyMemInit image bounds entries fuel (.zeroed slots) = .ok initial)
    (hboot : boot image bounds entries fuel (loadedKernel image ram slots) =
      .ok k) {calls : List PagingCall}
    (hcalls : EachStep (PagingCall.exec image.kpgdir fuel')
      (fun r call _ => call.Occurs r ∧ call.UserFault ∧ call.Stocked r) calls
      ⟨k, []⟩) :
    EachStep (PagingCall.exec image.kpgdir fuel')
      (fun _ _ r' => FramesIsolated image.kpgdir initial r') calls ⟨k, []⟩ := by
  rw [phyMemInit_ok hinit]
  apply hcalls.of_invariant fun r => (∃ s, r.Sound image.kpgdir slots
    (frameBounds image bounds entries).1 (frameCount image bounds entries) s) ∧
      r.Accounted image.kpgdir slots (frameBounds image bounds entries).1
        (frameCount image bounds entries)
  · rintro r call r' ⟨⟨s, h⟩, hacc⟩ hstep ⟨hoccurs, huser, hstocked⟩
    have hstepped := h.stepped hzero.slot hoccurs (spares_of_user huser) hstep
    obtain ⟨left, hmap, hleft, hframes⟩ :=
      hstepped.accounted hzero.slot h huser hstocked hacc
    exact ⟨⟨hstepped.sound h, left, hmap, hleft, hframes⟩, hframes.isolated⟩
  · exact ⟨⟨_, sound_of_boot hzero hboot⟩, accounted_of_boot hzero hboot⟩

theorem smallImage_initial : ∃ initial,
    phyMemInit smallImage (0, 0) smallMap 1048577 (.zeroed fun _ => 0) =
      .ok initial := by
  obtain ⟨initial, -, -, hinit, -⟩ :=
    boot_parts (smallKernel_boot smallImage_zero.loaded)
  exact ⟨initial, hinit⟩

theorem framesIsolated_first_fault : ∃ initial,
    phyMemInit smallImage (0, 0) smallMap 1048577 (.zeroed fun _ => 0) =
        .ok initial ∧
      EachStep (PagingCall.exec smallImage.kpgdir 10)
        (fun _ _ r' => FramesIsolated smallImage.kpgdir initial r')
        [.umapInit, .switchToUvm 0xC05E0000, .fault true 0x1000]
        ⟨smallKernel (fun _ => 0) 2, []⟩ := by
  obtain ⟨initial, hinit⟩ := smallImage_initial
  refine ⟨initial, hinit, framesIsolated_of_stocked smallImage_zero hinit
    (smallKernel_boot smallImage_zero.loaded) ?_⟩
  rw [smallAccess_eachStep]
  refine ⟨⟨trivial, trivial, trivial⟩,
    ⟨List.mem_singleton_self _, trivial, trivial⟩, fun r' _ => ⟨⟨⟨by decide, ?_⟩,
      show 0x1000 < kernBase by decide, ?_⟩, trivial⟩⟩
  · decide +kernel
  · exact show (1 : Int) ≤ 2 by decide

/-- Two frames, three faults. -/
theorem smallAccess_exhausts : (do
    let r₁ ← PagingCall.exec smallImage.kpgdir 10 (.fault true 0x1000) smallAccess
    let r₂ ← PagingCall.exec smallImage.kpgdir 10 (.fault true 0x2000) r₁
    let r₃ ← PagingCall.exec smallImage.kpgdir 10 (.fault true 0x3000) r₂
    Except.ok (
      accessFaults true (pageWalk r₁.kernel.mem r₁.kernel.cr3 0x2000),
      accessFaults true (pageWalk r₂.kernel.mem r₂.kernel.cr3 0x3000),
      pageWalk r₃.kernel.mem (v2p 0xC05E0000) 0x3000, r₃.dirs)).toOption =
        some (true, true, some ⟨0, true, true⟩, [0xC05E0000]) := by
  simp only [PagingCall.exec, pageFaultHandler, mmapDoMap, mapEntry,
    memset_eq_fill]
  decide +kernel

/-- Past the last frame a fault opens frame 0 to the user. -/
theorem exhausted_fault_opens_zero :
    ¬ ∀ (image : Image) (ram : Memory) (slots : Int → Nat)
      (bounds : Nat × Nat) (entries : List MmapEntry) (fuel fuel' : Nat)
      (initial : MemMap) (k : Kernel), ZeroMemory image ram slots →
        phyMemInit image bounds entries fuel (.zeroed slots) = .ok initial →
        boot image bounds entries fuel (loadedKernel image ram slots) = .ok k →
      ∀ calls, (calls.filterMap PagingCall.faultPage).Nodup →
        EachStep (PagingCall.exec image.kpgdir fuel')
          (fun r call _ => call.Occurs r ∧ call.UserFault) calls ⟨k, []⟩ →
        EachStep (PagingCall.exec image.kpgdir fuel')
          (fun _ _ r' => FramesIsolated image.kpgdir initial r') calls ⟨k, []⟩ := by
  intro hall
  obtain ⟨initial, hinit⟩ := smallImage_initial
  obtain ⟨r₁, hfirst, heval⟩ := ok_of_bind (ok_of_toOption smallAccess_exhausts)
  obtain ⟨r₂, hsecond, heval⟩ := ok_of_bind heval
  obtain ⟨r₃, hthird, heval⟩ := ok_of_bind heval
  simp only [Except.ok.injEq, Prod.mk.injEq] at heval
  obtain ⟨hfaults, hfaults', hwalk, hdirs⟩ := heval
  have heach := hall _ _ _ _ _ _ 10 initial _ smallImage_zero hinit
    (smallKernel_boot smallImage_zero.loaded)
    [.umapInit, .switchToUvm 0xC05E0000, .fault true 0x1000, .fault true 0x2000,
      .fault true 0x3000] (by decide) (by
      rw [smallAccess_eachStep, eachStep_cons hfirst, eachStep_cons hsecond,
        eachStep_cons hthird]
      exact ⟨⟨trivial, trivial⟩, ⟨List.mem_singleton_self _, trivial⟩,
        ⟨⟨by decide, by decide +kernel⟩, show 0x1000 < kernBase by decide⟩,
        ⟨⟨by decide, hfaults⟩, show 0x2000 < kernBase by decide⟩,
        ⟨⟨by decide, hfaults'⟩, show 0x3000 < kernBase by decide⟩, trivial⟩)
  rw [smallAccess_eachStep, eachStep_cons hfirst, eachStep_cons hsecond,
    eachStep_cons hthird] at heach
  obtain ⟨-, -, -, -, hisolated, -⟩ := heach
  have hzero := hisolated 0xC05E0000 (Or.inr (hdirs ▸ List.mem_singleton_self _))
    0x3000 (by decide) _ hwalk rfl
  exact absurd hzero.2.1 (by decide)

end Linda
