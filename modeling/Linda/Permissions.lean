/-
Which pages of a directory the user may access after a history of calls.  The
hardware asks the directory entry as well as the table entry, and mmap_do_map
writes the first only when it makes the table: the flags of the first mapping
of a 4 MB region stay in force for every other page of it.
-/
import Linda.PageUpdates
import Linda.PagingRuns

namespace Linda

open ByteMemory CallHistory FuelLoop

namespace MmapCall

/-- A call on the directory `d` with no flags or `PTE_U`, outside the direct
map, through which the kernel reaches directories, tables and nodes. -/
structure On (d : Nat) (call : MmapCall) : Prop where
  mmap : call.mmap = d
  flags : call.flags = 0 ∨ call.flags = pteU
  outside : call.va < kernBase ∨ kernBase + memNormal ≤ call.va

/-- The flags of a `mmap_do_map` on the page of `va`. -/
def mapFlags (va : Nat) : MmapCall → Option Nat
  | .map _ va' _ flags =>
      if va' &&& pgMask = va &&& pgMask then some flags else none
  | .unmap _ _ => none

/-- The flags of a `mmap_do_map` in the 4 MB region `i`. -/
def regionFlags (i : Nat) : MmapCall → Option Nat
  | .map _ va _ flags => if pdx va = i then some flags else none
  | .unmap _ _ => none

end MmapCall

/-- The last call on the page of `va`. -/
def lastCall (calls : List MmapCall) (va : Nat) : Option MmapCall :=
  calls.reverse.find? fun call => call.va &&& pgMask = va &&& pgMask

/-- The flags of the last `mmap_do_map` on the page of `va`. -/
def lastFlags (calls : List MmapCall) (va : Nat) : Option Nat :=
  calls.reverse.findSome? (MmapCall.mapFlags va)

/-- The flags of the first `mmap_do_map` in the region `i`. -/
def firstFlags (calls : List MmapCall) (i : Nat) : Option Nat :=
  calls.findSome? (MmapCall.regionFlags i)

/-- A mapped page, of the user half or of a call, is open to the user when its
last mapping said so. -/
def Effective (k : Kernel) (d : Nat) (calls : List MmapCall) : Prop :=
  ∀ va t, pageWalk k.mem (v2p d) va = some t →
    va < kernBase ∨ lastFlags calls va ≠ none →
      (t.user = true ↔ lastFlags calls va = some pteU)

/-- Each page left mapped with `PTE_U` is in a region of which the first
mapping passed `PTE_U`, or the directory entry had it before the calls. -/
def RegionsOpen (k : Kernel) (d : Nat) (calls : List MmapCall) : Prop :=
  ∀ va mmap va' pa, lastCall calls va = some (.map mmap va' pa pteU) →
    if entry k.mem d (pdx va) = 0 then firstFlags calls (pdx va) = some pteU
    else (entry k.mem d (pdx va)).testBit 2 = true

section Calls

variable {calls : List MmapCall} {call : MmapCall} {va : Nat}

theorem lastCall_cons (call : MmapCall) (calls : List MmapCall) (va : Nat) :
    lastCall (call :: calls) va = (lastCall calls va).or
      (if call.va &&& pgMask = va &&& pgMask then some call else none) := by
  simp only [lastCall, List.reverse_cons, List.find?_append]
  by_cases hpage : call.va &&& pgMask = va &&& pgMask
  · rw [if_pos hpage, List.find?_cons_of_pos (by simpa using hpage)]
  · rw [if_neg hpage, List.find?_cons_of_neg (by simpa using hpage),
      List.find?_nil]

theorem lastCall_singleton (call : MmapCall) (va : Nat) :
    lastCall [call] va =
      if call.va &&& pgMask = va &&& pgMask then some call else none := by
  rw [lastCall_cons]
  exact Option.none_or

theorem firstFlags_cons (call : MmapCall) (calls : List MmapCall) (i : Nat) :
    firstFlags (call :: calls) i =
      (call.regionFlags i).or (firstFlags calls i) := by
  rw [firstFlags, List.findSome?_cons]
  cases call.regionFlags i with
  | none => rfl
  | some flags => rfl

theorem lastFlags_cons (call : MmapCall) (calls : List MmapCall) (va : Nat) :
    lastFlags (call :: calls) va =
      (lastFlags calls va).or (call.mapFlags va) := by
  simp only [lastFlags, List.reverse_cons, List.findSome?_append,
    List.findSome?_singleton]

/-- A page without calls was not mapped by one. -/
theorem lastFlags_of_none (h : lastCall calls va = none) :
    lastFlags calls va = none := by
  induction calls with
  | nil => rfl
  | cons call calls ih =>
      rw [lastCall_cons, Option.or_eq_none_iff] at h
      rw [lastFlags_cons, ih h.1, Option.none_or]
      have hpage : ¬ call.va &&& pgMask = va &&& pgMask := by
        intro hpage
        rw [if_pos hpage] at h
        cases h.2
      cases call with
      | map mmap va' pa flags => exact if_neg hpage
      | unmap mmap va' => rfl

/-- A page whose last call mapped it was last mapped by that call. -/
theorem lastFlags_of_map {mmap va' pa flags : Nat}
    (h : lastCall calls va = some (.map mmap va' pa flags)) :
    lastFlags calls va = some flags := by
  induction calls with
  | nil => cases h
  | cons call calls ih =>
      rw [lastCall_cons] at h
      rw [lastFlags_cons]
      cases hrest : lastCall calls va with
      | some last =>
          rw [hrest, Option.some_or] at h
          rw [ih (hrest.trans h), Option.some_or]
      | none =>
          rw [hrest, Option.none_or] at h
          rw [lastFlags_of_none hrest, Option.none_or]
          split_ifs at h with hpage
          obtain rfl := Option.some.inj h
          exact if_pos hpage

/-- The last call on a page is one of the calls. -/
theorem mem_of_lastCall (h : lastCall calls va = some call) : call ∈ calls := by
  rw [← List.mem_reverse]
  exact List.mem_of_find?_eq_some h

end Calls

/-- What the walk of `d` finds for `va` once the last call on its page is
made. -/
def Answers (k k' : Kernel) (d va : Nat) : Option MmapCall → Prop
  | none => pageWalk k'.mem (v2p d) va = pageWalk k.mem (v2p d) va
  | some (.unmap _ _) => pageWalk k'.mem (v2p d) va = none
  | some (.map _ _ pa flags) => entry k'.mem d (pdx va) ≠ 0 ∧
      pageWalk k'.mem (v2p d) va = some ⟨pa &&& pgMask, true,
        (entry k'.mem d (pdx va)).testBit 2 && flags.testBit 2⟩

/-- What a history of calls on `d` makes of it: the first mapping of a region
decides on its directory entry, the last call on a page on the rest. -/
structure Remapped (k : Kernel) (d : Nat) (calls : List MmapCall)
    (k' : Kernel) : Prop where
  kept : ∀ i < 1024, entry k.mem d i ≠ 0 → entry k'.mem d i = entry k.mem d i
  first : ∀ i < 1024, entry k.mem d i = 0 →
    match firstFlags calls i with
    | none => entry k'.mem d i = 0
    | some flags => ∃ addr, entry k'.mem d i = pteWord addr flags
  last : ∀ va, Answers k k' d va (lastCall calls va)

section Steps

variable {k k₁ k' : Kernel} {s s' : Paging} {d va va' pa flags fuel : Nat}
  {calls : List MmapCall} {call : MmapCall}

theorem Remapped.refl (k : Kernel) (d : Nat) : Remapped k d [] k :=
  ⟨fun _ _ _ => rfl, fun _ _ hzero => hzero, fun _ => rfl⟩

/-- One call, and the calls after it. -/
theorem Remapped.cons (h : Remapped k d [call] k₁)
    (hrest : Remapped k₁ d calls k') : Remapped k d (call :: calls) k' := by
  constructor
  · intro i hi hne
    have hsame := h.kept i hi hne
    exact (hrest.kept i hi (hsame ▸ hne)).trans hsame
  · intro i hi hzero
    have hcall := h.first i hi hzero
    rw [firstFlags_cons] at hcall ⊢
    cases hregion : call.regionFlags i with
    | none =>
        rw [hregion] at hcall
        exact hrest.first i hi hcall
    | some flags =>
        rw [hregion] at hcall
        obtain ⟨addr, heq⟩ := hcall
        have hne : entry k₁.mem d i ≠ 0 := heq ▸ pteWord_ne_zero
        exact ⟨addr, (hrest.kept i hi hne).trans heq⟩
  · intro va
    have hcall := h.last va
    have hlater := hrest.last va
    rw [lastCall_cons]
    rw [← lastCall_singleton]
    cases hlast : lastCall calls va with
    | some last =>
        rw [hlast] at hlater
        rw [Option.some_or]
        cases last <;> exact hlater
    | none =>
        rw [hlast] at hlater
        rw [Option.none_or]
        rw [lastCall_singleton] at hcall ⊢
        split_ifs at hcall ⊢ with hpage
        · cases call with
          | map mmap va' pa flags =>
              obtain ⟨hne, hwalk⟩ := hcall
              have hsame := hrest.kept _ (pdx_lt va) hne
              refine ⟨hsame ▸ hne, ?_⟩
              rw [hsame]
              exact Eq.trans hlater hwalk
          | unmap mmap va' => exact Eq.trans hlater hcall
        · exact Eq.trans hlater hcall

theorem PagingAt.map_of_served (h : PagingAt k s) (hd : d ∈ s.roots)
    (hflags : flags < 4096) (hserved : (MmapCall.map d va pa flags).Served k)
    (hblank : (MmapCall.map d va pa flags).BlankNode k)
    (hcall : mmapDoMap fuel k d va pa flags = .ok k') :
    ∃ s', Mapped k s d va pa flags k' s' := by
  obtain ⟨k₁, s₁, k₂, tables', map, k₃, hun, -, hentry, -, halloc, hne⟩ :=
    h.map_granted hd hflags hserved hcall
  obtain ⟨k'', s', hsettles, hmapped, -⟩ := mapped_of_grant h hd hflags hun
    hentry halloc hne (hblank.next_eq hun hentry halloc)
  obtain rfl := Except.ok.inj ((mmapDoMap_stable k d va pa flags).eq_of_settles
    hcall (by simp) hsettles)
  exact ⟨s', hmapped⟩

/-- A call of `mmap_do_map` that was served. -/
theorem Walked.map_remaps (h : Walked k d s) (hflags : flags < 4096)
    (hsmall : flags.testBit 7 = false)
    (hserved : (MmapCall.map d va pa flags).Served k)
    (hblank : (MmapCall.map d va pa flags).BlankNode k)
    (hcall : mmapDoMap fuel k d va pa flags = .ok k') :
    ∃ s', Walked k' d s' ∧ Remapped k d [.map d va pa flags] k' := by
  obtain ⟨hpaging, hplain, hd⟩ := h
  obtain ⟨s', hmapped⟩ := hpaging.map_of_served hd hflags hserved hblank hcall
  refine ⟨s', ⟨hmapped.paging,
    hmapped.roots ▸ hmapped.write.allPlain hplain hsmall,
    hmapped.roots ▸ hd⟩, ?_⟩
  constructor
  · exact fun i hi hne => hmapped.write.pde_of_ne hd hi hne
  · intro i hi hzero
    rw [firstFlags_cons, MmapCall.regionFlags]
    by_cases hregion : pdx va = i
    · rw [if_pos hregion]
      rcases hmapped.write.pde d hd i hi with hsame | ⟨-, -, haddr⟩
      · exact absurd (hsame.trans hzero) (hregion ▸ hmapped.present)
      · exact haddr
    · rw [if_neg hregion]
      rcases hmapped.write.pde d hd i hi with hsame | ⟨⟨-, hat⟩, -⟩
      · exact hsame.trans hzero
      · exact absurd hat.symm hregion
  · intro va'
    have hlast := lastCall_singleton (.map d va pa flags) va'
    have hwalk := hmapped.walk_flags hplain hflags hsmall hd va'
    by_cases hpage : va &&& pgMask = va' &&& pgMask
    · rw [if_pos hpage] at hwalk
      rw [hlast.trans (if_pos hpage)]
      have hpdx := ((and_pgMask_eq_iff va va').mp hpage).1
      exact ⟨hpdx ▸ hmapped.present, hpdx ▸ hwalk⟩
    · rw [if_neg hpage] at hwalk
      rw [hlast.trans (if_neg hpage)]
      exact hwalk

/-- A call of `mmap_do_unmap`. -/
theorem Walked.unmap_remaps (h : Walked k d s)
    (hcall : mmapDoUnmap fuel k d va = .ok k') :
    ∃ s', Walked k' d s' ∧ Remapped k d [.unmap d va] k' := by
  obtain ⟨hpaging, hplain, hd⟩ := h
  obtain ⟨k₁, s', hsettles, hun⟩ := unmapped_settles hpaging hd va
  obtain rfl := Except.ok.inj ((mmapDoUnmap_stable k d va).eq_of_settles hcall
    (by simp) hsettles)
  refine ⟨s', ⟨hun.paging,
    hun.roots ▸ (hun.write 0).allPlain hplain (by decide), hun.roots ▸ hd⟩, ?_⟩
  constructor
  · exact fun i hi _ => hun.pde d hd i hi
  · exact fun i hi hzero => (hun.pde d hd i hi).trans hzero
  · intro va'
    have hlast := lastCall_singleton (.unmap d va) va'
    have hwalk := hun.walk_eq hplain hd va'
    by_cases hpage : va &&& pgMask = va' &&& pgMask
    · rw [if_pos hpage] at hwalk
      rw [hlast.trans (if_pos hpage)]
      exact hwalk
    · rw [if_neg hpage] at hwalk
      rw [hlast.trans (if_neg hpage)]
      exact hwalk

/-- The calls, one after the other. -/
def mmapExec (fuel : Nat) (call : MmapCall) (k : Kernel) : Except Halt Kernel :=
  call.exec fuel k

theorem MmapCall.On.small (h : call.On d) :
    call.flags < 4096 ∧ call.flags.testBit 7 = false := by
  rcases h.flags with hflags | hflags <;> rw [hflags] <;> decide

theorem Walked.remaps (h : Walked k d s) (hon : call.On d)
    (hserved : call.Served k) (hblank : call.BlankNode k)
    (hcall : mmapExec fuel call k = .ok k') :
    ∃ s', Walked k' d s' ∧ Remapped k d [call] k' := by
  obtain ⟨hflags, hsmall⟩ := hon.small
  cases call with
  | map mmap va pa flags =>
      obtain rfl := hon.mmap
      exact h.map_remaps hflags hsmall hserved hblank hcall
  | unmap mmap va =>
      obtain rfl := hon.mmap
      exact h.unmap_remaps hcall

/-- Every history of served calls with blank nodes. -/
theorem Walked.remaps_run (h : Walked k d s) (calls : List MmapCall)
    (hcalls : ∀ call ∈ calls, call.On d)
    (hserved : EachStep (mmapExec fuel)
      (fun k call _ => call.Served k ∧ call.BlankNode k) calls k)
    (hrun : CallHistory.run (mmapExec fuel) calls k = .ok k') :
    Remapped k d calls k' := by
  induction calls generalizing k s with
  | nil =>
      obtain rfl := Except.ok.inj hrun
      exact .refl k d
  | cons call calls ih =>
      obtain ⟨k₁, hcall, hrun⟩ := ok_of_bind hrun
      obtain ⟨⟨hgrant, hblank⟩, hserved⟩ := hserved k₁ hcall
      obtain ⟨s₁, hwalked, hremap⟩ := h.remaps
        (hcalls call List.mem_cons_self) hgrant hblank hcall
      exact hremap.cons (ih hwalked
        (fun c hc => hcalls c (List.mem_cons_of_mem call hc)) hserved hrun)

end Steps

section Flags

variable {k k' : Kernel} {d va i : Nat} {calls : List MmapCall}

theorem pteWord_user (addr flags : Nat) :
    (pteWord addr flags).testBit 2 = flags.testBit 2 := by
  rw [pteWord_testBit]
  simp

theorem pdx_of_lastCall {mmap va' pa flags : Nat}
    (h : lastCall calls va = some (.map mmap va' pa flags)) :
    pdx va' = pdx va := by
  have hfound := List.find?_some h
  have hpage : va' &&& pgMask = va &&& pgMask := of_decide_eq_true hfound
  exact ((and_pgMask_eq_iff va' va).mp hpage).1

/-- Some call mapped a page of the region of a page it mapped last. -/
theorem firstFlags_ne_none {mmap va' pa flags : Nat}
    (h : lastCall calls va = some (.map mmap va' pa flags)) :
    firstFlags calls (pdx va) ≠ none := by
  intro hnone
  have hcall := List.findSome?_eq_none_iff.mp hnone _ (mem_of_lastCall h)
  rw [MmapCall.regionFlags, if_pos (pdx_of_lastCall h)] at hcall
  cases hcall

/-- The bit of the directory entry is that of the first mapping. -/
theorem Remapped.entry_user (h : Remapped k d calls k')
    (hcalls : ∀ call ∈ calls, call.On d) {mmap va' pa flags : Nat}
    (hlast : lastCall calls va = some (.map mmap va' pa flags)) :
    (entry k'.mem d (pdx va)).testBit 2 = true ↔
      if entry k.mem d (pdx va) = 0 then firstFlags calls (pdx va) = some pteU
      else (entry k.mem d (pdx va)).testBit 2 = true := by
  by_cases hzero : entry k.mem d (pdx va) = 0
  · have hfirst := h.first _ (pdx_lt va) hzero
    rw [if_pos hzero]
    cases hflags : firstFlags calls (pdx va) with
    | none => exact absurd hflags (firstFlags_ne_none hlast)
    | some flags' =>
        rw [hflags] at hfirst
        obtain ⟨addr, heq⟩ := hfirst
        obtain ⟨call, hcall, hregion⟩ := List.exists_of_findSome?_eq_some hflags
        have hsmall : flags' = 0 ∨ flags' = pteU := by
          cases call with
          | map mmap va pa flags =>
              rw [MmapCall.regionFlags] at hregion
              split_ifs at hregion
              obtain rfl := Option.some.inj hregion
              exact (hcalls _ hcall).flags
          | unmap mmap va => cases hregion
        rw [heq, pteWord_user, Option.some.injEq]
        rcases hsmall with rfl | rfl <;> decide
  · rw [if_neg hzero, h.kept _ (pdx_lt va) hzero]

end Flags

/-- The flags of every mapping take effect exactly when each page left mapped
with `PTE_U` is in a region first mapped with `PTE_U`. -/
theorem effective_iff {k k' : Kernel} {s : Paging} {d fuel : Nat}
    (h : Walked k d s) (hempty : ∀ i < 768, entry k.mem d i = 0)
    {calls : List MmapCall} (hcalls : ∀ call ∈ calls, call.On d)
    (hserved : EachStep (mmapExec fuel)
      (fun k call _ => call.Served k ∧ call.BlankNode k) calls k)
    (hrun : run (mmapExec fuel) calls k = .ok k') :
    Effective k' d calls ↔ RegionsOpen k d calls := by
  have hremap := h.remaps_run calls hcalls hserved hrun
  constructor
  · intro heffective va mmap va' pa hlast
    have hanswer := hremap.last va
    rw [hlast] at hanswer
    have hflags := lastFlags_of_map hlast
    have huser := (heffective va _ hanswer.2 (Or.inr (by simp [hflags]))).mpr hflags
    rw [Bool.and_eq_true] at huser
    exact (hremap.entry_user hcalls hlast).mp huser.1
  · intro hopen va t ht hva
    have hanswer := hremap.last va
    cases hlast : lastCall calls va with
    | none =>
        have hflags := lastFlags_of_none hlast
        rcases hva with huser | hne
        · rw [hlast] at hanswer
          have hbefore : pageWalk k.mem (v2p d) va = none := by
            rw [pageWalk_root (h.paging.root_page h.root),
              hempty _ (pdx_user huser), walkEntry_zero]
          rw [hanswer.trans hbefore] at ht
          cases ht
        · exact absurd hflags hne
    | some last =>
        rw [hlast] at hanswer
        cases last with
        | unmap mmap va' =>
            have hnone : pageWalk k'.mem (v2p d) va = none := hanswer
            rw [hnone] at ht
            cases ht
        | map mmap va' pa flags =>
            rw [hanswer.2] at ht
            obtain rfl := Option.some.inj ht
            rw [lastFlags_of_map hlast, Option.some.injEq, Bool.and_eq_true]
            rcases (hcalls _ (mem_of_lastCall hlast)).flags with hzero | huser
            · obtain rfl : flags = 0 := hzero
              simp [pteU]
            · obtain rfl : flags = pteU := huser
              have hbit := (hremap.entry_user hcalls hlast).mpr
                (hopen va mmap va' pa hlast)
              exact iff_of_true ⟨hbit, by decide⟩ rfl

theorem MmapCall.proper_of_parts {fuel d va pa flags node next : Nat}
    {k k' : Kernel}
    (h : mapParts fuel k d va pa flags = .ok (node, next, k'))
    (hne : node ≠ 0) :
    (MmapCall.map d va pa flags).Served k ∧
      (next = 0 → (MmapCall.map d va pa flags).BlankNode k) ∧
      mmapDoMap fuel k d va pa flags = .ok k' := by
  obtain ⟨k₁, k₂, k₃, hun, hentry, halloc, rfl, hmap⟩ := mapParts_ok h
  refine ⟨fun fuel' k₁' k₂' k₃' hun' hentry' hnull => ?_,
    fun hblank fuel' k₁' k₂' node k₃' hun' hentry' halloc' => ?_, hmap⟩
  · have hsame := mapParts_same hun hentry halloc hun' hentry' hnull
    exact hne (Prod.mk.inj hsame).1.symm
  · obtain ⟨rfl, rfl⟩ :=
      Prod.mk.inj (mapParts_same hun hentry halloc hun' hentry' halloc')
    exact hblank

/-- The directory of the first process, its user half empty. -/
theorem smallProcess_walked : (∃ s, Walked smallProcess 0xC05E0000 s) ∧
    ∀ i < 768, entry smallProcess.mem 0xC05E0000 i = 0 := by
  have hsound := PagingRun.sound_of_boot smallImage_zero
    (smallKernel_boot smallImage_zero.loaded)
  have hnew := newRoot_of_umapInit hsound.paging hsound.zeroed
    hsound.kpgdir_root smallProcess_eq
  have hsound' := hsound.newRoot hnew
  exact ⟨⟨_, hsound'.paging, hsound'.plain, List.mem_cons_self⟩, hnew.user⟩

/-- Two pages of a region, the first for the user and mapped again elsewhere. -/
def permittedCalls : List MmapCall :=
  [.map 0xC05E0000 0x1000 0x38000000 pteU, .map 0xC05E0000 0x2000 0x38001000 0,
    .map 0xC05E0000 0x1000 0x38002000 pteU, .unmap 0xC05E0000 0x2000]

theorem permitted_eval : (do
    let (node, next, k) ← mapParts 10 smallProcess 0xC05E0000 0x1000 0x38000000
      pteU
    let (node', next', k) ← mapParts 10 k 0xC05E0000 0x2000 0x38001000 0
    let (node'', next'', k) ← mapParts 10 k 0xC05E0000 0x1000 0x38002000 pteU
    let _ ← mmapDoUnmap 10 k 0xC05E0000 0x2000
    Except.ok ((node, next), (node', next'), node'', next'')).toOption =
      some ((0xC05E2010, 0), (0xC05E2030, 0), 0xC05E2010, 0) := by
  -- a fill is read in one step, `memset` in one for every byte
  unfold mapParts mmapDoUnmap unlinkBody kmfree chunkGlue
  delta kmfreeBody glueBody
  simp only [mapEntry, memset_eq_fill]
  decide +kernel

theorem permittedCalls_on : ∀ call ∈ permittedCalls, call.On 0xC05E0000 := by
  intro call hcall
  simp only [permittedCalls, List.mem_cons, List.not_mem_nil, or_false] at hcall
  rcases hcall with rfl | rfl | rfl | rfl
  · exact ⟨rfl, Or.inr rfl, Or.inl (by decide)⟩
  · exact ⟨rfl, Or.inl rfl, Or.inl (by decide)⟩
  · exact ⟨rfl, Or.inr rfl, Or.inl (by decide)⟩
  · exact ⟨rfl, Or.inl rfl, Or.inl (by decide)⟩

/-- The region stays open to the user. -/
theorem permittedCalls_open {k : Kernel}
    (hempty : ∀ i < 768, entry k.mem 0xC05E0000 i = 0) :
    RegionsOpen k 0xC05E0000 permittedCalls := by
  intro va mmap va' pa hlast
  have hmem := mem_of_lastCall hlast
  simp only [permittedCalls, List.mem_cons, List.not_mem_nil, or_false,
    MmapCall.map.injEq, reduceCtorEq] at hmem
  have hva : va' = 0x1000 := by
    rcases hmem with ⟨-, hva, -⟩ | ⟨-, -, -, hflags⟩ | ⟨-, hva, -⟩
    · exact hva
    · cases hflags
    · exact hva
  rw [← pdx_of_lastCall hlast, hva, if_pos (hempty _ (by decide))]
  decide

theorem effective_permitted : ∃ k',
    run (mmapExec 10) permittedCalls smallProcess = .ok k' ∧
      Effective k' 0xC05E0000 permittedCalls := by
  obtain ⟨⟨node, next, k₁⟩, hfirst, heval⟩ :=
    ok_of_bind (ok_of_toOption permitted_eval)
  obtain ⟨⟨node', next', k₂⟩, hsecond, heval⟩ := ok_of_bind heval
  obtain ⟨⟨node'', next'', k₃⟩, hthird, heval⟩ := ok_of_bind heval
  obtain ⟨k₄, hunmap, heval⟩ := ok_of_bind heval
  simp only [Except.ok.injEq, Prod.mk.injEq] at heval
  obtain ⟨⟨rfl, rfl⟩, ⟨rfl, rfl⟩, rfl, rfl⟩ := heval
  obtain ⟨hserved₁, hblank₁, hmap₁⟩ :=
    MmapCall.proper_of_parts hfirst (by decide)
  obtain ⟨hserved₂, hblank₂, hmap₂⟩ :=
    MmapCall.proper_of_parts hsecond (by decide)
  obtain ⟨hserved₃, hblank₃, hmap₃⟩ :=
    MmapCall.proper_of_parts hthird (by decide)
  obtain ⟨⟨s, hwalked⟩, hempty⟩ := smallProcess_walked
  have hgranted : EachStep (mmapExec 10)
      (fun k call _ => call.Served k ∧ call.BlankNode k) permittedCalls
      smallProcess := by
    refine fun k hk => ⟨⟨hserved₁, hblank₁ rfl⟩, fun k' hk' => ⟨?_,
      fun k'' hk'' => ⟨?_, fun _ _ => ⟨⟨trivial, trivial⟩, trivial⟩⟩⟩⟩
    · obtain rfl := Except.ok.inj (hmap₁.symm.trans hk)
      exact ⟨hserved₂, hblank₂ rfl⟩
    · obtain rfl := Except.ok.inj (hmap₁.symm.trans hk)
      obtain rfl := Except.ok.inj (hmap₂.symm.trans hk')
      exact ⟨hserved₃, hblank₃ rfl⟩
  have hrun : run (mmapExec 10) permittedCalls smallProcess = .ok k₄ := by
    simp only [permittedCalls, run, mmapExec, MmapCall.exec, hmap₁, hmap₂, hmap₃,
      hunmap, ok_bind]
  exact ⟨k₄, hrun, (effective_iff hwalked hempty permittedCalls_on hgranted
    hrun).mpr (permittedCalls_open hempty)⟩

/-- Two pages of a region, the first not for the user: what the walk finds for
the second. -/
theorem shared_region_eval : (do
    let (node, next, k) ← mapParts 10 smallProcess 0xC05E0000 0x1000
      0x38000000 0
    let (node', next', k') ← mapParts 10 k 0xC05E0000 0x2000 0x38001000 pteU
    Except.ok ((node, next), (node', next'),
      pageWalk k'.mem (v2p 0xC05E0000) 0x2000)).toOption =
        some ((0xC05E2010, 0), (0xC05E2030, 0),
          some ⟨0x38001000, true, false⟩) := by
  simp only [mapParts, mapEntry, memset_eq_fill]
  decide +kernel

/-- The second mapping asks for `PTE_U` and does not get it. -/
theorem first_mapping_closes :
    ¬ ∀ (k k' : Kernel) (s : Paging) (d fuel : Nat) (calls : List MmapCall),
      Walked k d s → (∀ i < 768, entry k.mem d i = 0) →
      (∀ call ∈ calls, call.On d) →
      EachStep (mmapExec fuel)
        (fun k call _ => call.Served k ∧ call.BlankNode k) calls k →
      run (mmapExec fuel) calls k = .ok k' → Effective k' d calls := by
  intro hall
  obtain ⟨⟨node, next, k₁⟩, hfirst, heval⟩ :=
    ok_of_bind (ok_of_toOption shared_region_eval)
  obtain ⟨⟨node', next', k₂⟩, hsecond, heval⟩ := ok_of_bind heval
  simp only [Except.ok.injEq, Prod.mk.injEq] at heval
  obtain ⟨⟨rfl, rfl⟩, ⟨rfl, rfl⟩, hwalk⟩ := heval
  obtain ⟨hserved, hblank, hmap⟩ := MmapCall.proper_of_parts hfirst (by decide)
  obtain ⟨hserved', hblank', hmap'⟩ := MmapCall.proper_of_parts hsecond (by decide)
  obtain ⟨⟨s, hwalked⟩, hempty⟩ := smallProcess_walked
  have hon : ∀ call ∈ [MmapCall.map 0xC05E0000 0x1000 0x38000000 0,
      .map 0xC05E0000 0x2000 0x38001000 pteU], call.On 0xC05E0000 := by
    intro call hcall
    simp only [List.mem_cons, List.not_mem_nil, or_false] at hcall
    rcases hcall with rfl | rfl
    · exact ⟨rfl, Or.inl rfl, Or.inl (by decide)⟩
    · exact ⟨rfl, Or.inr rfl, Or.inl (by decide)⟩
  have hgranted : EachStep (mmapExec 10)
      (fun k call _ => call.Served k ∧ call.BlankNode k)
      [.map 0xC05E0000 0x1000 0x38000000 0,
        .map 0xC05E0000 0x2000 0x38001000 pteU] smallProcess := by
    refine fun k hk => ⟨⟨hserved, hblank rfl⟩, fun _ _ => ⟨?_, trivial⟩⟩
    obtain rfl := Except.ok.inj (hmap.symm.trans hk)
    exact ⟨hserved', hblank' rfl⟩
  have hrun : run (mmapExec 10) [.map 0xC05E0000 0x1000 0x38000000 0,
      .map 0xC05E0000 0x2000 0x38001000 pteU] smallProcess = .ok k₂ := by
    simp only [run, mmapExec, MmapCall.exec, hmap, hmap', ok_bind]
  have heffective := hall _ _ s _ _ _ hwalked hempty hon hgranted hrun
  have huser := (heffective 0x2000 _ hwalk (Or.inl (by decide))).mpr (by decide)
  cases huser

end Linda
