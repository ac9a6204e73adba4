/-
The second while of kmap_init: the frames of the direct map leave the list of
phy_mem_init, and when that comes to an end.
-/
import Linda.MemoryMap

namespace Linda

open FuelLoop

/-- The drain of `kmap_init`: the frame popped last goes back. -/
def drainFrames (fuel : Nat) (memMap : MemMap) : Except Halt MemMap := do
  let (memMap, phyAddr) ← loop .spin drainBody fuel (memMap, 0)
  .ok (if memNormal ≤ phyAddr then phyMemFree memMap phyAddr else memMap)

theorem kmapInit_drain (image : Image) (fuel : Nat) (k : Kernel) :
    kmapInit image fuel k = (do
      let k ← loop .spin (identityBody image) fuel (k, 0)
      let memMap ← drainFrames fuel k.memMap
      .ok { k with memMap := memMap, cr3 := v2p image.kpgdir }) := by
  rw [kmapInit]
  cases loop .spin (identityBody image) fuel (k, 0) with
  | error e => rfl
  | ok k =>
      rw [ok_bind, ok_bind, drainFrames]
      cases loop .spin drainBody fuel (k.memMap, 0) with
      | error e => rfl
      | ok s => rfl

/-- The drain comes to an end with the frames at or above `MEM_NORMAL` left, in
their order. -/
def DrainExact (memMap : MemMap) : Prop :=
  ∃ memMap', Settles (fun fuel => drainFrames fuel memMap) (.ok memMap') ∧
    freeFrames memMap' =
      (freeFrames memMap).filter fun frame => decide (memNormal ≤ frame)

/-- The drain meets a frame to stop at; the word below the list is read when
the list is empty. -/
def StopsDrain (memMap : MemMap) : Prop :=
  (∃ frame ∈ freeFrames memMap, memNormal ≤ frame) ∨
    memNormal ≤ memMap.freeList 0

section Drain

variable {slots : Int → Nat} {first n : Nat}

/-- The number of frames at or above `MEM_NORMAL`. -/
def highCount (first n : Nat) : Nat := n - (memNormal - first + 4095) / 4096

theorem highCount_le : highCount first n ≤ n := Nat.sub_le _ _

/-- They are the ones at the bottom of the list. -/
theorem memNormal_le_iff {i : Nat} (hlo : 1 ≤ i) (hhi : i ≤ n) :
    memNormal ≤ lowestFrame first n i ↔ i ≤ highCount first n := by
  simp only [lowestFrame, highCount, memNormal]
  omega

theorem freeFrames_left {left : Nat} (hle : left ≤ n) :
    freeFrames (frameMap slots first n left) =
      (List.range left).map fun i : Nat => lowestFrame first n (i + 1) := by
  simp only [freeFrames, frameMap, Int.toNat_natCast]
  refine List.map_congr_left fun i hi => ?_
  rw [List.mem_range] at hi
  rw [if_pos (by omega), lowestFrame]

theorem freeFrames_high :
    (freeFrames (frameMap slots first n n)).filter
        (fun frame => decide (memNormal ≤ frame)) =
      freeFrames (frameMap slots first n (highCount first n)) := by
  have hle := @highCount_le first n
  obtain ⟨extra, hextra⟩ := Nat.exists_eq_add_of_le hle
  have hrange : List.range n = List.range (highCount first n) ++
      (List.range extra).map (highCount first n + ·) := by
    rw [← List.range_add, ← hextra]
  rw [freeFrames_left le_rfl, freeFrames_left hle, hrange, List.map_append,
    List.filter_append]
  have hhigh : ∀ frame ∈ (List.range (highCount first n)).map
      (fun i : Nat => lowestFrame first n (i + 1)),
        decide (memNormal ≤ frame) = true := by
    intro frame hframe
    obtain ⟨i, hi, rfl⟩ := List.mem_map.mp hframe
    rw [List.mem_range] at hi
    exact decide_eq_true ((@memNormal_le_iff first n (i + 1) (by omega)
      (by omega)).mpr (by omega))
  have hlow : ∀ frame ∈ ((List.range extra).map (highCount first n + ·)).map
      (fun i : Nat => lowestFrame first n (i + 1)),
        ¬ decide (memNormal ≤ frame) = true := by
    intro frame hframe
    obtain ⟨i, hi, rfl⟩ := List.mem_map.mp hframe
    obtain ⟨j, hj, rfl⟩ := List.mem_map.mp hi
    rw [List.mem_range] at hj
    intro hmem
    have hcount := (@memNormal_le_iff first n (highCount first n + j + 1)
      (by omega) (by omega)).mp (of_decide_eq_true hmem)
    omega
  rw [List.filter_eq_self.mpr hhigh, List.filter_eq_nil_iff.mpr hlow,
    List.append_nil]

/-- One round pops a frame. -/
theorem drainBody_pop {memMap : MemMap} {addr : Nat} (hmore : addr < memNormal) :
    drainBody (memMap, addr) =
      .ok (.inl ((phyMemAlloc memMap).2, (phyMemAlloc memMap).1)) := by
  rw [drainBody, if_pos hmore]

theorem drainBody_stop {memMap : MemMap} {addr : Nat} (hdone : memNormal ≤ addr) :
    drainBody (memMap, addr) = .ok (.inr (memMap, addr)) := by
  rw [drainBody, if_neg (not_lt.mpr hdone)]

/-- Frames below `MEM_NORMAL` are dropped. -/
theorem drain_low {r : Except Halt (MemMap × Nat)} {left addr : Nat}
    (hrest : ∀ addr < memNormal, Runs .spin (fun _ => drainBody)
      (frameMap slots first n (highCount first n), addr) r)
    (hlo : highCount first n ≤ left) (hhi : left ≤ n)
    (hmore : addr < memNormal) :
    Runs .spin (fun _ => drainBody) (frameMap slots first n left, addr) r := by
  induction left generalizing addr with
  | zero =>
      have hzero : highCount first n = 0 := by omega
      rw [hzero] at hrest
      exact hrest addr hmore
  | succ left ih =>
      by_cases hat : highCount first n = left + 1
      · rw [hat] at hrest
        exact hrest addr hmore
      · have hnext : lowestFrame first n ((left + 1 : Nat) : Int) < memNormal := by
          rw [← not_le, memNormal_le_iff (by omega) hhi]
          omega
        have hless : ((left + 1 : Nat) : Int) - 1 = left := by omega
        refine Runs.next ?_ (ih (by omega) (by omega) hnext)
        simp only [drainBody_pop hmore]
        rw [frameMap_alloc (by omega) (by omega), hless]
        exact settles_const _

/-- The drain stops with the lowest frame it keeps in hand. -/
theorem drain_high (hpos : 0 < highCount first n) :
    Runs .spin (fun _ => drainBody) (frameMap slots first n n, 0)
      (.ok (frameMap slots first n (highCount first n - 1),
        lowestFrame first n (highCount first n))) := by
  have hle := @highCount_le first n
  refine drain_low (fun addr hmore => ?_) hle le_rfl (by decide)
  have hpop := @drainBody_pop (frameMap slots first n (highCount first n)) addr
    hmore
  have hstop := (@memNormal_le_iff first n (highCount first n) hpos hle).mpr
    le_rfl
  rw [frameMap_alloc (by omega) (by omega)] at hpop
  refine Runs.next (by simp only [hpop]; exact settles_const _) (Runs.exit ?_)
  simp only [drainBody_stop hstop]
  exact settles_const _

/-- Without one, the word below the list stops it. -/
theorem drain_slot (hnone : highCount first n = 0) (hslot : memNormal ≤ slots 0) :
    Runs .spin (fun _ => drainBody) (frameMap slots first n n, 0)
      (.ok (frameMap slots first n (-1), slots 0)) := by
  refine drain_low (fun addr hmore => ?_) highCount_le le_rfl (by decide)
  rw [hnone]
  have hpop := @drainBody_pop (frameMap slots first n 0) addr hmore
  have halloc : phyMemAlloc (frameMap slots first n 0) =
      (slots 0, frameMap slots first n (-1)) := rfl
  rw [halloc] at hpop
  refine Runs.next (by simp only [Nat.cast_zero, hpop]; exact settles_const _)
    (Runs.exit ?_)
  simp only [drainBody_stop hslot]
  exact settles_const _

/-- Without that either the drain pops `NULL` for ever. -/
theorem drain_spins (hnone : highCount first n = 0) (hslot : slots 0 < memNormal)
    (fuel : Nat) (s : MemMap × Nat) :
    loop .spin drainBody fuel (frameMap slots first n n, 0) ≠ .ok s := by
  intro hcall
  refine loop_ok (fun s : MemMap × Nat => s.2 < memNormal ∧
    ∃ left : Int, left ≤ n ∧ s.1 = frameMap slots first n left)
    (fun _ : MemMap × Nat => False) ?_
    ⟨show 0 < memNormal by decide, n, le_rfl, rfl⟩ hcall
  rintro ⟨memMap, addr⟩ ⟨hmore, left, hle, rfl⟩ next hround
  rw [drainBody_pop hmore] at hround
  cases hround
  dsimp only [Sum.elim_inl]
  by_cases hpos : 1 ≤ left
  · rw [frameMap_alloc hpos hle]
    obtain ⟨i, rfl⟩ := Int.eq_ofNat_of_zero_le (by omega : 0 ≤ left)
    refine ⟨?_, (i : Int) - 1, by omega, rfl⟩
    rw [← not_le]
    intro hhigh
    have hcount := (memNormal_le_iff (by omega) (by omega)).mp hhigh
    omega
  · by_cases hneg : left < 0
    · have halloc : phyMemAlloc (frameMap slots first n left) =
          (0, frameMap slots first n left) := by
        simp only [phyMemAlloc, frameMap, hneg, ↓reduceIte]
      rw [halloc]
      exact ⟨show 0 < memNormal by decide, left, hle, rfl⟩
    · obtain rfl : left = 0 := by omega
      exact ⟨hslot, -1, by omega, rfl⟩

theorem drainFrames_settles {s : MemMap × Nat} {memMap : MemMap}
    (h : Runs .spin (fun _ => drainBody) (memMap, 0) (.ok s)) :
    Settles (fun fuel => drainFrames fuel memMap)
      (.ok (if memNormal ≤ s.2 then phyMemFree s.1 s.2 else s.1)) := by
  obtain ⟨bound, hbound⟩ := h.settles
  refine ⟨bound, fun fuel hfuel => ?_⟩
  have hloop := hbound fuel hfuel
  dsimp only at hloop
  simp only [drainFrames, hloop]
  rfl

theorem stopsDrain_iff : StopsDrain (frameMap slots first n n) ↔
    0 < highCount first n ∨ memNormal ≤ slots 0 := by
  have hzero : (frameMap slots first n n).freeList 0 = slots 0 := by
    simp [frameMap]
  rw [StopsDrain, hzero]
  refine or_congr_left' fun _ => ?_
  rw [freeFrames_left le_rfl]
  constructor
  · rintro ⟨frame, hframe, hhigh⟩
    obtain ⟨i, hi, rfl⟩ := List.mem_map.mp hframe
    rw [List.mem_range] at hi
    have hcount := (@memNormal_le_iff first n (i + 1) (by omega)
      (by omega)).mp hhigh
    omega
  · intro hpos
    have hle := @highCount_le first n
    refine ⟨_, List.mem_map.mpr ⟨0, List.mem_range.mpr (by omega), rfl⟩, ?_⟩
    exact (@memNormal_le_iff first n 1 le_rfl (by omega)).mpr hpos

/-- The drain of the list `phy_mem_init` leaves. -/
theorem drainExact_frameMap (haligned : first % 4096 = 0)
    (htop : first + n * 4096 ≤ 4294967296) :
    DrainExact (frameMap slots first n n) ↔ StopsDrain (frameMap slots first n n) := by
  have hle := @highCount_le first n
  rw [stopsDrain_iff]
  by_cases hpos : 0 < highCount first n
  · refine iff_of_true ⟨_, drainFrames_settles (drain_high hpos), ?_⟩
      (Or.inl hpos)
    have hstop := (@memNormal_le_iff first n (highCount first n) hpos hle).mpr
      le_rfl
    have hlt : lowestFrame first n (highCount first n) < 4294967296 := by
      simp only [lowestFrame]
      omega
    have hback := @frameMap_free slots first n (highCount first n) (by omega)
      (by omega) hlt haligned
    rw [if_pos hstop, hback, freeFrames_high]
  · have hnone : highCount first n = 0 := by omega
    by_cases hslot : memNormal ≤ slots 0
    · refine iff_of_true ⟨_, drainFrames_settles (drain_slot hnone hslot), ?_⟩
        (Or.inr hslot)
      rw [if_pos hslot, freeFrames_high, hnone]
      rfl
    · refine iff_of_false ?_ (by omega)
      rintro ⟨memMap, ⟨bound, hbound⟩, -⟩
      have hcall := hbound bound le_rfl
      dsimp only at hcall
      obtain ⟨s, hloop, -⟩ := ok_of_bind hcall
      exact drain_spins hnone (not_le.mp hslot) bound s hloop

end Drain

/-- What `phy_mem_init` leaves is a run of frames. -/
theorem phyMemInitOf_ok {size : Nat} {bounds : Nat × Nat}
    {entries : List MultibootMmapEntry} {fuel : Nat} {slots : Int → Nat}
    {memMap : MemMap}
    (hinit : phyMemInitOf size bounds entries fuel (.zeroed slots) = .ok memMap) :
    ∃ first n, memMap = frameMap slots first n n ∧ first % 4096 = 0 ∧
      first + n * 4096 ≤ 4294967296 := by
  have hround : pgRoundDown (regionBounds size bounds entries).2 % 4096 = 0 ∧
      pgRoundDown (regionBounds size bounds entries).2 < 4294967296 := by
    rw [pgRoundDown, and_pgMask_eq]
    omega
  have hfirst := pgRoundUp_mod (regionBounds size bounds entries).1
  have hlt := pgRoundUp_lt (regionBounds size bounds entries).1
  obtain ⟨n, -, hmap, hn⟩ := push_ok hround.2 hround.1 hfirst hinit
  exact ⟨_, n, hmap, hfirst, by omega⟩

/-- The drain is exact when it meets something to stop at. -/
theorem drainExact_iff {size : Nat} {bounds : Nat × Nat}
    {entries : List MultibootMmapEntry} {fuel : Nat} {slots : Int → Nat}
    {memMap : MemMap}
    (hinit : phyMemInitOf size bounds entries fuel (.zeroed slots) = .ok memMap) :
    DrainExact memMap ↔ StopsDrain memMap := by
  obtain ⟨first, n, rfl, haligned, htop⟩ := phyMemInitOf_ok hinit
  exact drainExact_frameMap haligned htop

/-- A region from 1 MB to a page behind the direct map. -/
def largeRegion : MultibootMmapEntry := ⟨20, 0x100000, 0, 0x37F01000, 0, 1⟩

theorem drainExact_largeRegion : ∃ fuel memMap,
    phyMemInitOf 0x401000 (0, 0) [largeRegion] fuel (.zeroed fun _ => 0) =
      .ok memMap ∧ DrainExact memMap := by
  obtain ⟨n, ⟨bound, hbound⟩, hn⟩ := @phyMemInitOf_settles 0x401000 (0, 0)
    (fun _ => 0) [largeRegion] largeRegion rfl (by decide)
  have hinit := hbound bound le_rfl
  have hfirst : pgRoundUp (extMem + 0x401000) = 0x501000 := by decide
  have htop : topFrame largeRegion = 0x38001000 := by decide
  rw [hfirst, htop] at hn
  refine ⟨bound, _, hinit, (drainExact_iff hinit).mpr
    (stopsDrain_iff.mpr (Or.inl ?_))⟩
  rw [hfirst]
  simp only [highCount, memNormal]
  omega

/-- With less memory than the direct map the drain never ends. -/
theorem small_memory_spins :
    ¬ ∀ (size : Nat) (bounds : Nat × Nat) (entries : List MultibootMmapEntry)
      (fuel : Nat) (slots : Int → Nat) (memMap : MemMap),
      phyMemInitOf size bounds entries fuel (.zeroed slots) = .ok memMap →
        DrainExact memMap := by
  intro hall
  obtain ⟨n, ⟨bound, hbound⟩, hn⟩ := @phyMemInitOf_settles 0x401000 (0, 0)
    (fun _ => 0) [smallRegion] smallRegion rfl (by decide)
  have hinit := hbound bound le_rfl
  have hfirst : pgRoundUp (extMem + 0x401000) = 0x501000 := by decide
  have htop : topFrame smallRegion = 0x8000000 := by decide
  have hexact := hall _ _ _ _ _ _ hinit
  rw [hfirst] at hexact hn
  rw [htop] at hn
  have hstops := (drainExact_frameMap (by decide) (by omega)).mp hexact
  rw [stopsDrain_iff] at hstops
  simp only [highCount, memNormal] at hstops
  omega

end Linda
