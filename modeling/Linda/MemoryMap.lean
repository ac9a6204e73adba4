/-
The memory map of the boot loader: which frames phy_mem_init takes from it, and
which of its entries phy_mem_init and show_memory_map visit.
-/
import Linda.BootPaging

namespace Linda

open ByteMemory FuelLoop

/-- `struct multiboot_mmap_entry` -/
structure MultibootMmapEntry where
  size : UInt32
  addrLow : UInt32
  addrHigh : UInt32
  lenLow : UInt32
  lenHigh : UInt32
  type : UInt32
deriving Repr, DecidableEq

namespace MultibootMmapEntry

/-- The first address of the region. -/
def start (region : MultibootMmapEntry) : Nat :=
  region.addrHigh.toNat * 4294967296 + region.addrLow.toNat

/-- The address behind the region. -/
def stop (region : MultibootMmapEntry) : Nat :=
  region.start + region.lenHigh.toNat * 4294967296 + region.lenLow.toNat

/-- The fields `phy_mem_init` reads. -/
def fields (region : MultibootMmapEntry) : MmapEntry :=
  ⟨region.addrLow.toNat, region.lenLow.toNat, region.type.toNat⟩

/-- An available region that starts at 1 MB. -/
def Extended (region : MultibootMmapEntry) : Prop :=
  region.type.toNat = memoryAvailable ∧ region.start = extMem

/-- What `phy_mem_init` takes for one: it looks at the low words only. -/
def Taken (region : MultibootMmapEntry) : Prop :=
  region.type.toNat = memoryAvailable ∧ region.addrLow.toNat = extMem

instance : DecidablePred Extended := fun _ =>
  inferInstanceAs (Decidable (_ ∧ _))

instance : DecidablePred Taken := fun _ =>
  inferInstanceAs (Decidable (_ ∧ _))

theorem Extended.low {region : MultibootMmapEntry} (h : region.Extended) :
    region.addrHigh.toNat = 0 ∧ region.addrLow.toNat = extMem := by
  have hstart := h.2
  have hlt := region.addrLow.toNat_lt
  simp only [start, extMem] at hstart ⊢
  omega

theorem Extended.taken {region : MultibootMmapEntry} (h : region.Extended) :
    region.Taken := ⟨h.1, h.low.2⟩

end MultibootMmapEntry

/-- The `for` of `phy_mem_init`, for a kernel of `size` bytes. -/
def regionBounds (size : Nat) (bounds : Nat × Nat)
    (entries : List MultibootMmapEntry) : Nat × Nat :=
  entries.foldl (fun bounds mapEntry =>
    if mapEntry.Taken then
      (u32 (mapEntry.addrLow.toNat + size),
        u32 (mapEntry.addrLow.toNat + mapEntry.lenLow.toNat))
    else bounds) bounds

/-- `phy_mem_init` for a kernel of `size` bytes. -/
def phyMemInitOf (size : Nat) (bounds : Nat × Nat)
    (entries : List MultibootMmapEntry) (fuel : Nat) (memMap : MemMap) :
    Except Halt MemMap :=
  let (startAddr, endAddr) := regionBounds size bounds entries
  loop .spin (pushBody (pgRoundUp startAddr)) fuel
    (memMap, pgRoundDown endAddr)

theorem regionBounds_image (image : Image) (bounds : Nat × Nat)
    (entries : List MultibootMmapEntry) :
    memoryBounds image bounds (entries.map MultibootMmapEntry.fields) =
      regionBounds (image.kernEnd - kernStart) bounds entries := by
  rw [memoryBounds, List.foldl_map]
  rfl

/-- For a linked kernel it is the one of the boot. -/
theorem phyMemInitOf_image (image : Image) (bounds : Nat × Nat)
    (entries : List MultibootMmapEntry) (fuel : Nat) (memMap : MemMap) :
    phyMemInit image bounds (entries.map MultibootMmapEntry.fields) fuel memMap =
      phyMemInitOf (image.kernEnd - kernStart) bounds entries fuel memMap := by
  rw [phyMemInit, regionBounds_image]
  rfl

/-- The frames in the list, from its bottom up. -/
def freeFrames (memMap : MemMap) : List Nat :=
  (List.range memMap.header.toNat).map fun i : Nat => memMap.freeList (i + 1)

/-- The list holds exactly the frames of `usable`, each once, and `page_count`
is their number. -/
structure Publishes (memMap : MemMap) (usable : Nat → Prop) : Prop where
  once : (freeFrames memMap).Nodup
  exact_frames : ∀ frame, frame ∈ freeFrames memMap ↔ usable frame
  count : memMap.pageCount = (freeFrames memMap).length

/-- A frame wholly inside the region, behind a kernel of `size` bytes. -/
def Usable (size : Nat) (region : MultibootMmapEntry) (frame : Nat) : Prop :=
  frame % 4096 = 0 ∧ extMem + size ≤ frame ∧ frame + 4096 ≤ region.stop

section Frames

variable {slots : Int → Nat} {first n : Nat}

theorem mem_freeFrames {frame : Nat} :
    frame ∈ freeFrames (frameMap slots first n n) ↔
      ∃ j < n, frame = first + j * 4096 := by
  simp only [freeFrames, frameMap, Int.toNat_natCast, List.mem_map,
    List.mem_range]
  constructor
  · rintro ⟨i, hi, rfl⟩
    have hin : 1 ≤ (i : Int) + 1 ∧ (i : Int) + 1 ≤ n := by omega
    refine ⟨n - (i + 1), by omega, ?_⟩
    rw [if_pos hin]
    omega
  · rintro ⟨j, hj, rfl⟩
    have hin : 1 ≤ ((n - (j + 1) : Nat) : Int) + 1 ∧
        ((n - (j + 1) : Nat) : Int) + 1 ≤ n := by omega
    refine ⟨n - (j + 1), by omega, ?_⟩
    rw [if_pos hin]
    omega

theorem length_freeFrames :
    (freeFrames (frameMap slots first n n)).length = n := by
  simp [freeFrames, frameMap]

theorem nodup_freeFrames : (freeFrames (frameMap slots first n n)).Nodup := by
  refine List.Nodup.map_on ?_ List.nodup_range
  intro i hi j hj heq
  rw [List.mem_range] at hi hj
  simp only [frameMap, Int.toNat_natCast] at hi hj heq
  have hin : 1 ≤ (i : Int) + 1 ∧ (i : Int) + 1 ≤ n := by omega
  have hjn : 1 ≤ (j : Int) + 1 ∧ (j : Int) + 1 ≤ n := by omega
  rw [if_pos hin, if_pos hjn] at heq
  omega

/-- What the list publishes, in terms of its ends. -/
theorem publishes_frameMap {usable : Nat → Prop} :
    Publishes (frameMap slots first n n) usable ↔
      ∀ frame, usable frame ↔ ∃ j < n, frame = first + j * 4096 := by
  constructor
  · intro h frame
    rw [← h.exact_frames, mem_freeFrames]
  · intro h
    refine ⟨nodup_freeFrames, fun frame => ?_, length_freeFrames.symm⟩
    rw [h, mem_freeFrames]

end Frames

/-- The entry `phy_mem_init` ends up with. -/
theorem regionBounds_last {size : Nat} {bounds : Nat × Nat}
    {entries : List MultibootMmapEntry} {last : MultibootMmapEntry}
    (hlast : (entries.filter MultibootMmapEntry.Taken).getLast? = some last) :
    regionBounds size bounds entries =
      (u32 (extMem + size), u32 (extMem + last.lenLow.toNat)) := by
  induction entries using List.reverseRecOn with
  | nil => cases hlast
  | append_singleton entries region ih =>
      rw [List.filter_append] at hlast
      rw [regionBounds, List.foldl_append]
      by_cases htaken : region.Taken
      · have hone : [region].filter MultibootMmapEntry.Taken = [region] := by
          simp [htaken]
        rw [hone, List.getLast?_concat] at hlast
        obtain rfl := Option.some.inj hlast
        simp only [List.foldl_cons, List.foldl_nil, if_pos htaken, htaken.2]
      · have hnone : [region].filter MultibootMmapEntry.Taken = [] := by
          simp [htaken]
        rw [hnone, List.append_nil] at hlast
        simp only [List.foldl_cons, List.foldl_nil, if_neg htaken]
        exact ih hlast

/-- Started at frame 0 the `while` goes on for ever. -/
theorem push_from_zero {fuel : Nat} {s : MemMap × Nat} {memMap : MemMap} :
    loop .spin (pushBody 0) fuel s ≠ .ok memMap := by
  intro hcall
  refine loop_ok (fun _ => True) (fun _ : MemMap => False) ?_ trivial hcall
  rintro ⟨map, addr⟩ - next hround
  rw [pushBody, if_pos (Nat.zero_le addr)] at hround
  cases hround
  trivial

theorem pgRoundUp_eq {a : Nat} (h : a ≤ 4294963200) :
    pgRoundUp a = (a + 4095) / 4096 * 4096 := by
  have hlt : a + 4095 < 4294967296 := by omega
  rw [pgRoundUp, show a + pgSize - 1 = a + 4095 from rfl, u32_of_lt hlt,
    and_pgMask hlt]

theorem pgRoundUp_zero {a : Nat} (h : 4294963200 < a) (hlt : a < 4294967296) :
    pgRoundUp a = 0 := by
  have hwrap : u32 (a + 4095) = a - 4294963201 := by
    simp only [u32]
    omega
  rw [pgRoundUp, show a + pgSize - 1 = a + 4095 from rfl, hwrap,
    and_pgMask (by omega)]
  omega

section Publish

variable {size : Nat} {bounds : Nat × Nat} {slots : Int → Nat}
  {entries : List MultibootMmapEntry} {region last : MultibootMmapEntry}

/-- The last frame `phy_mem_init` pushes, when it pushes any. -/
def topFrame (last : MultibootMmapEntry) : Nat :=
  pgRoundDown (u32 (extMem + last.lenLow.toNat))

theorem topFrame_facts (last : MultibootMmapEntry) :
    topFrame last < 4294967296 ∧ topFrame last % 4096 = 0 := by
  have hlt : u32 (extMem + last.lenLow.toNat) < 4294967296 :=
    Nat.mod_lt _ (by decide)
  rw [topFrame, pgRoundDown_eq hlt]
  omega

theorem phyMemInitOf_eq
    (hlast : (entries.filter MultibootMmapEntry.Taken).getLast? = some last)
    (hsize : extMem + size < 4294967296) (fuel : Nat) :
    phyMemInitOf size bounds entries fuel (.zeroed slots) =
      loop .spin (pushBody (pgRoundUp (extMem + size))) fuel
        (.zeroed slots, topFrame last) := by
  rw [phyMemInitOf, regionBounds_last hlast, u32_of_lt hsize]
  rfl

/-- Kernel and region decide what is pushed, the highest frame first. -/
theorem phyMemInitOf_settles
    (hlast : (entries.filter MultibootMmapEntry.Taken).getLast? = some last)
    (hsize : extMem + size ≤ 4294963200) :
    ∃ n, Settles (fun fuel => phyMemInitOf size bounds entries fuel
        (.zeroed slots))
        (.ok (frameMap slots (pgRoundUp (extMem + size)) n n)) ∧
      (n = 0 ∧ topFrame last < pgRoundUp (extMem + size) ∨
        0 < n ∧ pgRoundUp (extMem + size) + n * 4096 = topFrame last + 4096) := by
  obtain ⟨htop, htop'⟩ := topFrame_facts last
  have hround := pgRoundUp_eq hsize
  have hfirst : pgRoundUp (extMem + size) % 4096 = 0 := pgRoundUp_mod _
  have hpos : 0 < pgRoundUp (extMem + size) := by
    simp only [extMem] at hround ⊢
    omega
  have hrun : ∀ fuel, 1048576 < fuel →
      phyMemInitOf size bounds entries fuel (.zeroed slots) =
        .ok (frameMap slots (pgRoundUp (extMem + size))
          ((topFrame last + 4096 - pgRoundUp (extMem + size)) / 4096)
          ((topFrame last + 4096 - pgRoundUp (extMem + size)) / 4096 : Nat)) := by
    intro fuel hfuel
    rw [phyMemInitOf_eq hlast (by omega)]
    obtain ⟨memMap, hcall⟩ :=
      @push_returns slots fuel _ _ htop htop' hfirst hpos hfuel
    obtain ⟨n, -, rfl, hn⟩ := push_ok htop htop' hfirst hcall
    have hcount : n =
        (topFrame last + 4096 - pgRoundUp (extMem + size)) / 4096 := by omega
    rw [hcall, hcount]
  exact ⟨_, ⟨1048577, fun fuel hfuel => hrun fuel hfuel⟩, by omega⟩

/-- No page boundary lies behind the kernel in the region, or the top frame is
the last one inside it. -/
def EndsInside (size : Nat) (region last : MultibootMmapEntry) : Prop :=
  extMem + size ≤ 4294963200 ∧
    (topFrame last < pgRoundUp (extMem + size) ∧
        pgRoundDown region.stop ≤ pgRoundUp (extMem + size) ∨
      pgRoundUp (extMem + size) ≤ topFrame last ∧
        topFrame last + 4096 = pgRoundDown region.stop)

/-- The frames from `first` on are those inside the region exactly when they
end where it does. -/
theorem usable_run {n : Nat} (hsize : extMem + size ≤ 4294963200)
    (hstop : region.stop < 4294967296)
    (hn : n = 0 ∧ topFrame last < pgRoundUp (extMem + size) ∨
      0 < n ∧ pgRoundUp (extMem + size) + n * 4096 = topFrame last + 4096) :
    (∀ frame, Usable size region frame ↔
        ∃ j < n, frame = pgRoundUp (extMem + size) + j * 4096) ↔
      EndsInside size region last := by
  have hround := pgRoundUp_eq hsize
  have hdown := pgRoundDown_eq hstop
  obtain ⟨-, htop⟩ := topFrame_facts last
  simp only [EndsInside, Usable]
  generalize topFrame last = top at *
  generalize pgRoundUp (extMem + size) = first at *
  generalize pgRoundDown region.stop = stop at *
  generalize extMem + size = start at *
  constructor
  · intro hsame
    refine ⟨hsize, ?_⟩
    -- the first frame and the one at the end of the region decide it
    have hfirst := hsame first
    have hlast := hsame top
    have hnext := hsame (top + 4096)
    rcases hn with ⟨rfl, hlt⟩ | ⟨hpos, hsum⟩
    · refine Or.inl ⟨hlt, ?_⟩
      by_contra hmore
      obtain ⟨j, hj, -⟩ := hfirst.mp ⟨by omega, by omega, by omega⟩
      omega
    · refine Or.inr ⟨by omega, ?_⟩
      have hin := hlast.mpr ⟨n - 1, by omega, by omega⟩
      by_contra hne
      obtain ⟨j, hj, hat⟩ := hnext.mp ⟨by omega, by omega, by omega⟩
      omega
  · rintro ⟨-, hends⟩ frame
    constructor
    · rintro ⟨haligned, hlo, hhi⟩
      refine ⟨(frame - first) / 4096, by omega, by omega⟩
    · rintro ⟨j, hj, rfl⟩
      omega

theorem publishes_of_taken
    (hlast : (entries.filter MultibootMmapEntry.Taken).getLast? = some last)
    (hsize : extMem + size < 4294967296) (hstop : region.stop < 4294967296) :
    (∃ memMap, Settles (fun fuel => phyMemInitOf size bounds entries fuel
        (.zeroed slots)) (.ok memMap) ∧ Publishes memMap (Usable size region)) ↔
      EndsInside size region last := by
  by_cases hfits : extMem + size ≤ 4294963200
  · obtain ⟨n, hsettles, hn⟩ :=
      @phyMemInitOf_settles size bounds slots entries last hlast hfits
    rw [← usable_run hfits hstop hn, ← @publishes_frameMap slots]
    constructor
    · rintro ⟨memMap, hsettles', hpublishes⟩
      obtain rfl := Except.ok.inj (hsettles'.unique hsettles)
      exact hpublishes
    · exact fun hpublishes => ⟨_, hsettles, hpublishes⟩
  · -- the rounding wraps around to frame 0
    refine iff_of_false ?_ fun hends => hfits hends.1
    rintro ⟨memMap, ⟨bound, hbound⟩, -⟩
    have hcall := hbound bound le_rfl
    dsimp only at hcall
    rw [phyMemInitOf_eq hlast hsize, pgRoundUp_zero (by omega) hsize] at hcall
    exact push_from_zero hcall

end Publish

/-- The entry whose words `phy_mem_init` ends up with: the last one taken for
the region at 1 MB. -/
def lastTaken (entries : List MultibootMmapEntry) (region : MultibootMmapEntry) :
    MultibootMmapEntry :=
  (entries.filter MultibootMmapEntry.Taken).getLast?.getD region

theorem lastTaken_eq {entries : List MultibootMmapEntry}
    {region : MultibootMmapEntry}
    (honly : entries.filter MultibootMmapEntry.Extended = [region]) :
    (entries.filter MultibootMmapEntry.Taken).getLast? =
      some (lastTaken entries region) := by
  have hmem : region ∈ entries.filter MultibootMmapEntry.Extended := by
    rw [honly]
    exact List.mem_singleton_self region
  obtain ⟨hin, hextended⟩ := List.mem_filter.mp hmem
  have htaken : region ∈ entries.filter MultibootMmapEntry.Taken :=
    List.mem_filter.mpr
      ⟨hin, decide_eq_true (of_decide_eq_true hextended).taken⟩
  cases hlast : (entries.filter MultibootMmapEntry.Taken).getLast? with
  | none =>
      rw [List.getLast?_eq_none_iff] at hlast
      rw [hlast] at htaken
      cases htaken
  | some last => rw [lastTaken, hlast, Option.getD_some]

/-- `phy_mem_init` publishes the usable frames when it pushes none behind
them. -/
theorem publishes_iff {size : Nat} {bounds : Nat × Nat} {slots : Int → Nat}
    {entries : List MultibootMmapEntry} {region : MultibootMmapEntry}
    (honly : entries.filter MultibootMmapEntry.Extended = [region])
    (hstop : region.stop < 4294967296) (hsize : extMem + size < region.stop) :
    (∃ memMap, Settles (fun fuel => phyMemInitOf size bounds entries fuel
        (.zeroed slots)) (.ok memMap) ∧ Publishes memMap (Usable size region)) ↔
      EndsInside size region (lastTaken entries region) :=
  publishes_of_taken (lastTaken_eq honly) (hsize.trans hstop) hstop

/-- 127 MB from 1 MB on. -/
def smallRegion : MultibootMmapEntry := ⟨20, 0x100000, 0, 0x7F00000, 0, 1⟩

/-- A region that ends inside the page its kernel ends in. -/
def tinyRegion : MultibootMmapEntry := ⟨20, 0x100000, 0, 0x500800, 0, 1⟩

theorem publishes_tinyRegion :
    ∃ memMap, Settles (fun fuel => phyMemInitOf 0x500400 (0, 0) [tinyRegion]
        fuel (.zeroed fun _ => 0)) (.ok memMap) ∧
      Publishes memMap (Usable 0x500400 tinyRegion) := by
  rw [publishes_iff (by decide) (by decide) (by decide)]
  simp only [EndsInside]
  decide

/-- The frame at the end of the region is pushed, and is not inside it. -/
theorem frame_behind_region :
    ¬ ∀ (size : Nat) (bounds : Nat × Nat) (slots : Int → Nat)
      (entries : List MultibootMmapEntry) (region : MultibootMmapEntry),
      entries.filter MultibootMmapEntry.Extended = [region] →
      region.stop < 4294967296 → extMem + size < region.stop →
      ∃ memMap, Settles (fun fuel => phyMemInitOf size bounds entries fuel
          (.zeroed slots)) (.ok memMap) ∧
        Publishes memMap (Usable size region) := by
  intro hall
  have hpublishes := hall 0x500000 (0, 0) (fun _ => 0) [smallRegion] smallRegion
    (by decide) (by decide) (by decide)
  have hends := (@publishes_of_taken 0x500000 (0, 0) (fun _ => 0) [smallRegion]
    smallRegion smallRegion rfl (by decide) (by decide)).mp hpublishes
  revert hends
  simp only [EndsInside]
  decide

/-- How `show_memory_map` stops. -/
inductive MapHalt where
  | invalidMap
  | spin
deriving Repr, DecidableEq

/-- The panic message. -/
def MapHalt.text : MapHalt → String
  | .invalidMap =>
      "show_memory_map: it`s not a valid multiboot mmap struct!\n"
  | .spin => ""

/-- `MULTIBOOT_INFO_MEM_MAP` -/
def infoMemMap : Nat := 0x40

/-- One round of a `for` over the entries before `endAddr`; `seen` are the
entries visited so far. -/
def visitBody {ε : Type} (endAddr : Nat) :
    Nat × List Nat → Except ε ((Nat × List Nat) ⊕ List Nat)
  | (mmap, seen) =>
      if mmap < endAddr then .ok (.inl (u32 (mmap + 24), seen ++ [mmap]))
      else .ok (.inr seen)

/-- The entries `show_memory_map` prints, by their addresses. -/
def showMemoryMap (flags mmapAddr mmapLength fuel : Nat) :
    Except MapHalt (List Nat) :=
  if flags &&& infoMemMap ≠ 0 then
    loop .spin (visitBody (u32 (mmapAddr + mmapLength))) fuel (mmapAddr, [])
  else .error .invalidMap

/-- The entries `phy_mem_init` looks at: its end is a sum of a pointer to a
24-byte entry and a number. -/
def examineEntries (mmapAddr mmapLength fuel : Nat) :
    Except Halt (List Nat) :=
  loop .spin (visitBody (u32 (mmapAddr + 24 * mmapLength))) fuel (mmapAddr, [])

/-- The entry at an address. -/
def readEntry (m : Memory) (mmap : Nat) : MultibootMmapEntry where
  size := .ofNat (load32 m mmap)
  addrLow := .ofNat (load32 m (mmap + 4))
  addrHigh := .ofNat (load32 m (mmap + 8))
  lenLow := .ofNat (load32 m (mmap + 12))
  lenHigh := .ofNat (load32 m (mmap + 16))
  type := .ofNat (load32 m (mmap + 20))

/-- What `phy_mem_init` makes of the entries it looked at. -/
def initFrom (image : Image) (bounds : Nat × Nat) (examined : List Nat)
    (m : Memory) (fuel : Nat) (memMap : MemMap) : Except Halt MemMap :=
  phyMemInit image bounds
    ((examined.map (readEntry m)).map MultibootMmapEntry.fields) fuel memMap

/-- Both loops visit the same entries, all of which start in the map, and what
is behind the map does not matter. -/
def ReadersAgree (image : Image) (bounds : Nat × Nat)
    (flags mmapAddr mmapLength : Nat) : Prop :=
  ∃ shown examined,
    Settles (showMemoryMap flags mmapAddr mmapLength) (.ok shown) ∧
    Settles (examineEntries mmapAddr mmapLength) (.ok examined) ∧
    examined = shown ∧
    (∀ mmap ∈ examined, mmapAddr ≤ mmap ∧ mmap < mmapAddr + mmapLength) ∧
    ∀ m m' : Memory,
      (∀ x, mmapAddr ≤ x → x < mmapAddr + mmapLength → m' x = m x) →
        ∀ fuel memMap, initFrom image bounds examined m' fuel memMap =
          initFrom image bounds examined m fuel memMap

section Readers

variable {image : Image} {bounds : Nat × Nat}
  {flags mmapAddr mmapLength endAddr mmap n : Nat}

theorem visitBody_next {ε : Type} {seen : List Nat} (hmore : mmap < endAddr)
    (hwrap : mmap + 24 < 4294967296) :
    (visitBody endAddr (mmap, seen) : Except ε _) =
      .ok (.inl (mmap + 24, seen ++ [mmap])) := by
  rw [visitBody, if_pos hmore, u32_of_lt hwrap]

/-- A loop over `n` entries. -/
theorem visit_runs {ε : Type} (spin : ε) (seen : List Nat)
    (hend : endAddr ≤ mmap + 24 * n)
    (hmore : ∀ i < n, mmap + 24 * i < endAddr)
    (hwrap : mmap + 24 * n < 4294967296) :
    Runs spin (fun _ => visitBody endAddr) (mmap, seen)
      (.ok (seen ++ List.range' mmap n 24)) := by
  induction n generalizing mmap seen with
  | zero =>
      refine Runs.exit ?_
      have hdone : ¬ mmap < endAddr := by omega
      simp only [visitBody, if_neg hdone, List.range'_zero, List.append_nil]
      exact settles_const _
  | succ n ih =>
      have hfirst : mmap < endAddr := hmore 0 (Nat.succ_pos n)
      have hrest := @ih (mmap + 24) (seen ++ [mmap]) (by omega)
        (fun i hi => by have hnext := hmore (i + 1) (by omega); omega) (by omega)
      rw [List.append_assoc] at hrest
      rw [List.range'_succ]
      refine Runs.next ?_ hrest
      simp only [visitBody_next hfirst (by omega)]
      exact settles_const _

/-- The entries `show_memory_map` prints start inside the map. -/
theorem showMemoryMap_settles (hflags : flags &&& infoMemMap ≠ 0)
    (hwrap : mmapAddr + 24 * mmapLength < 4294967296) :
    Settles (fun fuel => showMemoryMap flags mmapAddr mmapLength fuel)
      (.ok (List.range' mmapAddr ((mmapLength + 23) / 24) 24)) := by
  have hend : u32 (mmapAddr + mmapLength) = mmapAddr + mmapLength :=
    u32_of_lt (by omega)
  have hruns := @visit_runs (mmapAddr + mmapLength) mmapAddr
    ((mmapLength + 23) / 24) MapHalt .spin [] (by omega)
    (fun i hi => by omega) (by omega)
  simp only [showMemoryMap, if_pos hflags, hend]
  exact hruns.settles

/-- `phy_mem_init` looks at as many entries as the map has bytes. -/
theorem examineEntries_settles
    (hwrap : mmapAddr + 24 * mmapLength < 4294967296) :
    Settles (fun fuel => examineEntries mmapAddr mmapLength fuel)
      (.ok (List.range' mmapAddr mmapLength 24)) := by
  have hend : u32 (mmapAddr + 24 * mmapLength) = mmapAddr + 24 * mmapLength :=
    u32_of_lt hwrap
  have hruns := @visit_runs (mmapAddr + 24 * mmapLength) mmapAddr mmapLength Halt
    .spin [] le_rfl (fun i hi => by omega) hwrap
  simp only [examineEntries, hend]
  exact hruns.settles

/-- Memory with one entry: an available region of `len` bytes at 1 MB. -/
def entryMemory (mmap len : Nat) : Memory :=
  store32 (store32 (store32 (fun _ => 0) (mmap + 4) extMem) (mmap + 12) len)
    (mmap + 20) memoryAvailable

theorem entryMemory_before {len x : Nat} (hx : x < mmap + 4) :
    entryMemory mmap len x = 0 := by
  rw [entryMemory, store32_of_outside _ _ (by omega),
    store32_of_outside _ _ (by omega), store32_of_outside _ _ (by omega)]

theorem readEntry_entryMemory {len : Nat} (hlen : len < 4294967296) :
    (readEntry (entryMemory mmap len) mmap).Taken ∧
      (readEntry (entryMemory mmap len) mmap).lenLow.toNat = len := by
  have htype : load32 (entryMemory mmap len) (mmap + 20) = 1 := by
    rw [entryMemory, load32_store32_same]
    rfl
  have hlow : load32 (entryMemory mmap len) (mmap + 4) = extMem := by
    rw [entryMemory, load32_store32_of_disjoint _ _ (by omega),
      load32_store32_of_disjoint _ _ (by omega), load32_store32_same]
    rfl
  have hlength : load32 (entryMemory mmap len) (mmap + 12) = len := by
    rw [entryMemory, load32_store32_of_disjoint _ _ (by omega),
      load32_store32_same]
    exact Nat.mod_eq_of_lt hlen
  simp only [MultibootMmapEntry.Taken, readEntry, htype, hlow, hlength,
    UInt32.toNat_ofNat']
  exact ⟨⟨rfl, rfl⟩, Nat.mod_eq_of_lt hlen⟩

/-- What one entry at 1 MB makes `phy_mem_init` push. -/
theorem initFrom_entryMemory {len : Nat} (hlen : len < 4294967296) :
    ∃ n, Settles (fun fuel => initFrom image bounds [mmap] (entryMemory mmap len)
        fuel (.zeroed fun _ => 0))
        (.ok (frameMap (fun _ => 0)
          (pgRoundUp (extMem + (image.kernEnd - kernStart))) n n)) ∧
      (n = 0 ∧ pgRoundDown (u32 (extMem + len)) <
          pgRoundUp (extMem + (image.kernEnd - kernStart)) ∨
        0 < n ∧ pgRoundUp (extMem + (image.kernEnd - kernStart)) + n * 4096 =
          pgRoundDown (u32 (extMem + len)) + 4096) := by
  obtain ⟨htaken, hlow⟩ := @readEntry_entryMemory mmap len hlen
  have hsize : extMem + (image.kernEnd - kernStart) ≤ 4294963200 := by
    have hhi := image.kernEnd_hi
    simp only [extMem, kernStart, kernBase] at hhi ⊢
    omega
  have hlast : ([readEntry (entryMemory mmap len) mmap].filter
      MultibootMmapEntry.Taken).getLast? =
        some (readEntry (entryMemory mmap len) mmap) := by
    simp [htaken]
  obtain ⟨n, hsettles, hn⟩ := @phyMemInitOf_settles
    (image.kernEnd - kernStart) bounds (fun _ => 0) _ _ hlast hsize
  rw [topFrame, hlow] at hn
  have hfrom : ∀ fuel, initFrom image bounds [mmap] (entryMemory mmap len) fuel
      (.zeroed fun _ => 0) = phyMemInitOf (image.kernEnd - kernStart) bounds
        [readEntry (entryMemory mmap len) mmap] fuel (.zeroed fun _ => 0) :=
    fun fuel => phyMemInitOf_image image bounds _ fuel _
  refine ⟨n, ?_, hn⟩
  simp only [hfrom]
  exact hsettles

/-- An entry that starts in the map but ends behind it matters. -/
theorem init_depends (image : Image) (bounds : Nat × Nat) (mmap : Nat) :
    ∃ fuel memMap,
      initFrom image bounds [mmap] (entryMemory mmap 0xF01000) fuel memMap ≠
        initFrom image bounds [mmap] (entryMemory mmap 0xF00000) fuel memMap := by
  by_contra hsame
  simp only [not_exists, not_not] at hsame
  have hhi := image.kernEnd_hi
  have hround := @pgRoundUp_eq (extMem + (image.kernEnd - kernStart)) (by
    simp only [extMem, kernStart, kernBase] at hhi ⊢
    omega)
  have htop : pgRoundDown (u32 (extMem + 0xF01000)) = 0x1001000 := by decide
  have htop' : pgRoundDown (u32 (extMem + 0xF00000)) = 0x1000000 := by decide
  obtain ⟨n, hsettles, hn⟩ :=
    @initFrom_entryMemory image bounds mmap 0xF01000 (by decide)
  obtain ⟨n', hsettles', hn'⟩ :=
    @initFrom_entryMemory image bounds mmap 0xF00000 (by decide)
  simp only [hsame] at hsettles
  have heq := Except.ok.inj (hsettles.unique hsettles')
  have hcount : n = n' := congrArg MemMap.pageCount heq
  rw [htop] at hn
  rw [htop'] at hn'
  simp only [extMem, kernStart, kernBase] at hround hhi hn hn'
  omega

/-- The lists are the same for a map of at most one byte. -/
theorem range_eq_iff : List.range' mmapAddr mmapLength 24 =
    List.range' mmapAddr ((mmapLength + 23) / 24) 24 ↔ mmapLength ≤ 1 := by
  constructor
  · intro heq
    have hlength := congrArg List.length heq
    rw [List.length_range', List.length_range'] at hlength
    omega
  · intro hle
    have hcount : (mmapLength + 23) / 24 = mmapLength := by omega
    rw [hcount]

theorem readersAgree_of_empty (hflags : flags &&& infoMemMap ≠ 0)
    (hwrap : mmapAddr < 4294967296) : ReadersAgree image bounds flags mmapAddr 0 :=
  ⟨[], [], showMemoryMap_settles hflags hwrap, examineEntries_settles hwrap, rfl,
    fun _ hmmap => absurd hmmap List.not_mem_nil, fun _ _ _ _ _ => rfl⟩

theorem empty_of_readersAgree (hflags : flags &&& infoMemMap ≠ 0)
    (hwrap : mmapAddr + 24 * mmapLength < 4294967296)
    (h : ReadersAgree image bounds flags mmapAddr mmapLength) :
    mmapLength = 0 := by
  obtain ⟨shown, examined, hshown, hexamined, heq, -, hinside⟩ := h
  obtain rfl := Except.ok.inj
    (hshown.unique (showMemoryMap_settles hflags hwrap))
  obtain rfl := Except.ok.inj
    (hexamined.unique (examineEntries_settles hwrap))
  have hle := range_eq_iff.mp heq
  by_contra hne
  -- one byte: the type of the only entry is behind the map
  obtain rfl : mmapLength = 1 := by omega
  obtain ⟨fuel, memMap, hdiffer⟩ := init_depends image bounds mmapAddr
  refine hdiffer (hinside _ _ (fun x hlo hhi => ?_) fuel memMap)
  rw [entryMemory_before (by omega), entryMemory_before (by omega)]

end Readers

/-- The two loops agree on the empty map alone. -/
theorem readersAgree_iff {image : Image} {bounds : Nat × Nat}
    {flags mmapAddr mmapLength : Nat} (hflags : flags &&& infoMemMap ≠ 0)
    (hwrap : mmapAddr + 24 * mmapLength < 4294967296) :
    ReadersAgree image bounds flags mmapAddr mmapLength ↔ mmapLength = 0 := by
  constructor
  · exact empty_of_readersAgree hflags hwrap
  · rintro rfl
    exact readersAgree_of_empty hflags hwrap

theorem readersAgree_empty : ReadersAgree smallImage (0, 0) 0x40 0x9000 0 :=
  (readersAgree_iff (by decide) (by decide)).mpr rfl

/-- With one entry in the map `phy_mem_init` looks at 24. -/
theorem readers_differ :
    ¬ ∀ (image : Image) (bounds : Nat × Nat) (flags mmapAddr mmapLength : Nat),
      flags &&& infoMemMap ≠ 0 → mmapAddr + 24 * mmapLength < 4294967296 →
        ReadersAgree image bounds flags mmapAddr mmapLength := by
  intro hall
  have hagree := hall smallImage (0, 0) 0x40 0x9000 24 (by decide) (by decide)
  exact absurd (empty_of_readersAgree (by decide) (by decide) hagree) (by decide)

end Linda
