/-
What the boot leaves to be handed out: the pages of kvm_alloc_page against the
kernel image and the slots of free_list.
-/
import Linda.BootPaging

namespace Linda

open ByteMemory FuelLoop

/-- `n` calls of `kvm_alloc_page`. -/
def allocPages : Nat → Kernel → Except Halt (List Nat × Kernel)
  | 0, k => .ok ([], k)
  | n + 1, k => do
      let (page, k) ← kvmAllocPage k
      let (pages, k) ← allocPages n k
      .ok (page :: pages, k)

/-- The slot of `free_list` a call reads or writes. -/
def touchedSlot (memMap : MemMap) : FrameCall → Option Int
  | .alloc => if memMap.header < 0 then none else some memMap.header
  | .free _ => some (memMap.header + 1)

/-- The slots a sequence of calls touches. -/
def touchedSlots (memMap : MemMap) : List FrameCall → List Int
  | [] => []
  | call :: calls =>
      (touchedSlot memMap call).toList ++ touchedSlots (call.run memMap) calls

/-- The frames a caller has after a call; `NULL` is none. -/
def heldAfter (memMap : MemMap) (held : List Nat) : FrameCall → List Nat
  | .alloc =>
      if (phyMemAlloc memMap).1 = 0 then held
      else (phyMemAlloc memMap).1 :: held
  | .free addr => held.erase addr

/-- The calls free only what was allocated and not freed since. -/
def FreesHeld (memMap : MemMap) (held : List Nat) : List FrameCall → Prop
  | [] => True
  | call :: calls =>
      (∀ addr, call = .free addr → addr ∈ held) ∧
        FreesHeld (call.run memMap) (heldAfter memMap held call) calls

/-- The address of a slot. -/
def slotAddr (image : Image) (i : Int) : Int := image.kernEnd + 4 * i

/-- Whatever is handed out is a page of the direct map of its own, off the
kernel image and off every slot the frame allocator uses. -/
def HandsOutFree (image : Image) (k : Kernel) : Prop :=
  ∀ n pages k', allocPages n k = .ok (pages, k') →
    pages.Nodup ∧ ∀ page ∈ pages,
      (kernBase ≤ page ∧ page + pgSize ≤ kernBase + memNormal) ∧
      (page + pgSize ≤ kernStart ∨ image.kernEnd ≤ page) ∧
      ∀ calls, FreesHeld k.memMap [] calls →
        ∀ i ∈ touchedSlots k.memMap calls,
          slotAddr image i + 4 ≤ page ∨ page + pgSize ≤ slotAddr image i

section Slots

variable {memMap : MemMap} {held : List Nat} {top : Int}

/-- The list never grows over its first top while only what was taken from it
comes back. -/
def UnderTop (memMap : MemMap) (held : List Nat) (top : Int) : Prop :=
  -1 ≤ memMap.header ∧ memMap.header + held.length ≤ top

theorem UnderTop.alloc (h : UnderTop memMap held top) :
    UnderTop (phyMemAlloc memMap).2 (heldAfter memMap held .alloc) top := by
  obtain ⟨hlo, hhi⟩ := h
  simp only [UnderTop, heldAfter]
  by_cases hneg : memMap.header < 0
  · have halloc : phyMemAlloc memMap = (0, memMap) := by
      rw [phyMemAlloc, if_pos hneg]
    rw [halloc, if_pos rfl]
    exact ⟨hlo, hhi⟩
  · have halloc : phyMemAlloc memMap = (memMap.freeList memMap.header,
        { memMap with header := memMap.header - 1 }) := by
      rw [phyMemAlloc, if_neg hneg]
    rw [halloc]
    split_ifs
    · dsimp only
      omega
    · simp only [List.length_cons]
      omega

theorem UnderTop.free (h : UnderTop memMap held top) {addr : Nat}
    (haddr : addr ∈ held) :
    UnderTop (phyMemFree memMap addr) (held.erase addr) top := by
  obtain ⟨hlo, hhi⟩ := h
  have hlength := List.length_erase_of_mem haddr
  have hpos := List.length_pos_of_mem haddr
  simp only [UnderTop, phyMemFree]
  omega

theorem touchedSlots_bounds {calls : List FrameCall}
    (h : UnderTop memMap held top) (hfrees : FreesHeld memMap held calls) {i : Int}
    (hi : i ∈ touchedSlots memMap calls) : 0 ≤ i ∧ i ≤ top := by
  induction calls generalizing memMap held with
  | nil => cases hi
  | cons call calls ih =>
      obtain ⟨hfree, hrest⟩ := hfrees
      rw [touchedSlots, List.mem_append, Option.mem_toList] at hi
      obtain ⟨hlo, hhi⟩ := id h
      cases call with
      | alloc =>
          rcases hi with hi | hi
          · simp only [touchedSlot] at hi
            split_ifs at hi with hneg
            obtain rfl := Option.some.inj hi
            omega
          · exact ih h.alloc hrest hi
      | free addr =>
          have haddr := hfree addr rfl
          rcases hi with hi | hi
          · obtain rfl := Option.some.inj hi
            have hpos := List.length_pos_of_mem haddr
            omega
          · exact ih (h.free haddr) hrest hi

end Slots

section Handout

variable {image : Image} {ram : Memory} {slots : Int → Nat}
  {bounds : Nat × Nat} {entries : List MmapEntry} {fuel : Nat} {k : Kernel}

theorem allocPages_eq {n : Nat} {pages : List Nat} {k' : Kernel}
    (hcall : allocPages n k = .ok (pages, k')) :
    availablePages k.kvmlist = pages ++ availablePages k'.kvmlist := by
  induction n generalizing k pages with
  | zero =>
      obtain ⟨rfl, rfl⟩ := Prod.mk.inj (Except.ok.inj hcall)
      exact (List.nil_append _).symm
  | succ n ih =>
      obtain ⟨⟨page, k₁⟩, halloc, hcall⟩ := ok_of_bind hcall
      obtain ⟨⟨rest, k₂⟩, hrest, hcall⟩ := ok_of_bind hcall
      obtain ⟨rfl, rfl⟩ := Prod.mk.inj (Except.ok.inj hcall)
      rcases kvmAllocPage_spec k with ⟨-, hnone⟩ | ⟨page', kvmlist', hok, havail, -⟩
      · rw [hnone] at halloc
        cases halloc
      · rw [hok] at halloc
        obtain ⟨rfl, rfl⟩ := Prod.mk.inj (Except.ok.inj halloc)
        rw [havail, List.cons_append]
        rw [← ih hrest]
        rfl

theorem drain_header {memMap : MemMap} {r : MemMap × Nat}
    (hcall : loop .spin drainBody fuel (memMap, 0) = .ok r)
    (hhead : -1 ≤ memMap.header) :
    -1 ≤ r.1.header ∧ memNormal ≤ r.2 ∧ r.1.header + 1 ≤ memMap.header := by
  have hpos : ¬ memNormal ≤ 0 := by decide
  refine loop_ok (fun s : MemMap × Nat => -1 ≤ s.1.header ∧
      s.1.header ≤ memMap.header ∧
        (memNormal ≤ s.2 → s.1.header + 1 ≤ memMap.header))
    (fun s : MemMap × Nat => -1 ≤ s.1.header ∧ memNormal ≤ s.2 ∧
      s.1.header + 1 ≤ memMap.header) ?_
    ⟨hhead, le_rfl, fun hzero => absurd hzero hpos⟩ hcall
  rintro ⟨map, addr⟩ ⟨hlo, hle, hpopped⟩ next hround
  simp only [drainBody] at hround
  split_ifs at hround with hmore
  · cases hround
    simp only [Sum.elim_inl, phyMemAlloc]
    split_ifs with hneg
    · exact ⟨hlo, hle, fun hzero => absurd hzero hpos⟩
    · dsimp only at hlo hle hneg ⊢
      exact ⟨by omega, by omega, fun _ => by omega⟩
  · cases hround
    exact ⟨hlo, not_lt.mp hmore, hpopped (not_lt.mp hmore)⟩

theorem boot_header
    (hboot : boot image bounds entries fuel (loadedKernel image ram slots) =
      .ok k) (hloaded : Loaded image ram) :
    -1 ≤ k.memMap.header ∧ k.memMap.header ≤ k.memMap.pageCount := by
  obtain ⟨memMap, k₁, r, hinit, hidentity, hdrain, rfl⟩ := boot_parts hboot
  have hk₁ := (identity_ok hloaded.identity hidentity).kernel_eq
  subst hk₁
  have hcount := drain_pageCount hdrain
  rw [phyMemInit_ok hinit] at hdrain hcount
  obtain ⟨hlo, hstop, hhi⟩ := drain_header hdrain
    (by simp only [initialFrames, frameMap]; omega)
  simp only [initialFrames, frameMap] at hcount hhi
  change -1 ≤ (if memNormal ≤ r.2 then phyMemFree r.1 r.2 else r.1).header ∧
    (if memNormal ≤ r.2 then phyMemFree r.1 r.2 else r.1).header ≤
      ((if memNormal ≤ r.2 then phyMemFree r.1 r.2 else r.1).pageCount : Int)
  rw [if_pos hstop]
  simp only [phyMemFree]
  omega

end Handout

/-- The boot hands out only memory the kernel does not use. -/
theorem handsOutFree_of_boot {image : Image} {ram : Memory} {slots : Int → Nat}
    {bounds : Nat × Nat} {entries : List MmapEntry} {fuel : Nat} {k : Kernel}
    (haligned : image.kernEnd % 4 = 0) (hloaded : Loaded image ram)
    (hboot : boot image bounds entries fuel (loadedKernel image ram slots) =
      .ok k) : HandsOutFree image k := by
  obtain ⟨hlo, hhi⟩ := boot_header hboot hloaded
  obtain ⟨memMap, rfl, hcount⟩ := boot_ok hloaded hboot
  intro n pages k' hpages
  have havail := allocPages_eq hpages
  have hnodup := (List.nodup_append.mp
    (@bootPaging_pool image ram memMap hcount).nodup).2.1
  rw [List.nil_append, havail] at hnodup
  refine ⟨(List.nodup_append.mp hnodup).1, fun page hpage => ?_⟩
  obtain ⟨hkernel, hbehind⟩ := @bootedKernel_page image ram memMap hcount page
    (by rw [havail]; exact List.mem_append_left _ hpage)
  have hpageAligned := hkernel.aligned
  have hbelow := hkernel.lo
  refine ⟨⟨by omega, hkernel.hi⟩, Or.inr (by omega), fun calls hfrees i hi => ?_⟩
  have hslot := touchedSlots_bounds ⟨hlo, by simpa using hhi⟩ hfrees hi
  have hmap : (bootedKernel image ram memMap).memMap = memMap := rfl
  rw [hmap] at hslot
  -- the last slot begins at the boundary, and no page does
  refine Or.inl ?_
  simp only [slotAddr]
  omega

theorem handsOutFree_small : HandsOutFree smallImage (smallKernel (fun _ => 0) 2) :=
  handsOutFree_of_boot (by decide) smallImage_zero.loaded
    (smallKernel_boot smallImage_zero.loaded)

end Linda
