/-
The memory of the processes over whole runs: every process finds in its own
half what it stored there last, or what uvm_init put there.
-/
import Linda.FaultProgress
import Linda.FrameIsolation
import Linda.PlacedMemory
import Linda.ProgramLoad

namespace Linda

open ByteMemory CallHistory FuelLoop PagingRun PlacedMemory

/-- Where in memory a process finds a byte of its own half. -/
def userPlace (m : Memory) (d a : Nat) : Option Nat :=
  (pageWalk m (v2p d) a).bind fun t =>
    if t.user then some (kernBase + t.frame + a % pgSize) else none

/-- The process stores a byte, in user mode. -/
def userStore (k : Kernel) (a : Nat) (b : UInt8) : Except Halt Kernel :=
  match pageWalk k.mem k.cr3 a with
  | some t =>
      if t.user && t.writable then
        .ok (k.setMem (store8 k.mem (kernBase + t.frame + a % pgSize) b))
      else .error (.fault a)
  | none => .error (.fault a)

/-- The kernel works, or the process whose directory is loaded does. -/
inductive MemoryCall where
  | kernel (call : PagingCall)
  | store (a : Nat) (b : UInt8)

/-- A run, with what every process knows of its memory, by directory and
address. -/
structure MemoryRun where
  paging : PagingRun
  known : Nat × Nat → Option UInt8

namespace MemoryCall

/-- A process knows what it stores, and its program. -/
def learn (x : MemoryRun) : MemoryCall → Nat × Nat → Option UInt8
  | .kernel (.uvmInit pgdir init sz) => fun i =>
      if i.1 = pgdir ∧ i.2 < sz then some (x.paging.kernel.mem (init + i.2))
      else x.known i
  | .kernel _ => x.known
  | .store a b => fun i =>
      if i.1 ∈ x.paging.dirs ∧ x.paging.kernel.cr3 = v2p i.1 ∧ i.2 = a then
        some b
      else x.known i

def exec (kpgdir fuel : Nat) (call : MemoryCall) (x : MemoryRun) :
    Except Halt MemoryRun :=
  match call with
  | .kernel kernelCall => do
      let r ← kernelCall.exec kpgdir fuel x.paging
      .ok ⟨r, call.learn x⟩
  | .store a b => do
      let k ← userStore x.paging.kernel a b
      .ok ⟨⟨k, x.paging.dirs⟩, call.learn x⟩

end MemoryCall

/-- The call is one the kernel makes, faults are of the running process in its
own half, and what the call asks for is there. -/
def PagingCall.Granted (image : Image) (r : PagingRun) : PagingCall → Prop
  | .uvmInit pgdir init sz => pgdir ∈ r.dirs ∧
      entry r.kernel.mem pgdir 0 = 0 ∧ image.Holds init sz ∧ HasWindow r ∧
        UvmServed image.kpgdir r.kernel scratchPage pgdir init sz
  | .fault user addr => addr < kernBase ∧
      accessFaults user (pageWalk r.kernel.mem r.kernel.cr3 addr) = true ∧
        1 ≤ r.kernel.memMap.header ∧ ∃ d, r.kernel.curproc = some d ∧
          r.kernel.cr3 = v2p d ∧
            MapServed r.kernel.frameTaken d addr r.kernel.nextFrame pteU
  | call => call.Occurs r

/-- A process stores into its own half. -/
def MemoryCall.Granted (image : Image) (r : PagingRun) : MemoryCall → Prop
  | .kernel call => call.Granted image r
  | .store a _ => a < kernBase

/-- What every process knows of its memory stands there. -/
def Remembers (x : MemoryRun) : Prop :=
  ∀ d ∈ x.paging.dirs, ∀ a < kernBase, ∀ b, x.known (d, a) = some b →
    (userPlace x.paging.kernel.mem d a).map x.paging.kernel.mem = some b

/-- Every page in the half of a process is open to it. -/
def UserOpen (r : PagingRun) : Prop :=
  ∀ d ∈ r.dirs, ∀ a < kernBase, ∀ t,
    pageWalk r.kernel.mem (v2p d) a = some t → t.user = true

/-- The places of the bytes of all processes. -/
def PagingRun.place (r : PagingRun) (i : Nat × Nat) : Option Nat :=
  if i.1 ∈ r.dirs ∧ i.2 < kernBase then userPlace r.kernel.mem i.1 i.2 else none

/-- Processes lose no page, and the ones they get are open to them. -/
structure Extends (r r' : PagingRun) : Prop where
  dirs : ∀ d ∈ r.dirs, d ∈ r'.dirs
  keep : ∀ d ∈ r.dirs, ∀ a < kernBase, ∀ t,
    pageWalk r.kernel.mem (v2p d) a = some t →
      pageWalk r'.kernel.mem (v2p d) a = some t
  opened : ∀ d ∈ r'.dirs, ∀ a < kernBase, ∀ t,
    pageWalk r'.kernel.mem (v2p d) a = some t →
      t.user = true ∨ d ∈ r.dirs ∧ pageWalk r.kernel.mem (v2p d) a = some t

section Behind

variable {kpgdir : Nat} {slots : Int → Nat} {first n fuel : Nat}
  {r : PagingRun} {s s₁ : Paging} {k k' k₁ k₂ k₃ : Kernel}
  {d va pa flags init sz page : Nat}

/-- A call of `mmap_do_map` of which the requests succeed writes nothing behind
the direct map. -/
theorem MapServed.behind (hserved : MapServed k d va pa flags)
    (h : PagingAt k s) (hz : Zeroed k s.chunks) (hd : d ∈ s.roots)
    (hflags : flags < 4096) (hcall : mmapDoMap fuel k d va pa flags = .ok k')
    {x : Nat} (hx : kernBase + memNormal ≤ x) : k'.mem x = k.mem x := by
  obtain ⟨k₁, s₁, hsettles, -, hframed, -⟩ := hserved.settles h hz hd hflags
  obtain rfl := Except.ok.inj ((mmapDoMap_stable _ _ _ _ _).eq_of_settles hcall
    (by simp) hsettles)
  exact hframed.outside x (h.managed_direct hx)

/-- Nor does `umap_init`. -/
theorem umapInit_behind (h : PagingAt k s) (hdir : kpgdir ∈ s.roots)
    (hcall : umapInit kpgdir k = .ok (page, k')) {x : Nat}
    (hx : kernBase + memNormal ≤ x) : k'.mem x = k.mem x := by
  rcases kvmAllocPage_spec k with ⟨-, hnone⟩ |
    ⟨page', kvmlist', halloc, havail, -⟩
  · rw [umapInit, hnone] at hcall
    cases hcall
  · rw [umapInit_eq h hdir halloc havail] at hcall
    obtain ⟨rfl, rfl⟩ := Prod.mk.inj (Except.ok.inj hcall)
    have hpool := h.pool
    rw [havail] at hpool
    have hhi := (hpool.fresh_page List.mem_cons_self).hi
    simp only [pgSize] at hhi
    exact copied_of_outside _ _ (by omega)

end Behind

section Places

variable {kpgdir : Nat} {slots : Int → Nat} {first n : Nat}
  {r r' : PagingRun} {s s' : Paging} {k' : Kernel} {i : Nat × Nat}
  {a addr d pa x : Nat} {left : Int} {t : Translation}

theorem place_eq_some : r.place i = some x ↔ i.1 ∈ r.dirs ∧ i.2 < kernBase ∧
    ∃ t, pageWalk r.kernel.mem (v2p i.1) i.2 = some t ∧ t.user = true ∧
      x = kernBase + t.frame + i.2 % pgSize := by
  have hplace : userPlace r.kernel.mem i.1 i.2 = some x ↔
      ∃ t, pageWalk r.kernel.mem (v2p i.1) i.2 = some t ∧ t.user = true ∧
        x = kernBase + t.frame + i.2 % pgSize := by
    rw [userPlace, Option.bind_eq_some_iff]
    refine exists_congr fun t => and_congr_right fun _ => ?_
    by_cases huser : t.user = true
    · rw [if_pos huser, Option.some_inj, eq_comm, and_iff_right huser]
    · rw [if_neg huser]
      exact iff_of_false (by simp) fun hcon => huser hcon.1
  rw [PagingRun.place, ← hplace, ← and_assoc]
  split_ifs with hi
  · rw [and_iff_right hi]
  · exact iff_of_false (by simp) fun hcon => hi hcon.1

theorem Extends.place (h : Extends r r') (hi : r.place i = some x) :
    r'.place i = some x := by
  obtain ⟨hdir, hlt, t, hwalk, huser, hx⟩ := place_eq_some.mp hi
  exact place_eq_some.mpr
    ⟨h.dirs _ hdir, hlt, t, h.keep _ hdir _ hlt t hwalk, huser, hx⟩

theorem Extends.userOpen (h : Extends r r') (hopen : UserOpen r) :
    UserOpen r' := by
  intro d hd a ha t ht
  rcases h.opened d hd a ha t ht with huser | ⟨hdir, hwalk⟩
  · exact huser
  · exact hopen d hdir a ha t hwalk

namespace PagingRun

/-- The bytes of the processes are behind the direct map. -/
theorem Accounted.behind (h : r.Accounted kpgdir slots first n)
    (hi : r.place i = some x) : kernBase + memNormal ≤ x := by
  obtain ⟨left, -, -, hframes⟩ := h
  obtain ⟨hdir, hlt, t, hwalk, -, rfl⟩ := place_eq_some.mp hi
  obtain ⟨j, -, -, -, -, habove⟩ := hframes.handed _ hdir _ hlt t hwalk
  omega

/-- No two of them are in one place. -/
theorem Accounted.apart (h : r.Accounted kpgdir slots first n) :
    PlacesApart r.place := by
  obtain ⟨left, -, hleft, hframes⟩ := h
  rintro ⟨d, a⟩ ⟨d', a'⟩ x hi hj
  obtain ⟨hdir, hlt, t, hwalk, -, rfl⟩ := place_eq_some.mp hi
  obtain ⟨hdir', hlt', t', hwalk', -, hplace⟩ := place_eq_some.mp hj
  obtain ⟨j, -, -, -, hframe, -⟩ := hframes.handed _ hdir _ hlt t hwalk
  obtain ⟨j', -, -, -, hframe', -⟩ := hframes.handed _ hdir' _ hlt' t' hwalk'
  have haligned := hleft.aligned
  have hsame : t'.frame = t.frame ∧ a' % pgSize = a % pgSize := by
    simp only [lowestFrame] at hframe hframe'
    simp only [pgSize] at hplace ⊢
    omega
  obtain ⟨hd, hpage⟩ :=
    hframes.apart _ hdir _ hlt t hwalk _ hdir' _ hlt' t' hwalk' hsame.1
  have hoffset := hsame.2
  rw [and_pgMask_eq, and_pgMask_eq] at hpage
  simp only [pgSize, kernBase] at hoffset hlt hlt'
  dsimp only at hd hlt hlt' hpage
  exact Prod.ext hd.symm (by dsimp only; omega)

end PagingRun

end Places

section Growth

variable {kpgdir : Nat} {slots : Int → Nat} {first n : Nat} {dirs : List Nat}
  {r : PagingRun} {s s' s₁ s₂ : Paging} {k k' k₁ k₂ k₃ : Kernel}
  {a addr d va pa flags pte page pgdir : Nat} {left : Int}

/-- A page of a process that was not there is mapped for it. -/
theorem Mapped.extends (hmapped : Mapped k s d va pa pteU k' s')
    (h : PagingRun.Sound kpgdir slots first n ⟨k, dirs⟩ s) (hd : d ∈ dirs)
    (hnone : pageWalk k.mem (v2p d) va = none)
    (htables : UserTables ⟨k', dirs⟩) :
    Extends ⟨k, dirs⟩ ⟨k', dirs⟩ where
  dirs := fun _ hd' => hd'
  keep := fun d' hd' a _ t ht => hmapped.keeps h.paging h.plain (by decide)
    (h.dir_root hd) hnone (h.dir_root hd') ht
  opened := by
    intro d' hd' a ha t ht
    rw [hmapped.write.walk h.plain (by decide) d' (h.dir_root hd') a] at ht
    split_ifs at ht with hmeets
    · left
      have hpde := (htables d' hd' _ (pdx_user ha)).resolve_left hmeets.1
      have hpte : (pteWord pa pteU).testBit 2 = true := by
        have hbit : pteU.testBit 2 = true := by decide
        rw [pteWord_testBit, hbit, Bool.or_true]
      dsimp only at hpde
      rw [leaf] at ht
      split_ifs at ht
      obtain rfl := Option.some.inj ht
      simp only [hpde, hpte, Bool.and_self]
    · exact Or.inr ⟨hd', ht⟩

namespace PagingRun

theorem Sound.newRoot_extends (h : r.Sound kpgdir slots first n s)
    (hnew : NewRoot r.kernel s kpgdir page k') :
    Extends r ⟨k', page :: r.dirs⟩ where
  dirs := fun _ hd => List.mem_cons_of_mem _ hd
  keep := fun d hd a _ t ht =>
    (h.newRoot_walk hnew (h.dir_root hd) a).trans ht
  opened := by
    intro d hd a ha t ht
    rcases List.mem_cons.mp hd with rfl | hd
    · rw [newRoot_user hnew ha] at ht
      cases ht
    · exact Or.inr ⟨hd, (h.newRoot_walk hnew (h.dir_root hd) a).symm.trans ht⟩

/-- The entry of the scratch page is in no walk of a process's own half. -/
theorem Sound.scratch_user (h : PagingRun.Sound kpgdir slots first n ⟨k, dirs⟩ s)
    (hpaging : PagingAt k' s') (hroots : s'.roots = s.roots)
    (hwrite : PteWrite k.mem k'.mem s.roots kpgdir scratchPage 0 pte)
    (hd : d ∈ dirs) (ha : a < kernBase) :
    pageWalk k'.mem (v2p d) a = pageWalk k.mem (v2p d) a := by
  rw [hwrite.walk h.plain (by decide) d (h.dir_root hd) a, if_neg]
  intro hmeets
  have hroot : d ∈ s'.roots := hroots ▸ h.dir_root hd
  have hkernel : kpgdir ∈ s'.roots := hroots ▸ h.kpgdir_root
  have hpresent : entry k'.mem kpgdir (pdx scratchPage) ≠ 0 := fun hzero =>
    hpaging.forest.not_meets_empty hpaging.pool hroot hzero hmeets
  have hpage := (hpaging.meets_page hkernel hroot hpresent hmeets).1
  have hpdx := ((and_pgMask_eq_iff a scratchPage).mp hpage).1
  have huser := pdx_user ha
  have hscratch : pdx scratchPage = 992 := by decide
  omega

/-- Before `uvm_init` maps the page for the process, its half is as it was. -/
theorem Filled.user_walk (hfilled : Filled kpgdir slots first n r s pgdir pa left
      k₁ s₁ k₂ k₃ s₂ k' s') (h : r.Sound kpgdir slots first n s)
    (hd : d ∈ r.dirs) (ha : a < kernBase) :
    pageWalk k₃.mem (v2p d) a = pageWalk r.kernel.mem (v2p d) a := by
  have hunmapped := hfilled.unmapped
  have hmapped := hfilled.mapped
  have hopened := Sound.scratch_user (h.setMemMap hfilled.left_ok) hmapped.paging
    hmapped.roots hmapped.write hd ha
  have hcopied := hfilled.sound₁.paging.forest.walk_congr
    hfilled.sound₁.paging.pool hfilled.copied (hfilled.sound₁.dir_root hd) a
  have hclosed := Sound.scratch_user hfilled.sound₂ hunmapped.paging
    hunmapped.roots (hunmapped.write 0) hd ha
  exact (hclosed.trans hcopied).trans hopened

theorem Filled.extends (hfilled : Filled kpgdir slots first n r s pgdir pa left
      k₁ s₁ k₂ k₃ s₂ k' s') (h : r.Sound kpgdir slots first n s)
    (hd : pgdir ∈ r.dirs) (hempty : entry r.kernel.mem pgdir 0 = 0)
    (htables : UserTables ⟨k', r.dirs⟩) : Extends r ⟨k', r.dirs⟩ := by
  have hbottom : pageWalk k₃.mem (v2p pgdir) 0 = none := by
    rw [hfilled.user_walk h hd (by decide)]
    exact h.paging.walk_empty (h.dir_root hd) hempty
  have hlast := hfilled.filled.extends hfilled.sound₃ hd hbottom htables
  constructor
  · exact fun _ hd' => hd'
  · intro d' hd' a ha t ht
    exact hlast.keep d' hd' a ha t ((hfilled.user_walk h hd' ha).trans ht)
  · intro d' hd' a ha t ht
    rcases hlast.opened d' hd' a ha t ht with huser | ⟨-, hwalk⟩
    · exact Or.inl huser
    · exact Or.inr ⟨hd', (hfilled.user_walk h hd' ha).symm.trans hwalk⟩

theorem Handled.extends (hhandled : Handled kpgdir slots first n r s addr d flags
      pa left k' s') (h : r.Sound kpgdir slots first n s)
    (haddr : addr < kernBase)
    (hnone : pageWalk r.kernel.mem (v2p d) addr = none)
    (htables : UserTables ⟨k', r.dirs⟩) : Extends r ⟨k', r.dirs⟩ := by
  have hmapped := hhandled.mapped
  cases hhandled.target with
  | kernel _ hlo hhi => omega
  | user _ _ hd hva =>
      have hlast := hmapped.extends (h.setMemMap hhandled.left_ok) hd hnone
        htables
      exact ⟨hlast.dirs, hlast.keep, hlast.opened⟩

end PagingRun

end Growth

/-- What `uvm_init` does to memory: behind the direct map it writes its frame
only, and there the program. -/
structure ProgramStored (kpgdir : Nat) (k : Kernel) (pgdir init sz : Nat)
    (k' : Kernel) : Prop where
  fits : sz ≤ pgSize
  kernel : ∀ va, kernBase ≤ va → va < 4294967296 →
    pageWalk k'.mem (v2p kpgdir) va = pageWalk k.mem (v2p kpgdir) va
  page : ∀ a < pgSize,
    pageWalk k'.mem (v2p pgdir) a = some ⟨k.nextFrame, true, true⟩
  program : ∀ i < sz, k'.mem (kernBase + k.nextFrame + i) = k.mem (init + i)
  behind : ∀ x, kernBase + memNormal ≤ x →
    x < kernBase + k.nextFrame ∨ kernBase + k.nextFrame + pgSize ≤ x →
      k'.mem x = k.mem x

/-- The process may store into its page. -/
theorem ProgramStored.userStore {kpgdir pgdir init sz a : Nat} {k k' : Kernel}
    (h : ProgramStored kpgdir k pgdir init sz k') (ha : a < pgSize) (b : UInt8) :
    Linda.userStore (k'.switchToUvm pgdir) a b =
      .ok ((k'.switchToUvm pgdir).setMem
        (store8 k'.mem (kernBase + k.nextFrame + a % pgSize) b)) := by
  have hwalk := h.page a ha
  rw [Linda.userStore]
  simp only [Kernel.switchToUvm, hwalk, Bool.and_self, ↓reduceIte]

section Storing

variable {kpgdir : Nat} {slots : Int → Nat} {first n fuel : Nat}
  {managed : List Nat} {r : PagingRun} {s s₁ : Paging} {k' k₁ k₂ k₃ : Kernel}
  {init sz pgdir : Nat}

/-- The copy and the unmapping write nothing behind the direct map beside the
frame. -/
theorem Opened.behind (hopened : Opened kpgdir r.kernel s k₁ s₁)
    (hsound : PagingRun.Sound kpgdir slots first n ⟨k₁, r.dirs⟩ s₁)
    (h : r.Sound kpgdir slots first n s) (hframe : memNormal ≤ r.kernel.nextFrame)
    (hsz : sz ≤ pgSize) (hdirect : Direct init sz) (hbelow : init < scratchPage)
    (hmove : memmove k₁ scratchPage init sz = .ok k₂)
    (hun : Settles (fun fuel => mmapDoUnmap fuel k₂ kpgdir scratchPage) (.ok k₃))
    {x : Nat} (hx : kernBase + memNormal ≤ x)
    (hout : x < kernBase + r.kernel.nextFrame ∨
      kernBase + r.kernel.nextFrame + pgSize ≤ x) :
    k₃.mem x = r.kernel.mem x := by
  let m := copied k₁.mem (kernBase + r.kernel.nextFrame) init sz
  have hcopy : memmove k₁ scratchPage init sz = .ok (k₁.setMem m) := by
    rw [memmove, if_neg (by omega)]
    exact copyDown_window hsound.paging hsound.cr3 hopened.walk hframe hsz
      hdirect
  obtain rfl := Except.ok.inj (hmove.symm.trans hcopy)
  have hoff : OffDirect k₁.mem m := fun y _ hy =>
    copied_of_outside _ _ (Or.inl (by omega))
  obtain ⟨hsound₂, -⟩ := hsound.stores ⟨m, hoff, rfl⟩
  obtain ⟨k, s₃, hsettles, -, hframed⟩ :=
    unmapped_framed hsound₂.paging hsound₂.kpgdir_root scratchPage
  obtain rfl := Except.ok.inj (hun.unique hsettles)
  rw [hframed.outside x (hsound₂.paging.managed_direct hx)]
  refine (copied_of_outside _ _ (by omega)).trans ?_
  exact hopened.framed.outside x (h.paging.managed_direct hx)

namespace PagingRun

theorem Tidy.uvmInit_stored (hslot : slots 0 = 0)
    (h : r.Tidy kpgdir slots first n managed s)
    (hscratch : pageWalk r.kernel.mem (v2p kpgdir) scratchPage = none)
    (hwindow : HasWindow r) (hd : pgdir ∈ r.dirs)
    (hempty : entry r.kernel.mem pgdir 0 = 0) (hdirect : Direct init sz)
    (hbelow : init < scratchPage)
    (hsrc : ∀ i < sz, OffHeap managed (init + i))
    (hserved : UvmServed kpgdir r.kernel scratchPage pgdir init sz)
    (hcall : Linda.uvmInit kpgdir fuel r.kernel pgdir init sz = .ok k') :
    ProgramStored kpgdir r.kernel pgdir init sz k' := by
  obtain ⟨hgood, -⟩ := h.toSound.taken hslot
  have hframe := hgood.away.resolve_left hserved.frame
  have halloc : phyMemAlloc r.kernel.memMap =
      (r.kernel.nextFrame, (phyMemAlloc r.kernel.memMap).2) := rfl
  obtain ⟨page, k₁, k₂, k₃, hpage, hsz, -, hmap, hmove, hun, hfill⟩ :=
    uvmInit_parts hcall halloc
  obtain rfl := unmappedPage_eq h.blocks hpage
  obtain ⟨k₁', s₁, hopened, hsound⟩ :=
    h.opened hslot hscratch hwindow hserved.window
  obtain rfl := Except.ok.inj ((mmapDoMap_stable _ _ _ _ _).eq_of_settles hmap
    (by simp) hopened.call)
  obtain ⟨k₂', k₃', s₃, hmove', hun', hcarried⟩ := hopened.carried h.toSound
    hsound hscratch (h.scratch_absent hscratch) hframe hsz hdirect hbelow
    fun i hi q hq => hsrc i hi q (h.pages hq)
  obtain rfl := Except.ok.inj (hmove.symm.trans hmove')
  obtain rfl := Except.ok.inj ((mmapDoUnmap_stable _ _ _).eq_of_settles hun
    (by simp) hun')
  have huser := hserved.user k₁ k₂ k₃ hopened.call hmove hun'
  obtain ⟨k'', hfill', hloaded⟩ := hcarried.loaded h.paging h.kpgdir_root
    (h.dir_root hd) hempty hgood hframe huser
  obtain rfl := Except.ok.inj ((mmapDoMap_stable _ _ _ _ _).eq_of_settles hfill
    (by simp) hfill')
  refine ⟨hsz, hloaded.kernel, hloaded.page, hloaded.program,
    fun x hx hout => ?_⟩
  rw [huser.behind hcarried.paging hcarried.zeroed
    (hcarried.roots.symm ▸ h.dir_root hd) (by decide) hfill hx]
  exact hopened.behind hsound h.toSound hframe hsz hdirect hbelow hmove hun' hx
    hout

/-- It returns, given the fuel. -/
theorem Tidy.uvmInit_returns (hslot : slots 0 = 0)
    (h : r.Tidy kpgdir slots first n managed s)
    (hscratch : pageWalk r.kernel.mem (v2p kpgdir) scratchPage = none)
    (hwindow : HasWindow r) (hd : pgdir ∈ r.dirs)
    (hempty : entry r.kernel.mem pgdir 0 = 0) (hsz : sz ≤ pgSize)
    (hdirect : Direct init sz) (hbelow : init < scratchPage)
    (hsrc : ∀ i < sz, OffHeap managed (init + i))
    (hserved : UvmServed kpgdir r.kernel scratchPage pgdir init sz) :
    ∃ k', Settles (fun fuel =>
      Linda.uvmInit kpgdir fuel r.kernel pgdir init sz) (.ok k') := by
  obtain ⟨hgood, -⟩ := h.toSound.taken hslot
  have hframe := hgood.away.resolve_left hserved.frame
  obtain ⟨k₁, s₁, hopened, hsound⟩ :=
    h.opened hslot hscratch hwindow hserved.window
  obtain ⟨k₂, k₃, s₃, hmove, hun, hcarried⟩ := hopened.carried h.toSound hsound
    hscratch (h.scratch_absent hscratch) hframe hsz hdirect hbelow
    fun i hi q hq => hsrc i hi q (h.pages hq)
  obtain ⟨k', hfill, -⟩ := hcarried.loaded h.paging h.kpgdir_root
    (h.dir_root hd) hempty hgood hframe
    (hserved.user k₁ k₂ k₃ hopened.call hmove hun)
  exact ⟨k', uvmInit_settles (unmappedPage_ok h.blocks) hsz hserved.frame
    hopened.call hmove hun hfill⟩

end PagingRun

end Storing

/-- What every run keeps. -/
structure MemoryRun.Kept (image : Image) (slots : Int → Nat) (first n : Nat)
    (managed : List Nat) (x : MemoryRun) : Prop where
  tidy : ∃ s, x.paging.Tidy image.kpgdir slots first n managed s
  accounted : x.paging.Accounted image.kpgdir slots first n
  tables : UserTables x.paging
  opened : UserOpen x.paging
  scratch : pageWalk x.paging.kernel.mem (v2p image.kpgdir) scratchPage = none
  holds : Holds x.paging.place x.paging.kernel.mem x.known

section Stores

variable {kpgdir : Nat} {slots : Int → Nat} {first n fuel : Nat}
  {managed : List Nat} {r : PagingRun} {s : Paging} {k' : Kernel}
  {i : Nat × Nat} {a d d' x : Nat} {b : UInt8}

namespace PagingRun

/-- The frame that is taken next is in no process. -/
theorem Accounted.fresh (hslot : slots 0 = 0)
    (h : r.Accounted kpgdir slots first n) (hne : r.kernel.nextFrame ≠ 0)
    (hi : r.place i = some x) : x < kernBase + r.kernel.nextFrame ∨
      kernBase + r.kernel.nextFrame + pgSize ≤ x := by
  obtain ⟨left, hmap, hleft, hframes⟩ := h
  obtain ⟨left', -, hnext, hcases⟩ := hleft.alloc hslot
  rw [Kernel.nextFrame, hmap] at hne ⊢
  rcases hcases with ⟨-, -, hnull⟩ | ⟨hlo, -, htaken⟩
  · exact absurd hnull hne
  · obtain ⟨hdir, hlt, t, hwalk, -, rfl⟩ := place_eq_some.mp hi
    obtain ⟨j, hj, -, hjn, hframe, -⟩ := hframes.handed _ hdir _ hlt t hwalk
    have haligned := hleft.aligned
    have hhi := hleft.hi
    rw [htaken]
    simp only [lowestFrame, pgSize] at hframe ⊢
    omega

/-- Directories are told apart by their physical addresses. -/
theorem Sound.dir_inj (h : r.Sound kpgdir slots first n s) (hd : d ∈ r.dirs)
    (hd' : d' ∈ r.dirs) (heq : v2p d = v2p d') : d = d' := by
  have hpage := h.paging.root_page (h.dir_root hd)
  have hpage' := h.paging.root_page (h.dir_root hd')
  rw [← hpage.root, ← hpage'.root, heq]

/-- A store of a process goes to the place of the byte. -/
theorem Sound.userStore_place (h : r.Sound kpgdir slots first n s)
    (hacc : r.Accounted kpgdir slots first n) (ha : a < kernBase)
    (hcall : userStore r.kernel a b = .ok k') : ∃ d ∈ r.dirs,
      r.kernel.cr3 = v2p d ∧ ∃ x, r.place (d, a) = some x ∧
        k' = r.kernel.setMem (store8 r.kernel.mem x b) := by
  obtain ⟨d, hroot, hcr3⟩ := h.cr3
  rw [userStore, hcr3] at hcall
  cases hwalk : pageWalk r.kernel.mem (v2p d) a with
  | none =>
      rw [hwalk] at hcall
      cases hcall
  | some t =>
      rw [hwalk] at hcall
      dsimp only at hcall
      split_ifs at hcall with hmay
      rw [Bool.and_eq_true] at hmay
      obtain ⟨left, -, -, hframes⟩ := hacc
      have hdir : d ∈ r.dirs := by
        rcases h.root_iff.mp hroot with hdir | rfl
        · exact hdir
        · rw [hframes.empty a ha] at hwalk
          cases hwalk
      exact ⟨d, hdir, hcr3, _,
        place_eq_some.mpr ⟨hdir, ha, t, hwalk, hmay.1, rfl⟩,
        (Except.ok.inj hcall).symm⟩

end PagingRun

end Stores

namespace MemoryCall

variable {x : MemoryRun} {i : Nat × Nat} {pgdir init sz a d : Nat} {b : UInt8}

theorem learn_program (ha : a < sz) :
    (MemoryCall.kernel (.uvmInit pgdir init sz)).learn x (pgdir, a) =
      some (x.paging.kernel.mem (init + a)) := if_pos ⟨rfl, ha⟩

theorem learn_stored (hd : d ∈ x.paging.dirs)
    (hcr3 : x.paging.kernel.cr3 = v2p d) :
    (MemoryCall.store a b).learn x (d, a) = some b := if_pos ⟨hd, hcr3, rfl⟩

theorem learn_other (hne : i.2 ≠ a) :
    (MemoryCall.store a b).learn x i = x.known i :=
  if_neg fun hcon => hne hcon.2.2

end MemoryCall

namespace MemoryRun

section Steps

variable {image : Image} {slots : Int → Nat} {first n fuel : Nat}
  {managed : List Nat} {x x' : MemoryRun} {r' : PagingRun} {s s' : Paging}
  {k' : Kernel} {a addr d : Nat} {b : UInt8}

/-- A store of a process is known to this process, and no other byte of a
process changes. -/
theorem Kept.store (h : x.Kept image slots first n managed) (ha : a < kernBase)
    (hcall : userStore x.paging.kernel a b = .ok k') :
    Kept image slots first n managed
      ⟨⟨k', x.paging.dirs⟩, (MemoryCall.store a b).learn x⟩ := by
  obtain ⟨s, htidy⟩ := h.tidy
  obtain ⟨d, hd, hcr3, y, hplace, rfl⟩ :=
    htidy.toSound.userStore_place h.accounted ha hcall
  have hbehind := h.accounted.behind hplace
  have hoff : OffDirect x.paging.kernel.mem
      (store8 x.paging.kernel.mem y b) := fun z _ hz =>
    store8_of_ne _ _ (by omega)
  have hstores : NullStores x.paging.kernel
      (x.paging.kernel.setMem (store8 x.paging.kernel.mem y b)) :=
    ⟨_, hoff, rfl⟩
  obtain ⟨-, hsame⟩ := htidy.toSound.stores hstores
  have hwalk : ∀ d ∈ s.roots, ∀ va,
      pageWalk (store8 x.paging.kernel.mem y b) (v2p d) va =
        pageWalk x.paging.kernel.mem (v2p d) va := fun d hd va =>
    htidy.paging.forest.walk_congr htidy.paging.pool hsame hd va
  have hentry : ∀ d ∈ x.paging.dirs, ∀ i < 768,
      entry (store8 x.paging.kernel.mem y b) d i =
        entry x.paging.kernel.mem d i := fun d hd i hi =>
    hsame.entry (List.mem_append_left _ (htidy.dir_root hd)) (by omega)
  refine ⟨⟨s, htidy.stores hstores⟩, ?_, ?_, ?_, ?_, ?_⟩
  · obtain ⟨left, hmap, hleft, hframes⟩ := h.accounted
    refine ⟨left, hmap, hleft, hframes.congr le_rfl ?_ ?_⟩
    · intro d hd va hlo hhi t ht
      rw [Kernel.setMem_mem, hwalk d ((htidy.root_or d).mpr hd)] at ht
      exact hframes.supervisor d hd va hlo hhi t ht
    · exact fun d hd va _ => hwalk d ((htidy.root_or d).mpr hd) va
  · intro d hd i hi
    rw [Kernel.setMem_mem, hentry d hd i hi]
    exact h.tables d hd i hi
  · intro d hd va hva t ht
    rw [Kernel.setMem_mem, hwalk d (htidy.dir_root hd)] at ht
    exact h.opened d hd va hva t ht
  · exact (hwalk _ htidy.kpgdir_root scratchPage).trans h.scratch
  · have hstore := h.holds.store h.accounted.apart hplace b
    have hmem : Function.update x.paging.kernel.mem y b =
        store8 x.paging.kernel.mem y b := by
      funext z
      rw [Function.update_apply, store8]
    have hknown : Function.update x.known (d, a) (some b) =
        (MemoryCall.store a b).learn x := by
      funext i
      rw [Function.update_apply, MemoryCall.learn]
      refine if_congr ?_ rfl rfl
      constructor
      · rintro rfl
        exact ⟨hd, hcr3, rfl⟩
      · rintro ⟨hi, hroot, hia⟩
        have hdir := htidy.toSound.dir_inj hi hd (hroot.symm.trans hcr3)
        exact Prod.ext hdir hia
    rw [hmem, hknown] at hstore
    refine hstore.keep (fun i z hz => ?_) fun _ _ _ => rfl
    obtain ⟨hdir, hlt, t, ht, huser, hz⟩ := place_eq_some.mp hz
    exact place_eq_some.mpr ⟨hdir, hlt, t,
      (hwalk _ (htidy.dir_root hdir) _).trans ht, huser, hz⟩

/-- A call of the kernel that extends the processes and writes none of their
bytes. -/
theorem Kept.extended (h : x.Kept image slots first n managed)
    (htidy : ∃ s, r'.Tidy image.kpgdir slots first n managed s)
    (haccounted : r'.Accounted image.kpgdir slots first n)
    (htables : UserTables r') (hextends : Extends x.paging r')
    (hscratch : pageWalk r'.kernel.mem (v2p image.kpgdir) scratchPage =
      pageWalk x.paging.kernel.mem (v2p image.kpgdir) scratchPage)
    (hmem : ∀ i y, x.paging.place i = some y →
      r'.kernel.mem y = x.paging.kernel.mem y) :
    Kept image slots first n managed ⟨r', x.known⟩ where
  tidy := htidy
  accounted := haccounted
  tables := htables
  opened := hextends.userOpen h.opened
  scratch := hscratch.trans h.scratch
  holds := h.holds.keep (fun _ _ hi => hextends.place hi) hmem

/-- The page of a fault is not there: those that are there are open. -/
theorem Kept.absent {user : Bool} (h : x.Kept image slots first n managed)
    (hd : d ∈ x.paging.dirs) (hcr3 : x.paging.kernel.cr3 = v2p d)
    (haddr : addr < kernBase)
    (hfault : accessFaults user
      (pageWalk x.paging.kernel.mem x.paging.kernel.cr3 addr) = true) :
    pageWalk x.paging.kernel.mem (v2p d) addr = none := by
  rw [hcr3] at hfault
  cases hwalk : pageWalk x.paging.kernel.mem (v2p d) addr with
  | none => rfl
  | some t =>
      rw [hwalk, accessFaults, h.opened d hd addr haddr t hwalk, Bool.not_true,
        Bool.and_false] at hfault
      cases hfault

/-- A fault takes a frame that no process has, and writes none of theirs. -/
theorem Kept.fault {user : Bool} (hslot : slots 0 = 0)
    (h : x.Kept image slots first n managed)
    (hgranted : (PagingCall.fault user addr).Granted image x.paging)
    (hcall : pageFaultHandler image.kpgdir fuel x.paging.kernel addr =
      .ok k') : Kept image slots first n managed
      ⟨⟨k', x.paging.dirs⟩, x.known⟩ := by
  obtain ⟨haddr, hfault, hstocked, d, hproc, hcr3, hserved⟩ := hgranted
  obtain ⟨s, htidy⟩ := h.tidy
  have hlt : addr < 4294967296 := haddr.trans (by decide)
  have hout : ¬ (kernBase ≤ addr ∧ addr < kernBase + memNormal) :=
    fun hin => absurd hin.1 (Nat.not_le.mpr haddr)
  have hd := htidy.curproc d hproc
  have hoccurs : (PagingCall.fault user addr).Occurs x.paging := ⟨hlt, hfault⟩
  have hstep : (PagingCall.fault user addr).exec image.kpgdir fuel x.paging =
      .ok ⟨k', x.paging.dirs⟩ := by
    rw [PagingCall.exec, hcall, ok_bind]
  obtain ⟨d', flags, pa, left, s', hhandled⟩ :=
    htidy.toSound.fault hslot hlt hout hcall
  have hdir : d' = d := by
    have hhandler := hhandled.dir
    rw [handlerDir, if_neg (Nat.not_le.mpr haddr), hproc] at hhandler
    exact (Option.some.inj hhandler).symm
  subst hdir
  have hstepped : Stepped image.kpgdir slots first n x.paging s
      (.fault user addr) ⟨k', x.paging.dirs⟩ := .handled hhandled
  have htables := hstepped.userTables htidy.toSound h.tables
  refine h.extended (htidy.step hslot hoccurs hout hstep)
    (hstepped.accounted hslot htidy.toSound haddr hstocked h.accounted) htables
    (hhandled.extends htidy.toSound haddr (h.absent hd hcr3 haddr hfault) htables)
    ?_ ?_
  · cases hhandled.target with
    | kernel _ hlo hhi => omega
    | user _ _ _ _ =>
        exact hhandled.mapped.walk_kernel htidy.plain (by decide)
          (htidy.dir_root hd) haddr htidy.kpgdir_root (by decide) (by decide)
  · intro i y hi
    have hframe : phyMemAlloc x.paging.kernel.memMap =
        (x.paging.kernel.nextFrame, (phyMemAlloc x.paging.kernel.memMap).2) := rfl
    obtain ⟨d'', hhandler, hmap⟩ := pageFaultHandler_parts hcall hframe
    rw [handlerDir, if_neg (Nat.not_le.mpr haddr), hproc] at hhandler
    obtain rfl := Option.some.inj hhandler
    rw [if_neg (Nat.not_le.mpr haddr)] at hmap
    obtain ⟨-, left', hleft, htaken⟩ := htidy.toSound.taken hslot
    have htidy' := htidy.setMemMap hleft
    rw [← htaken] at htidy'
    exact hserved.behind htidy'.paging htidy'.zeroed (htidy.dir_root hd)
      (by decide) hmap (h.accounted.behind hi)

/-- `uvm_init` fills a page of the process, and it knows its program. -/
theorem Kept.uvmInit {pgdir init sz : Nat} (hslot : slots 0 = 0)
    (himage : ∀ init sz, image.Holds init sz →
      ∀ i < sz, OffHeap managed (init + i))
    (h : x.Kept image slots first n managed)
    (hgranted : (PagingCall.uvmInit pgdir init sz).Granted image x.paging)
    (hcall : Linda.uvmInit image.kpgdir fuel x.paging.kernel pgdir init sz =
      .ok k') : Kept image slots first n managed ⟨⟨k', x.paging.dirs⟩,
        (MemoryCall.kernel (.uvmInit pgdir init sz)).learn x⟩ := by
  obtain ⟨hd, hempty, hholds, hwindow, hserved⟩ := hgranted
  obtain ⟨s, htidy⟩ := h.tidy
  have hbelow : init < scratchPage := by
    have hend := image.kernEnd_hi
    have hhi := hholds.hi
    simp only [scratchPage, memNormal]
    omega
  have hstored := htidy.uvmInit_stored hslot h.scratch hwindow hd hempty
    hholds.direct hbelow (himage init sz hholds) hserved hcall
  obtain ⟨pa, left, k₁, s₁, k₂, k₃, s₂, s', hfilled⟩ :=
    htidy.toSound.uvmInit hslot hd hcall
  have hstepped : Stepped image.kpgdir slots first n x.paging s
      (.uvmInit pgdir init sz) ⟨k', x.paging.dirs⟩ := .filled hd hfilled
  have htables := hstepped.userTables htidy.toSound h.tables
  have hkept := h.extended (htidy.uvmInit hslot hd hcall)
    (hstepped.accounted hslot htidy.toSound trivial trivial h.accounted) htables
    (hfilled.extends htidy.toSound hd hempty htables)
    (hstored.kernel scratchPage (by decide) (by decide))
    fun i y hi => hstored.behind y (h.accounted.behind hi)
      (h.accounted.fresh hslot hserved.frame hi)
  refine { hkept with holds := hkept.holds.learn fun i b hb => ?_ }
  dsimp only [MemoryCall.learn] at hb
  split_ifs at hb with hi
  · obtain ⟨rfl, hlt⟩ := hi
    have hpage : i.2 < pgSize := hlt.trans_le hstored.fits
    have hoffset : i.2 % pgSize = i.2 := Nat.mod_eq_of_lt hpage
    obtain rfl := Option.some.inj hb
    refine Or.inr ⟨_, place_eq_some.mpr ⟨hd, hpage.trans (by decide), _,
      hstored.page i.2 hpage, rfl, rfl⟩, ?_⟩
    rw [hoffset]
    exact hstored.program i.2 hlt
  · exact Or.inl hb

/-- Another directory or process in use. -/
theorem Kept.setRoot {root : Nat} {proc : Option Nat}
    (h : x.Kept image slots first n managed)
    (htidy : ∃ s, Tidy image.kpgdir slots first n managed
      ⟨{ x.paging.kernel with cr3 := root, curproc := proc }, x.paging.dirs⟩ s) :
    Kept image slots first n managed ⟨⟨{ x.paging.kernel with
      cr3 := root, curproc := proc }, x.paging.dirs⟩, x.known⟩ where
  tidy := htidy
  accounted := setRoot_accounted h.accounted _ _
  tables := setRoot_userTables h.tables _ _
  opened := h.opened
  scratch := h.scratch
  holds := h.holds

theorem Kept.kernel {call : PagingCall} (hslot : slots 0 = 0)
    (himage : ∀ init sz, image.Holds init sz →
      ∀ i < sz, OffHeap managed (init + i))
    (h : x.Kept image slots first n managed)
    (hgranted : call.Granted image x.paging)
    (hstep : call.exec image.kpgdir fuel x.paging = .ok r') :
    Kept image slots first n managed
      ⟨r', (MemoryCall.kernel call).learn x⟩ := by
  obtain ⟨s, htidy⟩ := h.tidy
  cases call with
  | umapInit =>
      have hoccurs : PagingCall.umapInit.Occurs x.paging := trivial
      have hstepped := htidy.toSound.stepped hslot hoccurs trivial hstep
      have hkeeps := htidy.step hslot hoccurs trivial hstep
      obtain ⟨⟨page, k'⟩, hcall, hr'⟩ := ok_of_bind hstep
      obtain rfl := Except.ok.inj hr'
      have hnew := newRoot_of_umapInit htidy.paging htidy.zeroed
        htidy.kpgdir_root hcall
      exact h.extended hkeeps (htidy.toSound.newRoot_accounted hnew h.accounted)
        (hstepped.userTables htidy.toSound h.tables)
        (htidy.toSound.newRoot_extends hnew)
        (htidy.toSound.newRoot_walk hnew htidy.kpgdir_root scratchPage)
        fun i y hi => umapInit_behind htidy.paging htidy.kpgdir_root hcall
          (h.accounted.behind hi)
  | uvmInit pgdir init sz =>
      obtain ⟨k', hcall, hr'⟩ := ok_of_bind hstep
      obtain rfl := Except.ok.inj hr'
      exact h.uvmInit hslot himage hgranted hcall
  | fault user addr =>
      obtain ⟨k', hcall, hr'⟩ := ok_of_bind hstep
      obtain rfl := Except.ok.inj hr'
      exact h.fault hslot hgranted hcall
  | switchToUvm pgdir =>
      have hoccurs : (PagingCall.switchToUvm pgdir).Occurs x.paging := hgranted
      have hkeeps := htidy.step hslot hoccurs trivial hstep
      obtain rfl := Except.ok.inj hstep
      exact h.setRoot hkeeps
  | switchToKvm =>
      have hoccurs : PagingCall.switchToKvm.Occurs x.paging := trivial
      have hkeeps := htidy.step hslot hoccurs trivial hstep
      obtain rfl := Except.ok.inj hstep
      exact h.setRoot hkeeps

theorem Kept.step {call : MemoryCall} (hslot : slots 0 = 0)
    (himage : ∀ init sz, image.Holds init sz →
      ∀ i < sz, OffHeap managed (init + i))
    (h : x.Kept image slots first n managed)
    (hgranted : call.Granted image x.paging)
    (hstep : call.exec image.kpgdir fuel x = .ok x') :
    x'.Kept image slots first n managed := by
  cases call with
  | kernel call =>
      obtain ⟨r', hcall, hx'⟩ := ok_of_bind hstep
      obtain rfl := Except.ok.inj hx'
      exact h.kernel hslot himage hgranted hcall
  | store a b =>
      obtain ⟨k', hcall, hx'⟩ := ok_of_bind hstep
      obtain rfl := Except.ok.inj hx'
      exact h.store hgranted hcall

theorem Kept.remembers (h : x.Kept image slots first n managed) :
    Remembers x := by
  intro d hd a ha b hb
  obtain ⟨y, hplace, hbyte⟩ := h.holds (d, a) b hb
  rw [PagingRun.place, if_pos ⟨hd, ha⟩] at hplace
  rw [hplace, Option.map_some, hbyte]

end Steps

end MemoryRun

theorem kept_of_boot {image : Image} {ram : Memory} {slots : Int → Nat}
    {bounds : Nat × Nat} {entries : List MmapEntry} {fuel : Nat} {k : Kernel}
    (hzero : ZeroMemory image ram slots)
    (hboot : boot image bounds entries fuel (loadedKernel image ram slots) =
      .ok k) :
    MemoryRun.Kept image slots (frameBounds image bounds entries).1
      (frameCount image bounds entries) ((bootPaging image).managed k)
      ⟨⟨k, []⟩, fun _ => none⟩ := by
  refine ⟨⟨_, tidy_of_boot hzero hboot⟩, accounted_of_boot hzero hboot, ?_, ?_,
    ?_, holds_nothing _ _⟩
  · intro d hd
    cases hd
  · intro d hd
    cases hd
  · obtain ⟨memMap, rfl, -⟩ := boot_ok hzero.loaded hboot
    dsimp only
    rw [bootedKernel_walk (by decide), if_neg (by decide)]

/-- From the boot on every process finds in its own half what it stored there
last, or its program, whatever other processes and the kernel do. -/
theorem remembers_of_granted {image : Image} {ram : Memory} {slots : Int → Nat}
    {bounds : Nat × Nat} {entries : List MmapEntry} {fuel fuel' : Nat}
    {k : Kernel} (hzero : ZeroMemory image ram slots)
    (hboot : boot image bounds entries fuel (loadedKernel image ram slots) =
      .ok k) {calls : List MemoryCall}
    (hcalls : EachStep (MemoryCall.exec image.kpgdir fuel')
      (fun x call _ => call.Granted image x.paging) calls
      ⟨⟨k, []⟩, fun _ => none⟩) :
    EachStep (MemoryCall.exec image.kpgdir fuel') (fun _ _ x' => Remembers x')
      calls ⟨⟨k, []⟩, fun _ => none⟩ := by
  have himage : ∀ init sz, image.Holds init sz → ∀ i < sz,
      OffHeap ((bootPaging image).managed k) (init + i) := by
    obtain ⟨memMap, rfl, hcount⟩ := boot_ok hzero.loaded hboot
    exact fun init sz hholds => hholds.offHeap hcount
  apply hcalls.of_invariant fun x => x.Kept image slots
    (frameBounds image bounds entries).1 (frameCount image bounds entries)
    ((bootPaging image).managed k)
  · intro x call x' h hstep hgranted
    have hkept := h.step hzero.slot himage hgranted hstep
    exact ⟨hkept, hkept.remembers⟩
  · exact kept_of_boot hzero hboot

/-- The calls up to the first store of the process. -/
def firstStore : List MemoryCall :=
  [.kernel .umapInit, .kernel (.uvmInit 0xC05E0000 0xC0007C00 4),
    .kernel (.switchToUvm 0xC05E0000), .store 2 0x41]

/-- Where the program of the small image is. -/
theorem smallProgram_holds : smallImage.Holds 0xC0007C00 4 :=
  ⟨by decide, by decide, by decide, by decide⟩

theorem programProcess_window_open :
    HasWindow ⟨programProcess, [0xC05E0000]⟩ := by
  intro d hd hcr3
  obtain rfl := List.mem_singleton.mp hd
  exact absurd hcr3 (by decide)

theorem programProcess_empty : entry programProcess.mem 0xC05E0000 0 = 0 := by
  decide +kernel

/-- `uvm_init` for the first process. -/
theorem programProcess_stored : ∃ fuel k',
    uvmInit smallImage.kpgdir fuel programProcess 0xC05E0000 0xC0007C00 4 =
        .ok k' ∧
      ProgramStored smallImage.kpgdir programProcess 0xC05E0000 0xC0007C00 4
        k' := by
  have hboot := smallKernel_boot programRam_zero.loaded
  have himage := smallProgram_holds
  have hsrc : ∀ i < 4, OffHeap ((bootPaging smallImage).managed
      (smallKernel programRam 2)) (0xC0007C00 + i) := by
    obtain ⟨memMap, hk, hcount⟩ := boot_ok programRam_zero.loaded hboot
    rw [hk]
    exact himage.offHeap hcount
  have hscratch : pageWalk programProcess.mem (v2p smallImage.kpgdir)
      scratchPage = none := by
    decide +kernel
  have hd : 0xC05E0000 ∈ [0xC05E0000] := List.mem_singleton_self _
  have hstep : PagingCall.umapInit.exec smallImage.kpgdir 10
      ⟨smallKernel programRam 2, []⟩ = .ok ⟨programProcess, [0xC05E0000]⟩ := by
    simp only [PagingCall.exec, smallKernel_umapInit, ok_bind]
    rfl
  have hoccurs : PagingCall.umapInit.Occurs ⟨smallKernel programRam 2, []⟩ :=
    trivial
  obtain ⟨s, h⟩ := (tidy_of_boot programRam_zero hboot).step rfl hoccurs trivial
    hstep
  obtain ⟨k', fuel, hfuel⟩ := h.uvmInit_returns rfl hscratch
    programProcess_window_open hd programProcess_empty (by decide) himage.direct
    (by decide) hsrc programProcess_served
  have hcall := hfuel fuel le_rfl
  exact ⟨fuel, k', hcall, h.uvmInit_stored rfl hscratch
    programProcess_window_open hd programProcess_empty himage.direct (by decide)
    hsrc programProcess_served hcall⟩

theorem remembers_first_store : ∃ fuel x,
    CallHistory.run (MemoryCall.exec smallImage.kpgdir fuel) firstStore
        ⟨⟨smallKernel programRam 2, []⟩, fun _ => none⟩ = .ok x ∧
      (userPlace x.paging.kernel.mem 0xC05E0000 1).map x.paging.kernel.mem =
        some 2 ∧
      (userPlace x.paging.kernel.mem 0xC05E0000 2).map x.paging.kernel.mem =
        some 0x41 := by
  obtain ⟨fuel, k', hcall, hstored⟩ := programProcess_stored
  let x₁ : MemoryRun := ⟨⟨programProcess, [0xC05E0000]⟩, fun _ => none⟩
  let x₂ : MemoryRun := ⟨⟨k', [0xC05E0000]⟩,
    (MemoryCall.kernel (.uvmInit 0xC05E0000 0xC0007C00 4)).learn x₁⟩
  let x₃ : MemoryRun := ⟨⟨k'.switchToUvm 0xC05E0000, [0xC05E0000]⟩, x₂.known⟩
  let x₄ : MemoryRun := ⟨⟨(k'.switchToUvm 0xC05E0000).setMem (store8 k'.mem
    (kernBase + programProcess.nextFrame + 2 % pgSize) 0x41), [0xC05E0000]⟩,
      (MemoryCall.store 2 0x41).learn x₃⟩
  have hfirst : (MemoryCall.kernel .umapInit).exec smallImage.kpgdir fuel
      ⟨⟨smallKernel programRam 2, []⟩, fun _ => none⟩ = .ok x₁ := by
    simp only [MemoryCall.exec, PagingCall.exec, smallKernel_umapInit, ok_bind]
    rfl
  have hsecond : (MemoryCall.kernel (.uvmInit 0xC05E0000 0xC0007C00 4)).exec
      smallImage.kpgdir fuel x₁ = .ok x₂ := by
    simp only [x₁, x₂, MemoryCall.exec, PagingCall.exec, hcall, ok_bind]
  have hthird : (MemoryCall.kernel (.switchToUvm 0xC05E0000)).exec
      smallImage.kpgdir fuel x₂ = .ok x₃ := rfl
  have hfourth : (MemoryCall.store 2 0x41).exec smallImage.kpgdir fuel x₃ =
      .ok x₄ := by
    have hcall := hstored.userStore (show 2 < pgSize by decide) 0x41
    simp only [MemoryCall.exec, x₃, x₄, hcall, ok_bind]
  have hboot := smallKernel_boot programRam_zero.loaded
  have hlow : 2 < kernBase := by decide
  have hgranted : EachStep (MemoryCall.exec smallImage.kpgdir fuel)
      (fun x call _ => call.Granted smallImage x.paging) firstStore
      ⟨⟨smallKernel programRam 2, []⟩, fun _ => none⟩ := by
    rw [firstStore, eachStep_cons hfirst, eachStep_cons hsecond,
      eachStep_cons hthird, eachStep_cons hfourth]
    exact ⟨trivial, ⟨List.mem_singleton_self _, programProcess_empty,
      smallProgram_holds, programProcess_window_open, programProcess_served⟩,
      List.mem_singleton_self _, hlow, trivial⟩
  have heach := remembers_of_granted programRam_zero hboot hgranted
  rw [firstStore, eachStep_cons hfirst, eachStep_cons hsecond,
    eachStep_cons hthird, eachStep_cons hfourth] at heach
  have hremembers : Remembers x₄ := heach.2.2.2.1
  have hd : 0xC05E0000 ∈ x₄.paging.dirs := List.mem_singleton_self _
  refine ⟨fuel, x₄, ?_, ?_, ?_⟩
  · rw [firstStore, CallHistory.run, hfirst, ok_bind, CallHistory.run, hsecond,
      ok_bind, CallHistory.run, hthird, ok_bind, CallHistory.run, hfourth]
    rfl
  · have hbyte : programProcess.mem (0xC0007C00 + 1) = 2 := by decide +kernel
    have hother : (MemoryCall.store 2 0x41).learn x₃ (0xC05E0000, 1) =
        x₃.known (0xC05E0000, 1) := MemoryCall.learn_other (by decide)
    have hprogram : (MemoryCall.kernel (.uvmInit 0xC05E0000 0xC0007C00 4)).learn
        x₁ (0xC05E0000, 1) = some (programProcess.mem (0xC0007C00 + 1)) :=
      MemoryCall.learn_program (by decide)
    exact hremembers _ hd 1 (by decide) 2
      (hother.trans (hprogram.trans (congrArg some hbyte)))
  · have hlearnt : (MemoryCall.store 2 0x41).learn x₃ (0xC05E0000, 2) =
        some 0x41 := MemoryCall.learn_stored hd rfl
    exact hremembers _ hd 2 hlow 0x41 hlearnt

end Linda
