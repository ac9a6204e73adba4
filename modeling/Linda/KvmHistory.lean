/-
Who owns the kernel's virtual pages: histories of the calls of vmmgr.c against
the events they are.
-/
import Linda.CallHistory
import Linda.FuelLoop
import Linda.KernelPages

namespace Linda

open CallHistory FuelLoop

/-- The calls that take a page are given an address in it. -/
inductive KvmCall where
  | map (addr : Nat)
  | unmap (addr : Nat)
  | alloc
  | free (addr : Nat)
deriving Repr, DecidableEq

inductive KvmOp where
  | map
  | unmap
  | alloc
  | free
deriving Repr, DecidableEq

/-- A call that returned, with the entry of the page it was about. -/
structure KvmEvent where
  op : KvmOp
  page : Nat
deriving Repr, DecidableEq

/-- The entry of an address of the kernel space. -/
def kvmIndex (addr : Nat) : Nat := sub32 addr kernBase / pgSize

/-- A kernel and the calls it has seen, the latest first. -/
structure KvmRun where
  kernel : Kernel
  events : List KvmEvent

def KvmRun.after (r : KvmRun) (op : KvmOp) (page : Nat) (k : Kernel) : KvmRun :=
  ⟨k, ⟨op, page⟩ :: r.events⟩

def kvmCall : KvmCall → KvmRun → Except Halt KvmRun
  | .map addr, r => do
      .ok (r.after .map (kvmIndex addr) (← kvmMapPage r.kernel addr))
  | .unmap addr, r => do
      .ok (r.after .unmap (kvmIndex addr) (← kvmUnmapPage r.kernel addr))
  | .alloc, r => do
      let (addr, k) ← kvmAllocPage r.kernel
      .ok (r.after .alloc (kvmIndex addr) k)
  | .free addr, r => do
      .ok (r.after .free (kvmIndex addr) (← kvmFreePage r.kernel addr))

/-- The latest of the page's events that was one of the two was the first of
them; `before` stands while there was none. -/
def since (set clear : KvmOp) (page : Nat) (before : Bool) :
    List KvmEvent → Bool
  | [] => before
  | event :: events =>
      if event.page = page ∧ event.op = set then true
      else if event.page = page ∧ event.op = clear then false
      else since set clear page before events

def VmBlock.used (block : VmBlock) : Bool := block.status &&& vmUsed != 0

def VmBlock.mapped (block : VmBlock) : Bool := block.status &&& vmMapped != 0

section Ownership

variable (first : Nat → VmBlock)

/-- The page was allocated and not freed since. -/
def ownedSince (page : Nat) (events : List KvmEvent) : Bool :=
  since .alloc .free page (first page).used events

/-- The last map or unmap of the page was a map. -/
def mappedSince (page : Nat) (events : List KvmEvent) : Bool :=
  since .map .unmap page (first page).mapped events

/-- The status bits say what the events say. -/
def Booked (kvmlist : Nat → VmBlock) (events : List KvmEvent) : Prop :=
  ∀ page, (kvmlist page).used = ownedSince first page events ∧
    (kvmlist page).mapped = mappedSince first page events

/-- The status bit an operation is for. -/
def KvmOp.bit : KvmOp → UInt8
  | .map => vmMapped
  | .unmap => vmMapped
  | .alloc => vmUsed
  | .free => vmUsed

/-- The event changed no more than its own bit of its own page. -/
def OwnBitOnly (event : KvmEvent) (kvmlist kvmlist' : Nat → VmBlock) : Prop :=
  (∀ page, page ≠ event.page → kvmlist' page = kvmlist page) ∧
    (kvmlist' event.page).address = (kvmlist event.page).address ∧
    (kvmlist' event.page).status &&& ~~~event.op.bit =
      (kvmlist event.page).status &&& ~~~event.op.bit

/-- What a call must do: change its own bit only, keep the book, and hand out
only pages nobody owns. -/
def KeepsOwnership (r : KvmRun) (_ : KvmCall) (r' : KvmRun) : Prop :=
  ∃ event, r'.events = event :: r.events ∧
    OwnBitOnly event r.kernel.kvmlist r'.kernel.kvmlist ∧
    Booked first r'.kernel.kvmlist r'.events ∧
    (event.op = .alloc → ownedSince first event.page r.events = false)

/-- No owned page is unmapped. -/
def UnmapsUnowned (r : KvmRun) (call : KvmCall) (_ : KvmRun) : Prop :=
  ∀ addr, call = .unmap addr →
    ownedSince first (kvmIndex addr) r.events = false

end Ownership

/-- The addresses `kvm_init` writes. -/
def Addressed (kvmlist : Nat → VmBlock) : Prop :=
  ∀ i < nvmBlocks, (kvmlist i).address = kernBase + i * pgSize

/-- What the operations do to the entry of their page. -/
def KvmOp.apply (block : VmBlock) : KvmOp → VmBlock
  | .map => { block with status := block.status ||| vmMapped }
  | .unmap => { block with status := block.status &&& vmUnmapMask }
  | .alloc => block.use
  | .free => { block with status := block.status &&& ~~~vmUsed }

def KvmCall.op : KvmCall → KvmOp
  | .map _ => .map
  | .unmap _ => .unmap
  | .alloc => .alloc
  | .free _ => .free

/-- Everything a call that returns does. -/
structure KvmEffect (call : KvmCall) (r r' : KvmRun) (event : KvmEvent) :
    Prop where
  op : event.op = call.op
  page : event.page < nvmBlocks
  addr : ∀ addr, call = .unmap addr → event.page = kvmIndex addr
  events : r'.events = event :: r.events
  kvmlist : r'.kernel.kvmlist = setBlock r.kernel.kvmlist event.page
    (event.op.apply (r.kernel.kvmlist event.page))
  unused : event.op = .alloc →
    (r.kernel.kvmlist event.page).used = false

section Calls

variable {call : KvmCall} {r r' : KvmRun} {first : Nat → VmBlock}

theorem kvmIndex_lt {addr : Nat} (h : ¬ kernSize ≤ sub32 addr kernBase) :
    kvmIndex addr < nvmBlocks := by
  simp only [kernSize, kvmIndex, pgSize, nvmBlocks] at h ⊢
  omega

theorem kvmIndex_address {i : Nat} (h : i < nvmBlocks) :
    kvmIndex (kernBase + i * pgSize) = i := by
  simp only [nvmBlocks] at h
  have hlt : kernBase + i * pgSize < 4294967296 := by
    simp only [kernBase, pgSize]
    omega
  rw [kvmIndex, sub32_of_le hlt (Nat.le_add_right _ _), Nat.add_sub_cancel_left]
  exact Nat.mul_div_cancel i (by decide)

theorem kvmMapPage_ok {k : Kernel} {addr : Nat}
    (hout : ¬ kernSize ≤ sub32 addr kernBase) :
    kvmMapPage k addr = .ok (k.setKvmlist (setBlock k.kvmlist (kvmIndex addr)
      (KvmOp.map.apply (k.kvmlist (kvmIndex addr))))) := by
  simp only [kvmMapPage, if_neg hout, kvmIndex, KvmOp.apply]

theorem kvmUnmapPage_ok {k : Kernel} {addr : Nat}
    (hout : ¬ kernSize ≤ sub32 addr kernBase) :
    kvmUnmapPage k addr = .ok (k.setKvmlist (setBlock k.kvmlist (kvmIndex addr)
      (KvmOp.unmap.apply (k.kvmlist (kvmIndex addr))))) := by
  simp only [kvmUnmapPage, if_neg hout, kvmIndex, KvmOp.apply]

theorem kvmFreePage_ok {k : Kernel} {addr : Nat} (haddr : Addressed k.kvmlist)
    (hout : ¬ kernSize ≤ sub32 addr kernBase) :
    kvmFreePage k addr = .ok (k.setKvmlist (setBlock k.kvmlist (kvmIndex addr)
      (KvmOp.free.apply (k.kvmlist (kvmIndex addr))))) := by
  have hne : (k.kvmlist (kvmIndex addr)).address ≠ 0 := by
    rw [haddr _ (kvmIndex_lt hout)]
    simp only [kernBase]
    omega
  rw [kvmIndex] at hne
  simp only [kvmFreePage, if_neg hout, if_neg hne, kvmIndex, KvmOp.apply]

/-- The page that `kvm_alloc_page` hands out. -/
theorem kvmAllocPage_page {k k' : Kernel} {addr : Nat}
    (haddr : Addressed k.kvmlist) (h : kvmAllocPage k = .ok (addr, k')) :
    ∃ page < nvmBlocks, addr = kernBase + page * pgSize ∧
      (k.kvmlist page).used = false ∧
      k' = k.setKvmlist
        (setBlock k.kvmlist page (KvmOp.alloc.apply (k.kvmlist page))) := by
  cases hscan : kvmScan k.kvmlist VmBlock.available nvmBlocks 0 with
  | none =>
      simp only [kvmAllocPage, hscan] at h
      cases h
  | some i =>
      obtain ⟨_, hi, havail, _⟩ := kvmScan_some hscan
      rw [Nat.zero_add] at hi
      simp only [kvmAllocPage, hscan, haddr i hi, Except.ok.injEq,
        Prod.mk.injEq] at h
      simp only [VmBlock.available, Bool.and_eq_true,
        Bool.not_eq_true'] at havail
      exact ⟨i, hi, h.1.symm, havail.2, h.2.symm⟩

/-- Each call applies its operation to the entry of its page. -/
theorem kvmCall_cases (haddr : Addressed r.kernel.kvmlist)
    (hcall : kvmCall call r = .ok r') :
    ∃ page < nvmBlocks,
      r' = r.after call.op page (r.kernel.setKvmlist
        (setBlock r.kernel.kvmlist page
          (call.op.apply (r.kernel.kvmlist page)))) ∧
      (call.op = .alloc → (r.kernel.kvmlist page).used = false) ∧
      ∀ addr, call = .free addr ∨ call = .unmap addr →
        page = kvmIndex addr := by
  cases call with
  | map addr =>
      rw [kvmCall] at hcall
      by_cases hout : kernSize ≤ sub32 addr kernBase
      · rw [kvmMapPage, if_pos hout] at hcall
        cases hcall
      · rw [kvmMapPage_ok hout, ok_bind, Except.ok.injEq] at hcall
        exact ⟨kvmIndex addr, kvmIndex_lt hout, hcall.symm, nofun, by simp⟩
  | unmap addr =>
      rw [kvmCall] at hcall
      by_cases hout : kernSize ≤ sub32 addr kernBase
      · rw [kvmUnmapPage, if_pos hout] at hcall
        cases hcall
      · rw [kvmUnmapPage_ok hout, ok_bind, Except.ok.injEq] at hcall
        exact ⟨kvmIndex addr, kvmIndex_lt hout, hcall.symm, nofun, by simp⟩
  | alloc =>
      rw [kvmCall] at hcall
      cases halloc : kvmAllocPage r.kernel with
      | error why =>
          rw [halloc] at hcall
          cases hcall
      | ok out =>
          obtain ⟨page, hpage, haddress, hfree, hkernel⟩ :=
            kvmAllocPage_page haddr halloc
          simp only [halloc, ok_bind, haddress, kvmIndex_address hpage,
            hkernel, Except.ok.injEq] at hcall
          exact ⟨page, hpage, hcall.symm, fun _ => hfree, by simp⟩
  | free addr =>
      rw [kvmCall] at hcall
      by_cases hout : kernSize ≤ sub32 addr kernBase
      · simp only [kvmFreePage, if_pos hout] at hcall
        cases hcall
      · rw [kvmFreePage_ok haddr hout, ok_bind, Except.ok.injEq] at hcall
        exact ⟨kvmIndex addr, kvmIndex_lt hout, hcall.symm, nofun, by simp⟩

theorem kvmCall_effect (haddr : Addressed r.kernel.kvmlist)
    (hcall : kvmCall call r = .ok r') : ∃ event, KvmEffect call r r' event := by
  obtain ⟨page, hpage, rfl, hunused, hsame⟩ := kvmCall_cases haddr hcall
  exact ⟨⟨call.op, page⟩, rfl, hpage, fun addr h => hsame addr (.inr h), rfl,
    rfl, hunused⟩

theorem apply_address (op : KvmOp) (block : VmBlock) :
    (op.apply block).address = block.address := by
  cases op <;> rfl

/-- The used bit after an operation: an unmap clears it as well. -/
theorem apply_used (op : KvmOp) (block : VmBlock) :
    (op.apply block).used =
      match op with
      | .map => block.used
      | .unmap => false
      | .alloc => true
      | .free => false := by
  have hmap : ∀ status : UInt8, ((status ||| vmMapped) &&& vmUsed != 0) =
      (status &&& vmUsed != 0) := forall_status (by decide +kernel)
  have hunmap : ∀ status : UInt8, ((status &&& vmUnmapMask) &&& vmUsed != 0) =
      false := forall_status (by decide +kernel)
  have halloc : ∀ status : UInt8, ((status ||| vmUsed) &&& vmUsed != 0) =
      true := forall_status (by decide +kernel)
  have hfree : ∀ status : UInt8, ((status &&& ~~~vmUsed) &&& vmUsed != 0) =
      false := forall_status (by decide +kernel)
  cases op with
  | map => exact hmap block.status
  | unmap => exact hunmap block.status
  | alloc => exact halloc block.status
  | free => exact hfree block.status

theorem apply_mapped (op : KvmOp) (block : VmBlock) :
    (op.apply block).mapped =
      match op with
      | .map => true
      | .unmap => false
      | .alloc => block.mapped
      | .free => block.mapped := by
  have hmap : ∀ status : UInt8, ((status ||| vmMapped) &&& vmMapped != 0) =
      true := forall_status (by decide +kernel)
  have hunmap : ∀ status : UInt8,
      ((status &&& vmUnmapMask) &&& vmMapped != 0) = false :=
    forall_status (by decide +kernel)
  have halloc : ∀ status : UInt8, ((status ||| vmUsed) &&& vmMapped != 0) =
      (status &&& vmMapped != 0) := forall_status (by decide +kernel)
  have hfree : ∀ status : UInt8, ((status &&& ~~~vmUsed) &&& vmMapped != 0) =
      (status &&& vmMapped != 0) := forall_status (by decide +kernel)
  cases op with
  | map => exact hmap block.status
  | unmap => exact hunmap block.status
  | alloc => exact halloc block.status
  | free => exact hfree block.status

/-- Only the unmap of a used page reaches past its own bit. -/
theorem apply_ownBit (op : KvmOp) (block : VmBlock) :
    (op.apply block).status &&& ~~~op.bit = block.status &&& ~~~op.bit ↔
      (op = .unmap → block.used = false) := by
  have hmap : ∀ status : UInt8, (status ||| vmMapped) &&& ~~~vmMapped =
      status &&& ~~~vmMapped := forall_status (by decide +kernel)
  have hunmap : ∀ status : UInt8,
      (status &&& vmUnmapMask) &&& ~~~vmMapped = status &&& ~~~vmMapped ↔
        (status &&& vmUsed != 0) = false := forall_status (by decide +kernel)
  have halloc : ∀ status : UInt8, (status ||| vmUsed) &&& ~~~vmUsed =
      status &&& ~~~vmUsed := forall_status (by decide +kernel)
  have hfree : ∀ status : UInt8, (status &&& ~~~vmUsed) &&& ~~~vmUsed =
      status &&& ~~~vmUsed := forall_status (by decide +kernel)
  cases op with
  | map => exact iff_of_true (hmap block.status) KvmOp.noConfusion
  | unmap =>
      apply (hunmap block.status).trans
      exact ⟨fun hused _ => hused, fun hused => hused rfl⟩
  | alloc => exact iff_of_true (halloc block.status) KvmOp.noConfusion
  | free => exact iff_of_true (hfree block.status) KvmOp.noConfusion

theorem ownedSince_cons (page : Nat) (event : KvmEvent)
    (events : List KvmEvent) :
    ownedSince first page (event :: events) =
      if event.page = page then
        match event.op with
        | .map => ownedSince first page events
        | .unmap => ownedSince first page events
        | .alloc => true
        | .free => false
      else ownedSince first page events := by
  cases event with
  | mk op at_ => cases op <;> simp [ownedSince, since]

theorem mappedSince_cons (page : Nat) (event : KvmEvent)
    (events : List KvmEvent) :
    mappedSince first page (event :: events) =
      if event.page = page then
        match event.op with
        | .map => true
        | .unmap => false
        | .alloc => mappedSince first page events
        | .free => mappedSince first page events
      else mappedSince first page events := by
  cases event with
  | mk op at_ => cases op <;> simp [mappedSince, since]

/-- An operation that reaches no further than its own bit keeps the book. -/
theorem Booked.step {kvmlist : Nat → VmBlock} {events : List KvmEvent}
    (hbook : Booked first kvmlist events) (event : KvmEvent)
    (hunused : event.op = .unmap → (kvmlist event.page).used = false) :
    Booked first
      (setBlock kvmlist event.page (event.op.apply (kvmlist event.page)))
      (event :: events) := by
  intro page
  rw [ownedSince_cons, mappedSince_cons]
  by_cases hpage : event.page = page
  · obtain ⟨hused, hmapped⟩ := hbook page
    rw [← hpage] at hused hmapped ⊢
    rw [setBlock, if_pos rfl, apply_used, apply_mapped, if_pos rfl, if_pos rfl]
    cases hop : event.op with
    | map => exact ⟨hused, rfl⟩
    | unmap => exact ⟨(hunused hop).symm.trans hused, rfl⟩
    | alloc => exact ⟨rfl, hmapped⟩
    | free => exact ⟨rfl, hmapped⟩
  · rw [setBlock, if_neg (Ne.symm hpage), if_neg hpage, if_neg hpage]
    exact hbook page

theorem Addressed.step {kvmlist : Nat → VmBlock} (haddr : Addressed kvmlist)
    (op : KvmOp) (page : Nat) :
    Addressed (setBlock kvmlist page (op.apply (kvmlist page))) := by
  intro i hi
  by_cases hpage : i = page
  · rw [setBlock, if_pos hpage, apply_address, ← hpage, haddr i hi]
  · rw [setBlock, if_neg hpage, haddr i hi]

/-- A page in use stays so while it is neither freed nor unmapped. -/
theorem used_setBlock {kvmlist : Nat → VmBlock} {page i : Nat} {op : KvmOp}
    (hused : (kvmlist i).used = true)
    (hop : op = .free ∨ op = .unmap → page ≠ i) :
    (setBlock kvmlist page (op.apply (kvmlist page)) i).used = true := by
  by_cases hi : i = page
  · subst hi
    rw [setBlock, if_pos rfl, apply_used]
    cases op with
    | map => exact hused
    | alloc => rfl
    | unmap => exact absurd rfl (hop (.inr rfl))
    | free => exact absurd rfl (hop (.inl rfl))
  · rw [setBlock, if_neg hi]
    exact hused

theorem ownBitOnly_iff (event : KvmEvent) (kvmlist : Nat → VmBlock) :
    OwnBitOnly event kvmlist
        (setBlock kvmlist event.page (event.op.apply (kvmlist event.page))) ↔
      (event.op = .unmap → (kvmlist event.page).used = false) := by
  have hat : setBlock kvmlist event.page
      (event.op.apply (kvmlist event.page)) event.page =
        event.op.apply (kvmlist event.page) := if_pos rfl
  rw [← apply_ownBit, OwnBitOnly, hat]
  constructor
  · rintro ⟨_, _, hbits⟩
    exact hbits
  · intro hbits
    exact ⟨fun page hpage => if_neg hpage, apply_address _ _, hbits⟩

/-- A call owns its page as it must exactly when it unmaps no owned one. -/
theorem KvmEffect.keeps_iff {event : KvmEvent}
    (heffect : KvmEffect call r r' event)
    (hbook : Booked first r.kernel.kvmlist r.events) :
    KeepsOwnership first r call r' ↔ UnmapsUnowned first r call r' := by
  have hunmaps : UnmapsUnowned first r call r' ↔
      (event.op = .unmap →
        (r.kernel.kvmlist event.page).used = false) := by
    rw [(hbook event.page).1]
    constructor
    · intro hunowned hop
      rw [heffect.op] at hop
      cases call with
      | unmap addr =>
          rw [heffect.addr addr rfl]
          exact hunowned addr rfl
      | map addr => cases hop
      | alloc => cases hop
      | free addr => cases hop
    · rintro hunused addr rfl
      rw [← heffect.addr addr rfl]
      exact hunused heffect.op
  rw [hunmaps, ← ownBitOnly_iff, ← heffect.kvmlist]
  constructor
  · rintro ⟨event', hevents, hown, -, -⟩
    rw [heffect.events, List.cons.injEq] at hevents
    rw [hevents.1]
    exact hown
  · intro hown
    refine ⟨event, heffect.events, hown, ?_, ?_⟩
    · rw [heffect.events, heffect.kvmlist]
      apply hbook.step
      rwa [← ownBitOnly_iff, ← heffect.kvmlist]
    · intro hop
      rw [← (hbook event.page).1]
      exact heffect.unused hop

end Calls

/-- The pages are owned exclusively through exactly the histories in which no
owned page is unmapped. -/
theorem keepsOwnership_iff {k : Kernel} (haddr : Addressed k.kvmlist)
    (calls : List KvmCall) :
    EachStep kvmCall (KeepsOwnership k.kvmlist) calls ⟨k, []⟩ ↔
      EachStep kvmCall (UnmapsUnowned k.kvmlist) calls ⟨k, []⟩ := by
  apply eachStep_congr fun _ r =>
    Addressed r.kernel.kvmlist ∧ Booked k.kvmlist r.kernel.kvmlist r.events
  · rintro r call _ r' ⟨hwell, hbook⟩ hcall
    obtain ⟨event, heffect⟩ := kvmCall_effect hwell hcall
    exact heffect.keeps_iff hbook
  · rintro r call _ r' ⟨hwell, hbook⟩ hcall hunowned
    obtain ⟨event, heffect⟩ := kvmCall_effect hwell hcall
    obtain ⟨-, -, -, hkept, -⟩ :=
      (heffect.keeps_iff hbook).mpr hunowned
    refine ⟨?_, hkept⟩
    rw [heffect.kvmlist]
    exact hwell.step event.op event.page
  · exact ⟨haddr, fun page => ⟨rfl, rfl⟩⟩

/-- As `kvm_init` leaves it behind a kernel that ends in its page 16. -/
def startedKernel : Kernel where
  mem := fun _ => 0
  kmemList := 0
  kvmlist := fun i =>
    ⟨kernBase + i * pgSize, if i ≤ 16 then vmUsed ||| vmMapped else 0⟩
  memMap := .zeroed fun _ => 0
  mmaplist := 0
  cr3 := 0
  curproc := none

theorem keepsOwnership_started :
    EachStep kvmCall (KeepsOwnership startedKernel.kvmlist)
      [.unmap 0xC0020000, .map 0xC0020000, .alloc, .free 0xC0020FFF]
      ⟨startedKernel, []⟩ := by
  apply (keepsOwnership_iff (fun i hi => rfl) _).mpr
  intro r₁ _
  constructor
  · rintro addr ⟨⟩
    decide
  intro r₂ _
  refine ⟨fun addr h => KvmCall.noConfusion h, ?_⟩
  intro r₃ _
  refine ⟨fun addr h => KvmCall.noConfusion h, ?_⟩
  intro r₄ _
  exact ⟨fun addr h => KvmCall.noConfusion h, trivial⟩

/-- Unmapped and mapped again, the page is handed out a second time. -/
theorem page_handed_out_twice :
    ¬ EachStep kvmCall (KeepsOwnership startedKernel.kvmlist)
      [.map 0xC0020000, .alloc, .unmap 0xC0020000, .map 0xC0020000, .alloc]
      ⟨startedKernel, []⟩ := by
  intro heach
  have hfour : ((run kvmCall [.map 0xC0020000, .alloc, .unmap 0xC0020000,
      .map 0xC0020000] ⟨startedKernel, []⟩).toOption.map KvmRun.events) =
        some [⟨.map, 32⟩, ⟨.unmap, 32⟩, ⟨.alloc, 32⟩, ⟨.map, 32⟩] := by
    decide +kernel
  have hfive : ((run kvmCall [.map 0xC0020000, .alloc, .unmap 0xC0020000,
      .map 0xC0020000, .alloc] ⟨startedKernel, []⟩).toOption.map
        (List.head? ∘ KvmRun.events)) = some (some ⟨.alloc, 32⟩) := by
    decide +kernel
  rw [show [KvmCall.map 0xC0020000, .alloc, .unmap 0xC0020000, .map 0xC0020000,
    .alloc] = [.map 0xC0020000, .alloc, .unmap 0xC0020000, .map 0xC0020000] ++
      [.alloc] from rfl] at heach hfive
  rw [run_snoc] at hfive
  cases hrun : run kvmCall [.map 0xC0020000, .alloc, .unmap 0xC0020000,
      .map 0xC0020000] ⟨startedKernel, []⟩ with
  | error e =>
      rw [hrun] at hfour
      cases hfour
  | ok r =>
      cases hcall : kvmCall .alloc r with
      | error e =>
          rw [hrun, ok_bind, hcall] at hfive
          cases hfive
      | ok r' =>
          rw [hrun, ok_bind, hcall] at hfive
          rw [hrun] at hfour
          obtain ⟨event, hevents, -, -, hunowned⟩ := heach.last hrun hcall
          have hevent : event = ⟨.alloc, 32⟩ := by
            simpa [Except.toOption, hevents] using hfive
          have hbefore : r.events =
              [⟨.map, 32⟩, ⟨.unmap, 32⟩, ⟨.alloc, 32⟩, ⟨.map, 32⟩] := by
            simpa [Except.toOption] using hfour
          rw [hevent, hbefore] at hunowned
          exact absurd (hunowned rfl) (by decide)

end Linda
