/-
Words on a stack in a byte memory.  Addresses are 32 bits wide and wrap around;
a stack grows downwards, a word at a time.
-/
import Linda.ByteMemory

namespace WordStack

open ByteMemory

abbrev Word := BitVec 32

/-- The bytes of a word, lowest first. -/
def byteOf (v : Word) (i : Nat) : UInt8 :=
  UInt8.ofBitVec (v.extractLsb' (8 * i) 8)

def wordAt (m : Memory) (a : Word) : Word :=
  (m (a + 3).toNat).toBitVec ++ (m (a + 2).toNat).toBitVec ++
    (m (a + 1).toNat).toBitVec ++ (m a.toNat).toBitVec

def putWord (m : Memory) (a v : Word) : Memory := fun x =>
  if x = a.toNat then byteOf v 0
  else if x = (a + 1).toNat then byteOf v 1
  else if x = (a + 2).toNat then byteOf v 2
  else if x = (a + 3).toNat then byteOf v 3
  else m x

/-- The lower half of a word, where a field of 16 bits lies. -/
def halfAt (m : Memory) (a : Word) : BitVec 16 := (wordAt m a).setWidth 16

def putHalf (m : Memory) (a : Word) (h : BitVec 16) : Memory := fun x =>
  if x = a.toNat then byteOf (h.setWidth 32) 0
  else if x = (a + 1).toNat then byteOf (h.setWidth 32) 1
  else m x

/-- What is known of a word on a stack: all of it, or its lower half. -/
inductive Slot where
  | word (w : Word)
  | half (h : BitVec 16)
deriving Repr, DecidableEq

def Slot.Shown : Slot → Word → Prop
  | .word w, v => v = w
  | .half h, v => v.setWidth 16 = h

/-- The words from the top of a stack on. -/
def StackAt (m : Memory) : Word → List Slot → Prop
  | _, [] => True
  | a, slot :: slots => slot.Shown (wordAt m a) ∧ StackAt m (a + 4) slots

/-- The `n` bytes from `a` on are the same. -/
def SameFrom (m m' : Memory) (a : Word) (n : Nat) : Prop :=
  ∀ i < n, m' (a + BitVec.ofNat 32 i).toNat = m (a + BitVec.ofNat 32 i).toNat

variable {m m' m'' : Memory} {a esp v : Word} {n : Nat}
  {slot : Slot} {slots : List Slot}

theorem bytes_word (v : Word) :
    ((byteOf v 3).toBitVec ++ (byteOf v 2).toBitVec ++
      (byteOf v 1).toBitVec ++ (byteOf v 0).toBitVec : Word) = v := by
  simp only [byteOf]
  ext i hi
  have hplace : ∀ j, j = i → v.getLsbD j = v[i] := by
    rintro j rfl
    exact BitVec.getLsbD_eq_getElem hi
  simp only [BitVec.getElem_append, BitVec.getElem_extractLsb']
  split_ifs <;> exact hplace _ (by omega)

@[simp] theorem wordAt_putWord_same (m : Memory) (a v : Word) :
    wordAt (putWord m a v) a = v := by
  have h1 : (a + 1).toNat ≠ a.toNat := by bv_omega
  have h2 : (a + 2).toNat ≠ a.toNat := by bv_omega
  have h3 : (a + 3).toNat ≠ a.toNat := by bv_omega
  have h21 : (a + 2).toNat ≠ (a + 1).toNat := by bv_omega
  have h31 : (a + 3).toNat ≠ (a + 1).toNat := by bv_omega
  have h32 : (a + 3).toNat ≠ (a + 2).toNat := by bv_omega
  simp only [wordAt, putWord, h1, h2, h3, h21, h31, h32, ↓reduceIte]
  exact bytes_word v

theorem halfAt_putHalf_same (m : Memory) (a : Word) (h : BitVec 16) :
    halfAt (putHalf m a h) a = h := by
  have h1 : (a + 1).toNat ≠ a.toNat := by bv_omega
  simp only [halfAt, wordAt, putHalf, h1, ↓reduceIte, byteOf]
  ext i hi
  have hplace : ∀ j, j = i → h.getLsbD j = h[i] := by
    rintro j rfl
    exact BitVec.getLsbD_eq_getElem hi
  simp only [BitVec.getElem_setWidth, BitVec.getLsbD_append,
    BitVec.getLsbD_extractLsb', BitVec.getLsbD_setWidth]
  by_cases hlow : i < 8
  · have h32 : 8 * 0 + i < 32 := by omega
    simp only [hlow, h32, ↓reduceIte, decide_true, Bool.true_and]
    exact hplace _ (by omega)
  · have hhigh : i - 8 < 8 := by omega
    have h32 : 8 * 1 + (i - 8) < 32 := by omega
    simp only [hlow, hhigh, h32, ↓reduceIte, decide_true, Bool.true_and]
    exact hplace _ (by omega)

theorem putHalf_of_outside {x : Nat} {h : BitVec 16}
    (hx : ∀ i < 2, x ≠ (a + BitVec.ofNat 32 i).toNat) :
    putHalf m a h x = m x := by
  have h0 := hx 0 (by decide)
  rw [BitVec.add_zero] at h0
  have h1 : x ≠ (a + 1).toNat := hx 1 (by decide)
  simp only [putHalf, h0, h1, ↓reduceIte]

theorem putWord_of_outside {x : Nat}
    (h : ∀ i < 4, x ≠ (a + BitVec.ofNat 32 i).toNat) :
    putWord m a v x = m x := by
  have h0 := h 0 (by decide)
  rw [BitVec.add_zero] at h0
  have h1 : x ≠ (a + 1).toNat := h 1 (by decide)
  have h2 : x ≠ (a + 2).toNat := h 2 (by decide)
  have h3 : x ≠ (a + 3).toNat := h 3 (by decide)
  simp only [putWord, h0, h1, h2, h3, ↓reduceIte]

theorem putWord_of_beside {x : Nat} (hfit : a.toNat + 4 ≤ 4294967296)
    (hx : x < a.toNat ∨ a.toNat + 4 ≤ x) : putWord m a v x = m x := by
  apply putWord_of_outside
  intro i hi
  bv_omega

namespace SameFrom

/-- Where addresses do not wrap around, a range is one of numbers. -/
theorem of_bytes (hfit : a.toNat + n ≤ 4294967296)
    (h : ∀ x, a.toNat ≤ x → x < a.toNat + n → m' x = m x) :
    SameFrom m m' a n := by
  intro i hi
  have hi' : (a + BitVec.ofNat 32 i).toNat = a.toNat + i := by bv_omega
  rw [hi']
  exact h _ (Nat.le_add_right _ _) (by omega)

theorem skip {k : Nat} (h : SameFrom m m' a (k + n)) :
    SameFrom m m' (a + BitVec.ofNat 32 k) n := by
  intro i hi
  have hbyte := h (k + i) (by omega)
  rwa [BitVec.ofNat_add, ← BitVec.add_assoc] at hbyte

theorem wordAt (h : SameFrom m m' a n) (hn : 4 ≤ n) :
    WordStack.wordAt m' a = WordStack.wordAt m a := by
  have h0 := h 0 (by omega)
  rw [BitVec.add_zero] at h0
  have h1 : m' (a + 1).toNat = m (a + 1).toNat := h 1 (by omega)
  have h2 : m' (a + 2).toNat = m (a + 2).toNat := h 2 (by omega)
  have h3 : m' (a + 3).toNat = m (a + 3).toNat := h 3 (by omega)
  simp only [WordStack.wordAt, h0, h1, h2, h3]

/-- A store below a stack. -/
theorem putWord_below (m : Memory) (esp v : Word)
    (hn : n + 4 ≤ 4294967296) :
    SameFrom m (putWord m (esp - 4) v) esp n := by
  intro i hi
  apply putWord_of_outside
  intro j hj
  bv_omega

end SameFrom

theorem StackAt.congr (h : StackAt m a slots)
    (hsame : SameFrom m m' a (4 * slots.length)) : StackAt m' a slots := by
  induction slots generalizing a with
  | nil => trivial
  | cons slot slots ih =>
      rw [List.length_cons, Nat.mul_succ, Nat.add_comm] at hsame
      obtain ⟨hword, hrest⟩ := h
      refine ⟨?_, ih hrest hsame.skip⟩
      rwa [hsame.wordAt (by omega)]

/-- A push puts its word in front. -/
theorem StackAt.push (h : StackAt m esp slots) (hslot : slot.Shown v)
    (hroom : 4 * slots.length + 4 ≤ 4294967296) :
    StackAt (putWord m (esp - 4) v) (esp - 4) (slot :: slots) := by
  refine ⟨?_, ?_⟩
  · rwa [wordAt_putWord_same]
  · rw [BitVec.sub_add_cancel]
    exact h.congr (.putWord_below m esp v hroom)

/-- The stack under the first slots. -/
theorem StackAt.drop (h : StackAt m a slots) (i : Nat) :
    StackAt m (a + BitVec.ofNat 32 (4 * i)) (slots.drop i) := by
  induction i generalizing a slots with
  | zero =>
      rw [Nat.mul_zero, BitVec.add_zero]
      exact h
  | succ i ih =>
      have hoffset : BitVec.ofNat 32 (4 * (i + 1)) =
          (4 : Word) + BitVec.ofNat 32 (4 * i) := by
        rw [Nat.mul_succ, Nat.add_comm, BitVec.ofNat_add]
        rfl
      rw [hoffset, ← BitVec.add_assoc]
      cases slots with
      | nil => trivial
      | cons slot slots => exact ih h.2

/-- A slot at a place of a stack. -/
theorem StackAt.get {i : Nat} (h : StackAt m a slots)
    (hi : slots[i]? = some slot) :
    slot.Shown (wordAt m (a + BitVec.ofNat 32 (4 * i))) := by
  have hrest := h.drop i
  rw [List.drop_eq_getElem?_toList_append, hi] at hrest
  exact hrest.1

theorem stackAt_iff : StackAt m a slots ↔ ∀ (i : Nat) (slot : Slot),
    slots[i]? = some slot →
      slot.Shown (wordAt m (a + BitVec.ofNat 32 (4 * i))) := by
  constructor
  · exact fun h i slot hi => h.get hi
  · intro h
    induction slots generalizing a with
    | nil => trivial
    | cons first slots ih =>
        refine ⟨?_, ih fun i slot hi => ?_⟩
        · have hfirst := h 0 first rfl
          rwa [Nat.mul_zero, BitVec.add_zero] at hfirst
        · have hslot := h (i + 1) slot hi
          rwa [Nat.mul_succ, Nat.add_comm, BitVec.ofNat_add,
            ← BitVec.add_assoc] at hslot

/-- One slot changed, and its bytes at most. -/
theorem StackAt.set {k : Nat} (h : StackAt m a slots)
    (hsame : ∀ i < 4 * slots.length, i < 4 * k ∨ 4 * k + 4 ≤ i →
      m' (a + BitVec.ofNat 32 i).toNat = m (a + BitVec.ofNat 32 i).toNat)
    (hslot : slot.Shown (wordAt m' (a + BitVec.ofNat 32 (4 * k)))) :
    StackAt m' a (slots.set k slot) := by
  rw [stackAt_iff]
  intro i slot' hi
  have hlt : i < slots.length := by
    obtain ⟨hlt, -⟩ := List.getElem?_eq_some_iff.mp hi
    rwa [List.length_set] at hlt
  rw [List.getElem?_set] at hi
  split_ifs at hi with hk hkey
  · cases hi
    rwa [← hk]
  · have hword : wordAt m' (a + BitVec.ofNat 32 (4 * i)) =
        wordAt m (a + BitVec.ofNat 32 (4 * i)) := by
      refine SameFrom.wordAt (fun j hj => ?_) le_rfl
      have hbyte := hsame (4 * i + j) (by omega) (by omega)
      rwa [BitVec.ofNat_add, ← BitVec.add_assoc] at hbyte
    rw [hword]
    exact h.get hi

theorem StackAt.setWord {k : Nat} (h : StackAt m a slots)
    (hk : k < slots.length) (hfit : 4 * slots.length ≤ 4294967296) (v : Word) :
    StackAt (putWord m (a + BitVec.ofNat 32 (4 * k)) v) a
      (slots.set k (.word v)) := by
  refine h.set (fun i hi hout => putWord_of_outside fun j hj => ?_)
    (wordAt_putWord_same m _ v)
  bv_omega

theorem StackAt.setHalf {k : Nat} (h : StackAt m a slots)
    (hk : k < slots.length) (hfit : 4 * slots.length ≤ 4294967296)
    (v : BitVec 16) :
    StackAt (putHalf m (a + BitVec.ofNat 32 (4 * k)) v) a
      (slots.set k (.half v)) := by
  refine h.set (fun i hi hout => putHalf_of_outside fun j hj => ?_)
    (halfAt_putHalf_same m _ v)
  bv_omega

/-- A field stored into another one. -/
theorem StackAt.copyHalf {j k : Nat} {v : BitVec 16} (h : StackAt m a slots)
    (hj : slots[j]? = some (.half v)) (hk : k < slots.length)
    (hfit : 4 * slots.length ≤ 4294967296) :
    StackAt (putHalf m (a + BitVec.ofNat 32 (4 * k))
      (halfAt m (a + BitVec.ofNat 32 (4 * j)))) a (slots.set k (.half v)) := by
  have hread : halfAt m (a + BitVec.ofNat 32 (4 * j)) = v := h.get hj
  rw [hread]
  exact h.setHalf hk hfit v

/-- Of a word only the half is looked at. -/
theorem StackAt.toHalf {k : Nat} {w : Word} (h : StackAt m a slots)
    (hk : slots[k]? = some (.word w)) :
    StackAt m a (slots.set k (.half (w.setWidth 16))) :=
  h.set (fun _ _ _ => rfl) (congrArg _ (h.get hk))

theorem StackAt.zeros (hfit : a.toNat + 4 * n ≤ 4294967296) :
    StackAt (fill m a.toNat (4 * n) 0) a (List.replicate n (.word 0)) := by
  rw [stackAt_iff]
  intro i slot hi
  rw [List.getElem?_replicate] at hi
  split_ifs at hi with hlt
  cases hi
  have hbyte (j : Nat) (hj : j < 4) : fill m a.toNat (4 * n) 0
      (a + BitVec.ofNat 32 (4 * i) + BitVec.ofNat 32 j).toNat = 0 :=
    fill_of_inside m 0 (by bv_omega)
  have h0 := hbyte 0 (by decide)
  rw [BitVec.add_zero] at h0
  have h1 : fill m a.toNat (4 * n) 0
      (a + BitVec.ofNat 32 (4 * i) + 1).toNat = 0 := hbyte 1 (by decide)
  have h2 : fill m a.toNat (4 * n) 0
      (a + BitVec.ofNat 32 (4 * i) + 2).toNat = 0 := hbyte 2 (by decide)
  have h3 : fill m a.toNat (4 * n) 0
      (a + BitVec.ofNat 32 (4 * i) + 3).toNat = 0 := hbyte 3 (by decide)
  rw [Slot.Shown, wordAt, h0, h1, h2, h3]
  rfl

theorem StackAt.of_append {other : List Slot}
    (h : StackAt m a (slots ++ other)) : StackAt m a slots := by
  induction slots generalizing a with
  | nil => trivial
  | cons slot slots ih => exact ⟨h.1, ih h.2⟩

theorem StackAt.append {other : List Slot} (h : StackAt m a slots)
    (h' : StackAt m (a + BitVec.ofNat 32 (4 * slots.length)) other) :
    StackAt m a (slots ++ other) := by
  induction slots generalizing a with
  | nil =>
      rw [List.length_nil, Nat.mul_zero, BitVec.add_zero] at h'
      exact h'
  | cons slot slots ih =>
      refine ⟨h.1, ih h.2 ?_⟩
      rwa [List.length_cons, Nat.mul_succ, Nat.add_comm, BitVec.ofNat_add,
        ← BitVec.add_assoc] at h'

end WordStack
