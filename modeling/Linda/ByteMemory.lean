/-
A byte-addressed memory with little-endian 32-bit words.  Every word access is
four byte accesses, so a word may overlap anything; the frame lemmas say when
it does not.
-/
import Mathlib.Data.Set.Function
import Mathlib.Order.Interval.Set.Defs
import Mathlib.Tactic.IntervalCases

namespace ByteMemory

/-- The contents of an address space, one byte per address. -/
abbrev Memory := Nat → UInt8

def load32 (m : Memory) (a : Nat) : Nat :=
  (m a).toNat + 256 * (m (a + 1)).toNat + 65536 * (m (a + 2)).toNat +
    16777216 * (m (a + 3)).toNat

def store8 (m : Memory) (a : Nat) (b : UInt8) : Memory :=
  fun x => if x = a then b else m x

/-- Store the low 32 bits of `v`, lowest byte first. -/
def store32 (m : Memory) (a v : Nat) : Memory :=
  fun x =>
    if x = a then UInt8.ofNat v
    else if x = a + 1 then UInt8.ofNat (v / 256)
    else if x = a + 2 then UInt8.ofNat (v / 65536)
    else if x = a + 3 then UInt8.ofNat (v / 16777216)
    else m x

/-- Write `b` over the `n` bytes from `a` on. -/
def fill (m : Memory) (a n : Nat) (b : UInt8) : Memory :=
  fun x => if a ≤ x ∧ x < a + n then b else m x

/-- `n` bytes copied from `src` to `dst`. -/
def copied (m : Memory) (dst src n : Nat) : Memory :=
  fun x => if dst ≤ x ∧ x < dst + n then m (src + (x - dst)) else m x

theorem copied_of_outside (m : Memory) {dst n x : Nat} (src : Nat)
    (h : x < dst ∨ dst + n ≤ x) : copied m dst src n x = m x :=
  if_neg (by omega)

theorem copied_zero (m : Memory) (dst src : Nat) : copied m dst src 0 = m :=
  funext fun _ => copied_of_outside m src (by omega)

/-- The last byte copied first. -/
theorem copied_store8 {m : Memory} {dst src n : Nat} (h : src + n ≤ dst) :
    copied (store8 m (dst + n) (m (src + n))) dst src n =
      copied m dst src (n + 1) := by
  funext x
  simp only [copied, store8]
  by_cases hlast : x = dst + n
  · have hn : dst + n - dst = n := by omega
    rw [hlast, if_neg (by omega), if_pos rfl, if_pos (by omega), hn]
  · by_cases hin : dst ≤ x ∧ x < dst + n
    · rw [if_pos hin, if_neg (by omega), if_pos (by omega)]
    · rw [if_neg hin, if_neg hlast, if_neg (by omega)]

theorem load32_lt (m : Memory) (a : Nat) : load32 m a < 4294967296 := by
  have h0 := (m a).toNat_lt
  have h1 := (m (a + 1)).toNat_lt
  have h2 := (m (a + 2)).toNat_lt
  have h3 := (m (a + 3)).toNat_lt
  unfold load32
  omega

theorem load32_congr {m m' : Memory} {a : Nat}
    (h : ∀ x, a ≤ x → x < a + 4 → m' x = m x) : load32 m' a = load32 m a := by
  simp only [load32, h a (by omega) (by omega), h (a + 1) (by omega) (by omega),
    h (a + 2) (by omega) (by omega), h (a + 3) (by omega) (by omega)]

@[simp] theorem load32_store32_same (m : Memory) (a v : Nat) :
    load32 (store32 m a v) a = v % 4294967296 := by
  simp [load32, store32]
  omega

@[simp] theorem store8_same (m : Memory) (a : Nat) (b : UInt8) :
    store8 m a b a = b := by
  simp [store8]

theorem store8_of_ne (m : Memory) {a x : Nat} (b : UInt8) (h : x ≠ a) :
    store8 m a b x = m x := by
  simp [store8, h]

theorem store32_of_outside (m : Memory) {a x : Nat} (v : Nat)
    (h : x < a ∨ a + 4 ≤ x) : store32 m a v x = m x := by
  have h0 : x ≠ a := by omega
  have h1 : x ≠ a + 1 := by omega
  have h2 : x ≠ a + 2 := by omega
  have h3 : x ≠ a + 3 := by omega
  simp [store32, h0, h1, h2, h3]

theorem fill_of_inside (m : Memory) {a n x : Nat} (b : UInt8)
    (h : a ≤ x ∧ x < a + n) : fill m a n b x = b := by
  simp [fill, h]

theorem fill_of_outside (m : Memory) {a n x : Nat} (b : UInt8)
    (h : x < a ∨ a + n ≤ x) : fill m a n b x = m x := by
  have hnot : ¬ (a ≤ x ∧ x < a + n) := by omega
  simp [fill, hnot]

theorem load32_store32_of_disjoint (m : Memory) {a b : Nat} (v : Nat)
    (h : b + 4 ≤ a ∨ a + 4 ≤ b) : load32 (store32 m a v) b = load32 m b :=
  load32_congr fun x _ _ => store32_of_outside m v (by omega)

theorem load32_store8_of_disjoint (m : Memory) {a b : Nat} (v : UInt8)
    (h : b + 4 ≤ a ∨ a < b) : load32 (store8 m a v) b = load32 m b :=
  load32_congr fun x _ _ => store8_of_ne m v (by omega)

theorem load32_fill_of_disjoint (m : Memory) {a n b : Nat} (v : UInt8)
    (h : b + 4 ≤ a ∨ a + n ≤ b) : load32 (fill m a n v) b = load32 m b :=
  load32_congr fun x _ _ => fill_of_outside m v (by omega)

theorem load32_eq_zero {m : Memory} {a : Nat}
    (h : ∀ x, a ≤ x → x < a + 4 → m x = 0) : load32 m a = 0 := by
  simp [load32, h a (by omega) (by omega), h (a + 1) (by omega) (by omega),
    h (a + 2) (by omega) (by omega), h (a + 3) (by omega) (by omega)]

theorem load32_fill_zero (m : Memory) {a n b : Nat}
    (h : a ≤ b ∧ b + 4 ≤ a + n) : load32 (fill m a n 0) b = 0 :=
  load32_eq_zero fun x _ _ => fill_of_inside m 0 (by omega)

/-- The bytes of a word. -/
theorem byte_eq_load32 (m : Memory) (a : Nat) {j : Nat} (hj : j < 4) :
    m (a + j) = UInt8.ofNat (load32 m a / 256 ^ j) := by
  have h0 := (m a).toNat_lt
  have h1 := (m (a + 1)).toNat_lt
  have h2 := (m (a + 2)).toNat_lt
  have h3 := (m (a + 3)).toNat_lt
  rw [← UInt8.toNat_inj, UInt8.toNat_ofNat', load32]
  interval_cases j <;> simp <;> omega

theorem load32_of_bytes {m : Memory} {a w : Nat} (hw : w < 4294967296)
    (h : ∀ j < 4, m (a + j) = UInt8.ofNat (w / 256 ^ j)) : load32 m a = w := by
  have h0 := h 0 (by decide)
  have h1 := h 1 (by decide)
  have h2 := h 2 (by decide)
  have h3 := h 3 (by decide)
  rw [Nat.add_zero] at h0
  simp only [load32, h0, h1, h2, h3, UInt8.toNat_ofNat', Nat.pow_zero, Nat.div_one]
  omega

/-- Storing zero over a zero word. -/
theorem store32_zero {m : Memory} {a : Nat} (h : load32 m a = 0) :
    store32 m a 0 = m := by
  have hbytes : m a = 0 ∧ m (a + 1) = 0 ∧ m (a + 2) = 0 ∧ m (a + 3) = 0 := by
    simp only [← UInt8.toNat_inj]
    unfold load32 at h
    simp only [UInt8.toNat_zero]
    omega
  obtain ⟨h₀, h₁, h₂, h₃⟩ := hbytes
  funext x
  simp only [store32]
  split_ifs with hx₀ hx₁ hx₂ hx₃
  · rw [hx₀, h₀]
    rfl
  · rw [hx₁, h₁]
    rfl
  · rw [hx₂, h₂]
    rfl
  · rw [hx₃, h₃]
    rfl
  · rfl

/-- A word read and stored is four bytes copied. -/
theorem store32_load32 (m : Memory) (dst src : Nat) :
    store32 m dst (load32 m src) = copied m dst src 4 := by
  have hbyte : ∀ j < 4, UInt8.ofNat (load32 m src / 256 ^ j) = m (src + j) :=
    fun j hj => (byte_eq_load32 m src hj).symm
  funext x
  by_cases hin : dst ≤ x ∧ x < dst + 4
  · obtain ⟨j, hj, rfl⟩ : ∃ j < 4, x = dst + j := ⟨x - dst, by omega, by omega⟩
    rw [copied, if_pos hin, Nat.add_sub_cancel_left, ← hbyte j hj]
    interval_cases j <;> simp [store32]
  · rw [store32_of_outside _ _ (by omega), copied_of_outside _ _ (by omega)]

/-- Two copies side by side. -/
theorem copied_copied (m : Memory) {dst src n n' : Nat}
    (h : src + (n + n') ≤ dst ∨ dst + (n + n') ≤ src) :
    copied (copied m dst src n) (dst + n) (src + n) n' =
      copied m dst src (n + n') := by
  funext x
  simp only [copied]
  split_ifs <;> first | omega | rfl | skip
  have hx : src + n + (x - (dst + n)) = src + (x - dst) := by omega
  rw [hx]

theorem load32_copied (m : Memory) {dst src n i : Nat} (hi : i + 4 ≤ n) :
    load32 (copied m dst src n) (dst + i) = load32 m (src + i) := by
  have hbyte : ∀ j < 4, copied m dst src n (dst + i + j) = m (src + i + j) := by
    intro j hj
    have hin : dst ≤ dst + i + j ∧ dst + i + j < dst + n := by omega
    have hx : src + (dst + i + j - dst) = src + i + j := by omega
    rw [copied, if_pos hin, hx]
  have h₀ := hbyte 0 (by decide)
  rw [Nat.add_zero, Nat.add_zero] at h₀
  simp only [load32, h₀, hbyte 1 (by decide), hbyte 2 (by decide),
    hbyte 3 (by decide)]

end ByteMemory
