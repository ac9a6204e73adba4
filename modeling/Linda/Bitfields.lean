/-
Bit-fields packed into a number, the first in the lowest bits, and 64-bit
numbers in a byte memory.
-/
import Linda.ByteMemory
import Mathlib.Data.List.Basic

namespace Bitfields

open ByteMemory

/-- The fields, each of a width and with a value that is cut to it. -/
def pack : List (Nat × Nat) → Nat
  | [] => 0
  | (width, value) :: fields =>
      value % 2 ^ width + 2 ^ width * pack fields

def width (fields : List (Nat × Nat)) : Nat := (fields.map Prod.fst).sum

/-- `n` bits from bit `lo` on. -/
def bitsFrom (lo n bits : Nat) : Nat := bits / 2 ^ lo % 2 ^ n

theorem pack_lt (fields : List (Nat × Nat)) : pack fields < 2 ^ width fields := by
  induction fields with
  | nil => exact Nat.one_pos
  | cons field fields ih =>
      obtain ⟨w, value⟩ := field
      have hlow : value % 2 ^ w < 2 ^ w := Nat.mod_lt _ (Nat.two_pow_pos w)
      have hwidth : width ((w, value) :: fields) = w + width fields := by
        rw [width, List.map_cons, List.sum_cons, width]
      rw [pack, hwidth, Nat.pow_add]
      calc value % 2 ^ w + 2 ^ w * pack fields
          < 2 ^ w + 2 ^ w * pack fields := Nat.add_lt_add_right hlow _
        _ = 2 ^ w * (pack fields + 1) := by rw [Nat.mul_add, Nat.mul_one, Nat.add_comm]
        _ ≤ 2 ^ w * 2 ^ width fields := Nat.mul_le_mul_left _ ih

/-- A field is read back from where it was packed. -/
theorem bitsFrom_pack (before after : List (Nat × Nat)) (w value : Nat) :
    bitsFrom (width before) w (pack (before ++ (w, value) :: after)) =
      value % 2 ^ w := by
  induction before with
  | nil =>
      have hzero : width [] = 0 := rfl
      rw [List.nil_append, pack, bitsFrom, hzero, Nat.pow_zero, Nat.div_one,
        Nat.add_mul_mod_self_left, Nat.mod_mod]
  | cons field before ih =>
      obtain ⟨w', value'⟩ := field
      have hlow : value' % 2 ^ w' / 2 ^ w' = 0 :=
        Nat.div_eq_of_lt (Nat.mod_lt _ (Nat.two_pow_pos w'))
      have hwidth : width ((w', value') :: before) = w' + width before := by
        rw [width, List.map_cons, List.sum_cons, width]
      rw [List.cons_append, pack, bitsFrom, hwidth, Nat.pow_add,
        ← Nat.div_div_eq_div_mul, Nat.add_mul_div_left _ _ (Nat.two_pow_pos w'),
        hlow, Nat.zero_add]
      exact ih

/-- The same by the place in the list. -/
theorem bitsFrom_get {fields : List (Nat × Nat)} {lo w value : Nat} (i : Nat)
    (hfield : fields[i]? = some (w, value)) (hlo : width (fields.take i) = lo) :
    bitsFrom lo w (pack fields) = value % 2 ^ w := by
  obtain ⟨hi, hget⟩ := List.getElem?_eq_some_iff.mp hfield
  have hsplit : fields = fields.take i ++ (w, value) :: fields.drop (i + 1) := by
    rw [← hget, List.getElem_cons_drop, List.take_append_drop]
  have hpacked := bitsFrom_pack (fields.take i) (fields.drop (i + 1)) w value
  rwa [hlo, ← hsplit] at hpacked

def load64 (m : Memory) (a : Nat) : Nat :=
  load32 m a + 4294967296 * load32 m (a + 4)

def store64 (m : Memory) (a bits : Nat) : Memory :=
  store32 (store32 m a bits) (a + 4) (bits / 4294967296)

theorem load64_store64_same (m : Memory) {a bits : Nat} (h : bits < 2 ^ 64) :
    load64 (store64 m a bits) a = bits := by
  rw [load64, store64, load32_store32_of_disjoint _ _ (.inl (by omega)),
    load32_store32_same, load32_store32_same]
  omega

theorem store64_of_outside (m : Memory) {a bits x : Nat}
    (h : x < a ∨ a + 8 ≤ x) : store64 m a bits x = m x := by
  rw [store64, store32_of_outside _ _ (by omega),
    store32_of_outside _ _ (by omega)]

theorem load64_congr {m m' : Memory} {a : Nat}
    (h : ∀ x, a ≤ x → x < a + 8 → m' x = m x) : load64 m' a = load64 m a := by
  rw [load64, load64, load32_congr fun x hx hx' => h x hx (by omega),
    load32_congr fun x hx hx' => h x (by omega) (by omega)]

/-- Numbers stored one after the other from `a` on. -/
def storeAll (a : Nat) (f : Nat → Nat) (n : Nat) (m : Memory) : Memory :=
  (List.range n).foldl (fun m i => store64 m (a + 8 * i) (f i)) m

theorem storeAll_succ (a : Nat) (f : Nat → Nat) (n : Nat) (m : Memory) :
    storeAll a f (n + 1) m = store64 (storeAll a f n m) (a + 8 * n) (f n) := by
  rw [storeAll, List.range_succ, List.foldl_append]
  rfl

theorem load64_storeAll (m : Memory) {a n i : Nat} {f : Nat → Nat}
    (hf : ∀ i, f i < 2 ^ 64) (hi : i < n) :
    load64 (storeAll a f n m) (a + 8 * i) = f i := by
  induction n with
  | zero => omega
  | succ n ih =>
      rw [storeAll_succ]
      by_cases hlast : i = n
      · rw [hlast, load64_store64_same _ (hf n)]
      · have hrest : load64 (storeAll a f n m) (a + 8 * i) = f i :=
          ih (by omega)
        rw [← hrest]
        exact load64_congr fun x hx hx' => store64_of_outside _ (by omega)

/-- The low 16 bits of `v`, lowest byte first. -/
def store16 (m : Memory) (a v : Nat) : Memory :=
  store8 (store8 m a (UInt8.ofNat v)) (a + 1) (UInt8.ofNat (v / 256))

theorem store16_of_outside (m : Memory) {a v x : Nat}
    (h : x < a ∨ a + 2 ≤ x) : store16 m a v x = m x := by
  rw [store16, store8_of_ne _ _ (by omega), store8_of_ne _ _ (by omega)]

/-- A half read as the low part of a word. -/
theorem load32_store16_mod (m : Memory) (a v : Nat) :
    load32 (store16 m a v) a % 65536 = v % 65536 := by
  have hlow : store16 m a v a = UInt8.ofNat v := by
    rw [store16, store8_of_ne _ _ (by omega), store8_same]
  have hhigh : store16 m a v (a + 1) = UInt8.ofNat (v / 256) := by
    rw [store16, store8_same]
  rw [load32, hlow, hhigh, UInt8.toNat_ofNat', UInt8.toNat_ofNat']
  omega

end Bitfields
