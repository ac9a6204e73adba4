/-
`number` of kprintf.c loop by loop: its counters are machine integers and its
digits go through the array `tmp`, as in the listing of linda.asm.
-/
import Linda.FuelLoop
import Linda.PrintfLength

namespace Linda

open FuelLoop

/-- `overrun` is an access of `tmp` outside it, `spin` a loop that outran its
fuel. -/
inductive NumberHalt where
  | spin
  | overrun
deriving Repr, DecidableEq

def tmpSize : Nat := 66

/-- `tmp[i] = c` -/
def setTmp (tmp : Nat → UInt8) (i : Nat) (c : UInt8) :
    Except NumberHalt (Nat → UInt8) :=
  if i < tmpSize then .ok fun j => if j = i then c else tmp j
  else .error .overrun

/-- `tmp[i]` -/
def getTmp (tmp : Nat → UInt8) (i : Nat) : Except NumberHalt UInt8 :=
  if i < tmpSize then .ok (tmp i) else .error .overrun

/-- `do_div`: the remainder, and what is left of `n`. -/
def doDiv (n : UInt32) (base : Nat) : Nat × UInt32 :=
  (n.toNat % base, UInt32.ofNat (n.toNat / base))

/-- `num` and `tmp`, whose first `i` places are filled. -/
structure DigitState where
  num : UInt32
  i : Nat
  tmp : Nat → UInt8

/-- `while (num != 0) tmp[i++] = digits[do_div(num,base)];` -/
def digitsBody (large : Bool) (base : Nat) (s : DigitState) :
    Except NumberHalt (DigitState ⊕ DigitState) :=
  if s.num ≠ 0 then do
    let (d, num) := doDiv s.num base
    let tmp ← setTmp s.tmp s.i (digit large d)
    .ok (.inl ⟨num, s.i + 1, tmp⟩)
  else .ok (.inr s)

/-- A counter and what has been written to `str`. -/
structure Counted where
  count : Int32
  str : List UInt8

/-- `while (size-- > 0) *str++ = c;` -/
def padBody (c : UInt8) (s : Counted) : Except NumberHalt (Counted ⊕ Counted) :=
  if 0 < s.count then .ok (.inl ⟨s.count - 1, s.str ++ [c]⟩)
  else .ok (.inr ⟨s.count - 1, s.str⟩)

/-- `while (i < precision--) *str++ = '0';` -/
def zerosBody (i : Nat) (s : Counted) : Except NumberHalt (Counted ⊕ Counted) :=
  if (i : Int) < s.count.toInt then .ok (.inl ⟨s.count - 1, s.str ++ [0x30]⟩)
  else .ok (.inr ⟨s.count - 1, s.str⟩)

/-- `while (i-- > 0) *str++ = tmp[i];` -/
def copyBody (tmp : Nat → UInt8) :
    Nat × List UInt8 → Except NumberHalt ((Nat × List UInt8) ⊕ List UInt8)
  | (0, str) => .ok (.inr str)
  | (i + 1, str) => do
      let c ← getTmp tmp i
      .ok (.inl (i, str ++ [c]))

/-- `sign`, 0 being none, with `num` and `size` as the branch leaves them. -/
def takeSign (type : Flags) (num : UInt32) (size : Int32) :
    Option UInt8 × UInt32 × Int32 :=
  if type.sign then
    if asInt num < 0 then (some 0x2D, -num, size - 1)
    else if type.plus then (some 0x2B, num, size - 1)
    else if type.space then (some 0x20, num, size - 1)
    else (none, num, size)
  else (none, num, size)

/-- `size` without the columns of the prefix. -/
def takeMark (type : Flags) (base : Nat) (size : Int32) : Int32 :=
  if type.special then
    if base = 16 then size - 2 else if base = 8 then size - 1 else size
  else size

/-- The digits in `tmp`, whatever was in it. -/
def fillTmp (fuel : Nat) (large : Bool) (base : Nat) (num : UInt32)
    (tmp : Nat → UInt8) : Except NumberHalt DigitState :=
  if num = 0 then do
    let tmp ← setTmp tmp 0 0x30
    .ok ⟨num, 1, tmp⟩
  else loop .spin (digitsBody large base) fuel ⟨num, 0, tmp⟩

/-- The loop of `padBody`, unless the flags leave it out. -/
def padUnless (left : Bool) (c : UInt8) (fuel : Nat) (s : Counted) :
    Except NumberHalt Counted :=
  if left then .ok s else loop .spin (padBody c) fuel s

/-- `number` from `if (i > precision)` on: the padding, the sign, the prefix and
the digits go to `str`. -/
def writeNumber (fuel : Nat) (type : Flags) (base : Nat) (sign : Option UInt8)
    (digits : DigitState) (size precision : Int32) :
    Except NumberHalt (List UInt8) := do
  let c : UInt8 := if type.zeropad then 0x30 else 0x20
  let precision :=
    if precision.toInt < digits.i then Int32.ofNat digits.i else precision
  let size := size - precision
  let s ← padUnless (type.zeropad || type.left) 0x20 fuel ⟨size, []⟩
  let str := s.str ++ sign.toList ++ baseMark type base
  let s ← padUnless type.left c fuel ⟨s.count, str⟩
  let zeros ← loop .spin (zerosBody digits.i) fuel ⟨precision, s.str⟩
  let str ← loop .spin (copyBody digits.tmp) fuel (digits.i, zeros.str)
  let s ← loop .spin (padBody 0x20) fuel ⟨s.count, str⟩
  .ok s.str

/-- `number`, with what it writes to `str`; `stack` is what `tmp` holds before,
and the answer none the null pointer. -/
def numberLoops (fuel : Nat) (stack : Nat → UInt8) (num : UInt32) (base : Nat)
    (size precision : Int32) (type : Flags) :
    Except NumberHalt (Option (List UInt8)) := do
  let type := clearZeropad type
  if base < 2 ∨ 36 < base then .ok none
  else do
    let (sign, num, size) := takeSign type num size
    let size := takeMark type base size
    let digits ← fillTmp fuel type.large base num stack
    let str ← writeNumber fuel type base sign digits size precision
    .ok (some str)

section Loops

theorem int32_sub_one {n : Int32} (h : -2147483648 < n.toInt) :
    (n - 1).toInt = n.toInt - 1 := by
  have hlo := n.le_toInt
  have hhi := n.toInt_lt
  have hone : (1 : Int32).toInt = 1 := rfl
  rw [Int32.toInt_sub, hone, Int.bmod_def]
  split_ifs <;> omega

theorem int32_pos_iff (n : Int32) : 0 < n ↔ 0 < n.toInt := by
  rw [Int32.lt_iff_toInt_lt, Int32.toInt_zero]

/-- Both ends of a loop that goes on. -/
theorem passed_pred {size : Int32} (hgoes : 0 < size) :
    passed 0 (size - 1) = passed 0 size := by
  have hpos := (int32_pos_iff size).mp hgoes
  rw [passed, passed, if_pos hgoes]
  by_cases hmore : 0 < size - 1
  · exact if_pos hmore
  · rw [if_neg hmore]
    rw [int32_pos_iff, int32_sub_one (by omega)] at hmore
    have hone : size.toInt = (1 : Int32).toInt := by
      have h1 : (1 : Int32).toInt = 1 := rfl
      omega
    obtain rfl := Int32.toInt_inj.mp hone
    rfl

theorem pad_pos (c : UInt8) {n : Int} (hn : 0 < n) :
    pad c n = c :: pad c (n - 1) := by
  have hsucc : n.toNat = (n - 1).toNat + 1 := by omega
  rw [pad, pad, hsucc, List.replicate_succ]

theorem pad_nonpos (c : UInt8) {n : Int} (hn : n ≤ 0) : pad c n = [] := by
  rw [pad, Int.toNat_of_nonpos hn, List.replicate_zero]

theorem padBody_runs (c : UInt8) (size : Int32) (str : List UInt8) :
    Runs NumberHalt.spin (fun _ => padBody c) ⟨size, str⟩
      (.ok ⟨passed 0 size, str ++ pad c size.toInt⟩) := by
  generalize hn : size.toInt.toNat = n
  induction n generalizing size str with
  | zero =>
      have hdone : ¬ 0 < size := by
        rw [int32_pos_iff]
        omega
      refine Runs.exit ?_
      rw [pad_nonpos c (by omega), passed, if_neg hdone, List.append_nil]
      simp only [padBody, hdone, ↓reduceIte]
      exact settles_const _
  | succ n ih =>
      have hgoes : 0 < size := by
        rw [int32_pos_iff]
        omega
      have hpred := int32_sub_one (n := size) (by omega)
      have hrest := ih (size - 1) (str ++ [c]) (by omega)
      rw [passed_pred hgoes, hpred, List.append_assoc, List.singleton_append,
        ← pad_pos c (by omega)] at hrest
      refine Runs.next ?_ hrest
      simp only [padBody, hgoes, ↓reduceIte]
      exact settles_const _

/-- The zeros of the precision; the counter stays above `i`. -/
theorem zerosBody_runs (i : Nat) (precision : Int32) (str : List UInt8) :
    ∃ left, Runs NumberHalt.spin (fun _ => zerosBody i) ⟨precision, str⟩
      (.ok ⟨left, str ++ pad 0x30 (precision.toInt - i)⟩) := by
  generalize hn : (precision.toInt - i).toNat = n
  induction n generalizing precision str with
  | zero =>
      have hdone : ¬ (i : Int) < precision.toInt := by omega
      refine ⟨precision - 1, Runs.exit ?_⟩
      rw [pad_nonpos 0x30 (by omega), List.append_nil]
      simp only [zerosBody, hdone, ↓reduceIte]
      exact settles_const _
  | succ n ih =>
      have hgoes : (i : Int) < precision.toInt := by omega
      have hpred := int32_sub_one (n := precision) (by omega)
      have hcount : precision.toInt - 1 - i = precision.toInt - i - 1 := by omega
      obtain ⟨left, hrest⟩ := ih (precision - 1) (str ++ [0x30]) (by omega)
      rw [hpred, hcount, List.append_assoc, List.singleton_append,
        ← pad_pos 0x30 (by omega)] at hrest
      refine ⟨left, Runs.next ?_ hrest⟩
      simp only [zerosBody, hgoes, ↓reduceIte]
      exact settles_const _

/-- What stands in `tmp`, read from the back. -/
theorem copyBody_runs (tmp : Nat → UInt8) {i : Nat} (hi : i ≤ tmpSize)
    (str : List UInt8) :
    Runs NumberHalt.spin (fun _ => copyBody tmp) (i, str)
      (.ok (str ++ ((List.range i).map tmp).reverse)) := by
  induction i generalizing str with
  | zero =>
      refine Runs.exit ?_
      simp only [copyBody, List.range_zero, List.map_nil, List.reverse_nil,
        List.append_nil]
      exact settles_const _
  | succ i ih =>
      have hget : getTmp tmp i = .ok (tmp i) := if_pos (by omega)
      have hlast : ((List.range (i + 1)).map tmp).reverse =
          tmp i :: ((List.range i).map tmp).reverse := by
        rw [List.range_succ, List.map_append, List.reverse_append]
        rfl
      have hrest := ih (by omega) (str ++ [tmp i])
      rw [List.append_assoc, List.singleton_append, ← hlast] at hrest
      refine Runs.next ?_ hrest
      simp only [copyBody, hget, ok_bind]
      exact settles_const _

theorem map_range_set (tmp : Nat → UInt8) (i : Nat) (c : UInt8) :
    (List.range (i + 1)).map (fun j => if j = i then c else tmp j) =
      (List.range i).map tmp ++ [c] := by
  rw [List.range_succ, List.map_append, List.map_singleton, if_pos rfl]
  congr 1
  refine List.map_congr_left fun j hj => if_neg ?_
  have hlt := List.mem_range.mp hj
  omega

/-- The digits, the lowest first, behind the `i` places already filled. -/
theorem digitsBody_runs (large : Bool) {base : Nat} (hbase : 1 < base)
    (num : UInt32) (i : Nat) (tmp : Nat → UInt8)
    (hroom : i + (Nat.digits base num.toNat).length ≤ tmpSize) :
    ∃ tmp', Runs NumberHalt.spin (fun _ => digitsBody large base) ⟨num, i, tmp⟩
        (.ok ⟨0, i + (Nat.digits base num.toNat).length, tmp'⟩) ∧
      (List.range (i + (Nat.digits base num.toNat).length)).map tmp' =
        (List.range i).map tmp ++
          (Nat.digits base num.toNat).map (digit large) := by
  generalize hn : (Nat.digits base num.toNat).length = n at hroom ⊢
  induction n generalizing num i tmp with
  | zero =>
      have hnil := List.eq_nil_of_length_eq_zero hn
      have hzero : num = 0 := by
        rw [← UInt32.toNat_inj]
        exact Nat.digits_eq_nil_iff_eq_zero.mp hnil
      subst hzero
      refine ⟨tmp, Runs.exit ?_, ?_⟩
      · simp only [digitsBody, ne_eq, not_true_eq_false, ↓reduceIte,
          Nat.add_zero]
        exact settles_const _
      · rw [hnil, List.map_nil, List.append_nil, Nat.add_zero]
  | succ n ih =>
      have hne : num ≠ 0 := by
        rintro rfl
        rw [UInt32.toNat_zero, Nat.digits_zero] at hn
        cases hn
      have hpos : 0 < num.toNat := by
        rw [Nat.pos_iff_ne_zero]
        exact fun h0 => hne (UInt32.toNat_inj.mp h0)
      have hlt := num.toNat_lt
      have hdiv : (UInt32.ofNat (num.toNat / base)).toNat = num.toNat / base :=
        UInt32.toNat_ofNat_of_lt' ((Nat.div_le_self _ _).trans_lt hlt)
      have hdigits := Nat.digits_def' hbase hpos
      rw [hdigits, List.length_cons] at hn
      have hset : setTmp tmp i (digit large (num.toNat % base)) =
          .ok fun j => if j = i then digit large (num.toNat % base) else tmp j :=
        if_pos (by omega)
      obtain ⟨tmp', hrest, htmp⟩ := ih (UInt32.ofNat (num.toNat / base)) (i + 1)
        (fun j => if j = i then digit large (num.toNat % base) else tmp j)
        (by rw [hdiv]; omega) (by omega)
      have hi : i + 1 + n = i + (n + 1) := by omega
      rw [hi] at hrest htmp
      refine ⟨tmp', Runs.next ?_ hrest, ?_⟩
      · simp only [digitsBody, ne_eq, hne, not_false_eq_true, ↓reduceIte, doDiv,
          hset, ok_bind]
        exact settles_const _
      · rw [htmp, map_range_set, hdiv, hdigits, List.map_cons,
          List.append_assoc, List.singleton_append]

/-- `tmp` holds the digits and is never overrun. -/
theorem fillTmp_settles (large : Bool) {base : Nat} (hbase : 1 < base)
    (num : UInt32) (stack : Nat → UInt8) :
    ∃ digits, Settles (fun fuel => fillTmp fuel large base num stack)
        (.ok digits) ∧
      digits.i ≤ 32 ∧
      (List.range digits.i).map digits.tmp = tmpDigits large base num.toNat := by
  by_cases hzero : num = 0
  · subst hzero
    have hset : setTmp stack 0 0x30 = .ok fun j => if j = 0 then 0x30 else stack j :=
      rfl
    refine ⟨⟨0, 1, fun j => if j = 0 then 0x30 else stack j⟩, ?_,
      show 1 ≤ 32 by decide,
      map_range_set stack 0 0x30⟩
    simp only [fillTmp, ↓reduceIte, hset, ok_bind]
    exact settles_const _
  · have hpow : num.toNat < base ^ 32 :=
      num.toNat_lt.trans_le (Nat.pow_le_pow_left hbase 32)
    have hlength := (Nat.digits_length_le_iff hbase num.toNat).mpr hpow
    obtain ⟨tmp, hruns, htmp⟩ := digitsBody_runs large hbase num 0 stack
      (by rw [tmpSize]; omega)
    have hne : num.toNat ≠ 0 := fun h0 => hzero (UInt32.toNat_inj.mp h0)
    rw [Nat.zero_add] at hruns htmp
    refine ⟨⟨0, (Nat.digits base num.toNat).length, tmp⟩, ?_, hlength, ?_⟩
    · simp only [fillTmp, hzero, ↓reduceIte]
      exact hruns.settles
    · rw [tmpDigits, if_neg hne, divDigits_eq hbase 32 _ hpow]
      exact htmp

end Loops

section Writing

theorem padUnless_settles (left : Bool) (c : UInt8) (s : Counted) :
    Settles (fun fuel => padUnless left c fuel s)
      (.ok ⟨if left then s.count else passed 0 s.count,
        s.str ++ if left then [] else pad c s.count.toInt⟩) := by
  cases left with
  | true =>
      simp only [padUnless, ↓reduceIte, List.append_nil]
      exact settles_const _
  | false =>
      simp only [padUnless, Bool.false_eq_true, ↓reduceIte]
      exact (padBody_runs c s.count s.str).settles

theorem writeNumber_settles (type : Flags) (base : Nat) (sign : Option UInt8)
    {digits : DigitState} {tmp : List UInt8} (hi : digits.i ≤ tmpSize)
    (htmp : (List.range digits.i).map digits.tmp = tmp) (size precision : Int32) :
    Settles (fun fuel => writeNumber fuel type base sign digits size precision)
      (.ok (numberText type sign.toList (baseMark type base) tmp
        (if precision.toInt < tmp.length then Int32.ofNat tmp.length
          else precision).toInt
        (size - if precision.toInt < tmp.length then Int32.ofNat tmp.length
          else precision))) := by
  have hlength : tmp.length = digits.i := by
    rw [← htmp, List.length_map, List.length_range]
  simp only [hlength, writeNumber]
  generalize (if precision.toInt < digits.i then Int32.ofNat digits.i
    else precision) = raised
  refine (padUnless_settles _ 0x20 ⟨size - raised, []⟩).bind
    ((padUnless_settles _ _ _).bind ?_)
  obtain ⟨left, hzeros⟩ := zerosBody_runs digits.i raised _
  refine hzeros.settles.bind ((copyBody_runs digits.tmp hi _).settles.bind
    ((padBody_runs 0x20 _ _).settles.bind ?_))
  simp only [numberText, List.nil_append, htmp, hlength]
  exact settles_const _

end Writing

section Counting

variable (num : UInt32) (base : Nat) (size : Int32) (type : Flags)

theorem takeSign_eq :
    (takeSign type num size).1.toList = (signed type num).1 ∧
      (takeSign type num size).2.1.toNat = (signed type num).2 ∧
      (takeSign type num size).2.2 =
        size - Int32.ofNat (signed type num).1.length := by
  simp only [takeSign, signed]
  split_ifs
  all_goals
    first
    | exact ⟨rfl, rfl, rfl⟩
    | exact ⟨rfl, rfl, (Int32.sub_zero size).symm⟩

theorem takeMark_eq :
    takeMark type base size =
      size - Int32.ofNat (baseMark type base).length := by
  simp only [takeMark, baseMark]
  split_ifs with hspecial h16 h8 h8
  · omega
  · rfl
  · rfl
  · exact (Int32.sub_zero size).symm
  · exact (Int32.sub_zero size).symm

end Counting

/-- `number` always comes to an end within `tmp`, and has written these
characters. -/
theorem numberLoops_settles (stack : Nat → UInt8) (num : UInt32) (base : Nat)
    (size precision : Int32) (type : Flags) :
    Settles (fun fuel => numberLoops fuel stack num base size precision type)
      (.ok (number num base size precision type)) := by
  by_cases hbase : base < 2 ∨ 36 < base
  · simp only [numberLoops, number, hbase, ↓reduceIte]
    exact settles_const _
  obtain ⟨hsign, hnum, hsize⟩ := takeSign_eq num size (clearZeropad type)
  generalize htake : takeSign (clearZeropad type) num size = taken at hsign hnum hsize
  obtain ⟨sign, num', size'⟩ := taken
  dsimp only at hsign hnum hsize
  have hmark := takeMark_eq base size' (clearZeropad type)
  obtain ⟨digits, hfill, hi, htmp⟩ :=
    fillTmp_settles (clearZeropad type).large (show 1 < base by omega) num' stack
  rw [hnum] at htmp
  have hplaces : digits.i ≤ tmpSize := hi.trans (by decide)
  have hwrite := writeNumber_settles (clearZeropad type) base sign hplaces htmp
    (takeMark (clearZeropad type) base size') precision
  rw [hsign] at hwrite
  simp only [numberLoops, number, hbase, ↓reduceIte, htake, ← hsize, ← hmark]
  exact hfill.bind (hwrite.bind (settles_const _))

/-- The digit a character stands for. -/
def digitValue (c : UInt8) : Nat :=
  if c < 0x3A then c.toNat - 0x30
  else if c < 0x5B then c.toNat - 0x37
  else c.toNat - 0x57

/-- The number that digits give when they are read in a base. -/
def readDigits (base : Nat) (cs : List UInt8) : Nat :=
  cs.foldl (fun n c => n * base + digitValue c) 0

/-- The number that is to be shown, without its sign. -/
def magnitude (type : Flags) (num : UInt32) : Nat :=
  if type.sign then (asInt num).natAbs else num.toNat

/-- What `number` writes, in order. -/
structure NumberParts where
  left : List UInt8
  sign : List UInt8
  mark : List UInt8
  zeros : List UInt8
  digits : List UInt8
  right : List UInt8

def NumberParts.text (p : NumberParts) : List UInt8 :=
  p.left ++ p.sign ++ p.mark ++ p.zeros ++ p.digits ++ p.right

/-- The parts show the number in its base. -/
structure NumberParts.Shows (p : NumberParts) (num : UInt32) (base : Nat)
    (precision : Int) (type : Flags) : Prop where
  left : ∀ c ∈ p.left, c = 0x20
  sign : p.sign =
    if type.sign then
      if asInt num < 0 then [0x2D]
      else if type.plus then [0x2B]
      else if type.space then [0x20]
      else []
    else []
  mark : p.mark =
    if type.special then
      if base = 8 then [0x30]
      else if base = 16 then [0x30, if type.large then 0x58 else 0x78]
      else []
    else []
  zeros : ∀ c ∈ p.zeros, c = 0x30
  digits : ∀ c ∈ p.digits, ∃ d < base, c = digit type.large d
  count : p.digits.length = digitCount base (magnitude type num)
  value : readDigits base (p.zeros ++ p.digits) = magnitude type num
  precision : precision ≤ p.zeros.length + p.digits.length
  right : ∀ c ∈ p.right, c = 0x20

/-- A text that shows the number and is as long as the field, or as what it
shows where that is longer. -/
def FormatsNumber (num : UInt32) (base : Nat) (size precision : Int)
    (type : Flags) (text : List UInt8) : Prop :=
  ∃ p : NumberParts, p.text = text ∧ p.Shows num base precision type ∧
    (text.length : Int) = max size (p.sign.length + p.mark.length +
      max (p.digits.length : Int) precision)

/-- `size` goes below zero without going round: it is counted down once by
every padding loop that the flags leave in. -/
def CountsDown (type : Flags) (left : Int) : Prop :=
  -2147483648 + (if type.left then 0 else if type.zeropad then 1 else 2) ≤ left ∨
    left ≤ -4294967296

instance (type : Flags) (left : Int) : Decidable (CountsDown type left) :=
  inferInstanceAs (Decidable (_ ∨ _))

section Digits

variable {base : Nat}

theorem digitValue_digit (large : Bool) :
    ∀ d < 36, digitValue (digit large d) = d := by
  cases large <;> decide

theorem readDigits_reverse (cs : List UInt8) :
    readDigits base cs.reverse = Nat.ofDigits base (cs.map digitValue) := by
  rw [readDigits, List.foldl_reverse]
  induction cs with
  | nil => rfl
  | cons c cs ih =>
      rw [List.foldr_cons, ih, List.map_cons, Nat.ofDigits_cons, Nat.mul_comm,
        Nat.add_comm]

/-- Zeros in front change nothing. -/
theorem readDigits_zeros {zeros : List UInt8} (hzeros : ∀ c ∈ zeros, c = 0x30)
    (cs : List UInt8) : readDigits base (zeros ++ cs) = readDigits base cs := by
  induction zeros with
  | nil => rfl
  | cons c zeros ih =>
      obtain ⟨hc, htail⟩ := List.forall_mem_cons.mp hzeros
      have hzero : 0 * base + digitValue c = 0 := by
        rw [hc, Nat.zero_mul]
        rfl
      rw [readDigits, List.cons_append, List.foldl_cons, hzero]
      exact ih htail

theorem tmpDigits_value (large : Bool) (hlow : 2 ≤ base) (hhigh : base ≤ 36)
    {num : Nat} (hnum : num < 4294967296) :
    (∀ c ∈ tmpDigits large base num, ∃ d < base, c = digit large d) ∧
      Nat.ofDigits base ((tmpDigits large base num).map digitValue) = num := by
  by_cases hzero : num = 0
  · subst hzero
    refine ⟨fun c hc => ⟨0, by omega, ?_⟩, rfl⟩
    rw [List.mem_singleton.mp hc]
    rfl
  · have hpow : num < base ^ 32 :=
      hnum.trans_le (Nat.pow_le_pow_left hlow 32)
    rw [tmpDigits, if_neg hzero, divDigits_eq hlow 32 num hpow]
    have hlt : ∀ d ∈ Nat.digits base num, d < base := fun d hd =>
      Nat.digits_lt_base hlow hd
    refine ⟨fun c hc => ?_, ?_⟩
    · obtain ⟨d, hd, rfl⟩ := List.mem_map.mp hc
      exact ⟨d, hlt d hd, rfl⟩
    · have hsame : ((Nat.digits base num).map (digit large)).map digitValue =
          Nat.digits base num := by
        rw [List.map_map]
        refine (List.map_congr_left fun d hd => ?_).trans (List.map_id _)
        exact digitValue_digit large d ((hlt d hd).trans_le hhigh)
      rw [hsame, Nat.ofDigits_digits]

theorem signed_magnitude (type : Flags) (num : UInt32) :
    (signed type num).2 = magnitude type num := by
  have hlt := num.toNat_lt
  have hneg : 2147483648 ≤ num.toNat → (-num).toNat = 4294967296 - num.toNat := by
    intro hhigh
    have hword : UInt32.size = 4294967296 := rfl
    rw [UInt32.toNat_neg, hword]
    omega
  unfold signed magnitude asInt
  split_ifs <;> dsimp only <;> omega

end Digits

/-- The parts of a number when no counter goes round. -/
def numberParts (type : Flags) (sign mark tmp : List UInt8)
    (precision left : Int) : NumberParts where
  left := if type.zeropad || type.left then [] else pad 0x20 left
  sign := sign
  mark := mark
  zeros := (if type.zeropad && !type.left then pad 0x30 left else []) ++
    pad 0x30 (precision - tmp.length)
  digits := tmp.reverse
  right := if type.left then pad 0x20 left else []

section Padding

variable (type : Flags) {room : Int32} {left : Int}

theorem passed_toInt (size : Int32) :
    (passed 0 size).toInt =
      if 0 < size.toInt then -1
      else if size.toInt = -2147483648 then 2147483647
      else size.toInt - 1 := by
  have hlo := size.le_toInt
  rw [passed]
  by_cases hpos : 0 < size
  · rw [if_pos hpos, if_pos ((int32_pos_iff size).mp hpos)]
    rfl
  · rw [if_neg hpos, if_neg (fun h => hpos ((int32_pos_iff size).mpr h))]
    split_ifs with hlimit
    · have hone : (1 : Int32).toInt = 1 := rfl
      rw [Int32.toInt_sub, hlimit, hone]
      rfl
    · exact int32_sub_one (by omega)

section Room

variable (hroom : room.toInt = left.bmod 4294967296)
  (hlow : -4294967298 ≤ left) (hhigh : left < 2147483648)

include hroom hlow hhigh

theorem room_toInt :
    room.toInt = if left < -2147483648 then left + 4294967296 else left := by
  rw [hroom, Int.bmod_def]
  split_ifs <;> omega

/-- The padding fills what is left of the field, unless a counter went
round. -/
theorem paddings_eq_iff :
    paddings type room = max left 0 ↔ CountsDown type left := by
  have hleft := room_toInt hroom hlow hhigh
  have hfirst := passed_toInt room
  have hsecond := passed_toInt (passed 0 room)
  unfold paddings CountsDown
  cases type.left <;> cases type.zeropad
  all_goals
    simp only [Bool.false_eq_true, ↓reduceIte]
    split_ifs at hleft hfirst hsecond <;> omega

/-- The first padding loop fills the field, and no later one runs. -/
theorem countsDown_pads (hcounts : CountsDown type left) :
    (∀ c, pad c room.toInt = pad c left) ∧
      (type.left = false → ∀ c, pad c (passed 0 room).toInt = []) ∧
      (type.left = false → type.zeropad = false →
        ∀ c, pad c (passed 0 (passed 0 room)).toInt = []) := by
  have hleft := room_toInt hroom hlow hhigh
  have hfirst := passed_toInt room
  have hsecond := passed_toInt (passed 0 room)
  unfold CountsDown at hcounts
  refine ⟨fun c => ?_, fun hflag c => pad_nonpos c ?_,
    fun hflag hzeropad c => pad_nonpos c ?_⟩
  · have hsame : room.toInt.toNat = left.toNat := by
      split_ifs at hleft hcounts <;> omega
    rw [pad, pad, hsame]
  · simp only [hflag, Bool.false_eq_true, ↓reduceIte] at hcounts
    split_ifs at hleft hfirst hcounts <;> omega
  · simp only [hflag, hzeropad, Bool.false_eq_true, ↓reduceIte] at hcounts
    split_ifs at hleft hfirst hsecond <;> omega

theorem numberText_counts (hcounts : CountsDown type left)
    (sign mark tmp : List UInt8) (precision : Int) :
    numberText (clearZeropad type) sign mark tmp precision room =
      (numberParts type sign mark tmp precision left).text := by
  obtain ⟨hfirst, hsecond, hthird⟩ :=
    countsDown_pads type hroom hlow hhigh hcounts
  unfold numberText clearZeropad numberParts NumberParts.text
  cases hleft : type.left with
  | true =>
      simp only [Bool.or_true, Bool.not_true, Bool.and_false,
        Bool.false_eq_true, ↓reduceIte, hfirst, List.append_nil,
        List.nil_append]
  | false =>
      cases hzeropad : type.zeropad with
      | true =>
          simp only [hleft, hzeropad, Bool.true_or, Bool.not_false,
            Bool.and_true, Bool.false_eq_true, ↓reduceIte, hfirst,
            hsecond hleft, List.append_nil, List.nil_append, List.append_assoc]
      | false =>
          simp only [hleft, hzeropad, Bool.or_self, Bool.not_false,
            Bool.and_true, Bool.false_eq_true, ↓reduceIte, hfirst,
            hsecond hleft, hthird hleft hzeropad, List.append_nil,
            List.nil_append]

end Room

end Padding

section Formats

variable (stack : Nat → UInt8) (num : UInt32) {base : Nat}
  (size precision : Int32) (type : Flags)

theorem mem_pad {c d : UInt8} {n : Int} (h : d ∈ pad c n) : d = c :=
  List.eq_of_mem_replicate h

/-- `digits[33]` is the `x`. -/
theorem baseMark_eq (base : Nat) :
    baseMark type base =
      if type.special then
        if base = 8 then [0x30]
        else if base = 16 then [0x30, if type.large then 0x58 else 0x78]
        else []
      else [] := by
  have hmark : digit type.large 33 = if type.large then 0x58 else 0x78 := by
    cases type.large <;> rfl
  rw [baseMark, hmark]

theorem numberParts_shows (hlow : 2 ≤ base) (hhigh : base ≤ 36)
    (precision left : Int) :
    (numberParts type (signed type num).1 (baseMark type base)
      (tmpDigits type.large base (signed type num).2)
      (max precision (digitCount base (signed type num).2)) left).Shows
      num base precision type := by
  have hlt := signed_lt type num
  obtain ⟨hdigits, hvalue⟩ := tmpDigits_value type.large hlow hhigh hlt
  have hcount := signedDigits_length num type hlow
  have hzeros : ∀ c ∈ (numberParts type (signed type num).1
      (baseMark type base) (tmpDigits type.large base (signed type num).2)
      (max precision (digitCount base (signed type num).2)) left).zeros,
      c = 0x30 := by
    intro c hc
    rcases List.mem_append.mp hc with hc | hc
    · split_ifs at hc
      · exact mem_pad hc
      · cases hc
    · exact mem_pad hc
  constructor
  case left =>
    intro c hc
    simp only [numberParts] at hc
    split_ifs at hc
    · cases hc
    · exact mem_pad hc
  case sign =>
    simp only [numberParts, signed]
    split_ifs <;> rfl
  case mark => exact baseMark_eq type base
  case zeros => exact hzeros
  case digits =>
    intro c hc
    exact hdigits c (List.mem_reverse.mp hc)
  case count =>
    rw [← signed_magnitude]
    exact (List.length_reverse).trans hcount
  case value =>
    rw [readDigits_zeros hzeros, ← signed_magnitude]
    exact (readDigits_reverse _).trans hvalue
  case precision =>
    simp only [numberParts, List.length_append, pad_length, List.length_reverse,
      hcount]
    omega
  case right =>
    intro c hc
    simp only [numberParts] at hc
    split_ifs at hc
    · exact mem_pad hc
    · cases hc

theorem signed_length : (signed type num).1.length ≤ 1 := by
  unfold signed
  split_ifs <;> simp

theorem baseMark_length (base : Nat) : (baseMark type base).length ≤ 2 := by
  unfold baseMark
  split_ifs <;> simp

theorem columnsLeft_bounds (hlow : 2 ≤ base) :
    -4294967298 ≤ columnsLeft num base size.toInt precision.toInt type ∧
      columnsLeft num base size.toInt precision.toInt type < 2147483648 := by
  have hsign := signed_length num type
  have hmark := baseMark_length type base
  have hcount := digitCount_le hlow (signed_lt type num)
  have hpos : 1 ≤ digitCount base (signed type num).2 := le_max_left _ _
  have hsize := size.le_toInt
  have hsize' := size.toInt_lt
  have hprecision := precision.toInt_lt
  rw [columnsLeft]
  omega

/-- What is written has the length of the field when the counters count
down. -/
theorem formatsNumber_iff (hlow : 2 ≤ base) (hhigh : base ≤ 36) {room : Int32}
    (hroom : room.toInt =
      (columnsLeft num base size.toInt precision.toInt type).bmod 4294967296) :
    FormatsNumber num base size.toInt precision.toInt type
        (numberText (clearZeropad type) (signed type num).1 (baseMark type base)
          (tmpDigits type.large base (signed type num).2)
          (max precision.toInt (digitCount base (signed type num).2)) room) ↔
      CountsDown type
        (columnsLeft num base size.toInt precision.toInt type) := by
  obtain ⟨hleast, hmost⟩ := columnsLeft_bounds num size precision type hlow
  have hcount := signedDigits_length num type hlow
  have hfits : ((tmpDigits type.large base (signed type num).2).length : Int) ≤
      max precision.toInt (digitCount base (signed type num).2) := by omega
  have hlength := numberText_length type (signed type num).1
    (baseMark type base) hfits room
  have hpads := paddings_eq_iff type hroom hleast hmost
  have hleft : columnsLeft num base size.toInt precision.toInt type =
      size.toInt - (signed type num).1.length - (baseMark type base).length -
        max precision.toInt (digitCount base (signed type num).2) := rfl
  constructor
  · rintro ⟨p, -, hshows, htotal⟩
    have hsign : p.sign.length = (signed type num).1.length := by
      rw [hshows.sign, signed]
      split_ifs <;> rfl
    have hmark : p.mark.length = (baseMark type base).length := by
      rw [hshows.mark, baseMark_eq]
    rw [hlength, hsign, hmark, hshows.count, ← signed_magnitude] at htotal
    exact hpads.mp (by omega)
  · intro hcounts
    refine ⟨_, (numberText_counts type hroom hleast hmost hcounts _ _ _ _).symm,
      numberParts_shows num type hlow hhigh precision.toInt _, ?_⟩
    rw [hlength, hpads.mpr hcounts]
    simp only [numberParts, List.length_reverse, hcount]
    omega

/-- `number` always comes to an end within `tmp`.  What it writes is the number
in a field of the right size exactly when `size` counts down to its end without
going round. -/
theorem number_formats_iff (hlow : 2 ≤ base) (hhigh : base ≤ 36) :
    ∃ text,
      Settles (fun fuel => numberLoops fuel stack num base size precision type)
        (.ok (some text)) ∧
      (FormatsNumber num base size.toInt precision.toInt type text ↔
        CountsDown type
          (columnsLeft num base size.toInt precision.toInt type)) := by
  have hsettles := numberLoops_settles stack num base size precision type
  rw [number_text num size precision type hlow hhigh] at hsettles
  exact ⟨_, hsettles,
    formatsNumber_iff num size precision type hlow hhigh Int32.toInt_ofInt⟩

/-- `-0x1` in eight columns. -/
theorem number_formats_minus_one :
    ∃ text,
      Settles (fun fuel => numberLoops fuel (fun _ => 0) 4294967295 16 8 (-1)
        { sign := true, plus := true, special := true }) (.ok (some text)) ∧
      FormatsNumber 4294967295 16 8 (-1)
        { sign := true, plus := true, special := true } text := by
  obtain ⟨text, hwritten, hiff⟩ := number_formats_iff (fun _ => 0) 4294967295 8
    (-1) { sign := true, plus := true, special := true }
    (show 2 ≤ 16 by decide) (by decide)
  exact ⟨text, hwritten, hiff.mpr (by decide +kernel)⟩

/-- `"%2147483648d"` of 5: the width goes round to the least `int`, and
`size -= precision` to the greatest. -/
theorem number_goes_round :
    ¬ ∃ text,
      Settles (fun fuel => numberLoops fuel (fun _ => 0) 5 10 (-2147483648) (-1)
        { sign := true }) (.ok (some text)) ∧
      FormatsNumber 5 10 (-2147483648) (-1) { sign := true } text := by
  rintro ⟨text, hwritten, hformats⟩
  have hsettles := numberLoops_settles (fun _ => 0) 5 10 (-2147483648) (-1)
    { sign := true }
  rw [number_text 5 (-2147483648) (-1) { sign := true } (by decide)
    (by decide)] at hsettles
  obtain rfl := Option.some.inj (Except.ok.inj (hwritten.unique hsettles))
  have hcounts := (formatsNumber_iff 5 (-2147483648) (-1) { sign := true }
    (by decide) (by decide) Int32.toInt_ofInt).mp hformats
  revert hcounts
  decide +kernel

end Formats

end Linda
