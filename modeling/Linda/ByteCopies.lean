/-
The copying functions of string.c over a byte memory: `memmove` and `memcpy`
for any overlap, and the string copies that end at a NUL or at a count.
-/
import Linda.StringLibrary

namespace Linda

open ByteMemory CStrings FuelLoop

namespace StringLib

/-- `while (count--) *tmp++ = *s++;` -/
def copyForward (m : Memory) (tmp s : Nat) : Nat → Memory
  | 0 => m
  | count + 1 => copyForward (store8 m tmp (m s)) (tmp + 1) (s + 1) count

/-- `while (count--) *--tmp = *--s;`, from `count` bytes behind the two. -/
def copyBackward (m : Memory) (dest src : Nat) : Nat → Memory
  | 0 => m
  | count + 1 =>
      copyBackward (store8 m (dest + count) (m (src + count))) dest src count

def memcpy (m : Memory) (dest src count : Nat) : Memory :=
  copyForward m dest src count

def memmove (m : Memory) (dest src count : Nat) : Memory :=
  if dest ≤ src then copyForward m dest src count
  else copyBackward m dest src count

/-- The memory, `dest` and `src` of the loops below. -/
structure Copy where
  mem : Memory
  dest : Nat
  src : Nat

/-- `*dest++ = *src++` -/
def Copy.next (s : Copy) : Copy :=
  ⟨store8 s.mem s.dest (s.mem s.src), s.dest + 1, s.src + 1⟩

/-- `while ((*dest++ = *src++) != '\0')` -/
def strcpyBody (s : Copy) : Except StringHalt (Copy ⊕ Memory) :=
  if s.mem s.src ≠ 0 then .ok (.inl s.next) else .ok (.inr s.next.mem)

def strcpy (m : Memory) (dest src fuel : Nat) : Except StringHalt Memory :=
  loop .spin strcpyBody fuel ⟨m, dest, src⟩

/-- `while (count-- && (*dest++ = *src++) != '\0')` -/
def strncpyBody (s : Copy × Nat) : Except StringHalt (Copy × Nat ⊕ Memory) :=
  if s.2 = 0 then .ok (.inr s.1.mem)
  else if s.1.mem s.1.src ≠ 0 then .ok (.inl (s.1.next, s.2 - 1))
  else .ok (.inr s.1.next.mem)

def strncpy (m : Memory) (dest src count fuel : Nat) :
    Except StringHalt Memory :=
  loop .spin strncpyBody fuel (⟨m, dest, src⟩, count)

/-- `while (*dest) dest++;` -/
def seekBody (m : Memory) (dest : Nat) : Except StringHalt (Nat ⊕ Nat) :=
  if m dest ≠ 0 then .ok (.inl (dest + 1)) else .ok (.inr dest)

def strcat (m : Memory) (dest src fuel : Nat) : Except StringHalt Memory := do
  let dest ← loop .spin (seekBody m) fuel dest
  loop .spin strcpyBody fuel ⟨m, dest, src⟩

/-- The second loop of `strncat`, which puts the NUL itself when it stops at
`count`. -/
def strncatBody (s : Copy × Nat) : Except StringHalt (Copy × Nat ⊕ Memory) :=
  if s.1.mem s.1.src ≠ 0 then
    if s.2 - 1 = 0 then .ok (.inr (store8 s.1.next.mem s.1.next.dest 0))
    else .ok (.inl (s.1.next, s.2 - 1))
  else .ok (.inr s.1.next.mem)

def strncat (m : Memory) (dest src count fuel : Nat) :
    Except StringHalt Memory :=
  if count = 0 then .ok m
  else do
    let dest ← loop .spin (seekBody m) fuel dest
    loop .spin strncatBody fuel (⟨m, dest, src⟩, count)

variable {m : Memory} {dest src count i n : Nat} {cs ds : List UInt8}

section Overlap

/-- The loop one byte longer. -/
theorem copyForward_succ (m : Memory) (dest src count : Nat) :
    copyForward m dest src (count + 1) =
      store8 (copyForward m dest src count) (dest + count)
        (copyForward m dest src count (src + count)) := by
  induction count generalizing m dest src with
  | zero => rfl
  | succ n ih =>
      have hdest : dest + (n + 1) = dest + 1 + n := by omega
      have hsrc : src + (n + 1) = src + 1 + n := by omega
      rw [copyForward, ih, hdest, hsrc]
      rfl

theorem copyForward_eq (h : dest ≤ src ∨ src + count ≤ dest) :
    copyForward m dest src count = copied m dest src count := by
  induction count with
  | zero => exact (copied_zero m dest src).symm
  | succ n ih =>
      have hold : copied m dest src n (src + n) = m (src + n) :=
        copied_of_outside m src (by omega)
      rw [copyForward_succ, ih (by omega), hold]
      funext x
      by_cases hx : x = dest + n
      · have hn : x - dest = n := by omega
        rw [hx, store8_same, copied, if_pos (by omega), ← hx, hn]
      · rw [store8_of_ne _ _ hx]
        by_cases hin : dest ≤ x ∧ x < dest + n
        · rw [copied, copied, if_pos hin, if_pos (by omega)]
        · rw [copied, copied, if_neg hin, if_neg (by omega)]

/-- A byte once copied stays. -/
theorem copyForward_byte (hi : i < count) :
    copyForward m dest src count (dest + i) =
      copyForward m dest src i (src + i) := by
  induction count with
  | zero => omega
  | succ n ih =>
      rw [copyForward_succ]
      by_cases hlast : i = n
      · rw [hlast, store8_same]
      · rw [store8_of_ne _ _ (by omega), ih (by omega)]

theorem copyBackward_eq (h : src < dest) :
    copyBackward m dest src count = copied m dest src count := by
  induction count generalizing m with
  | zero => exact (copied_zero m dest src).symm
  | succ n ih =>
      rw [copyBackward, ih]
      funext x
      by_cases hx : x = dest + n
      · have hn : x - dest = n := by omega
        rw [copied_of_outside _ _ (by omega), hx, store8_same, copied,
          if_pos (by omega), ← hx, hn]
      · by_cases hin : dest ≤ x ∧ x < dest + n
        · rw [copied, copied, if_pos hin, if_pos (by omega),
            store8_of_ne _ _ (by omega)]
        · rw [copied_of_outside _ _ (by omega), store8_of_ne _ _ hx,
            copied_of_outside _ _ (by omega)]

theorem memmove_eq (m : Memory) (dest src count : Nat) :
    memmove m dest src count = copied m dest src count := by
  rw [memmove]
  split_ifs with h
  · exact copyForward_eq (.inl h)
  · exact copyBackward_eq (Nat.lt_of_not_ge h)

/-- Where `dest` is among the bytes behind `src`, the first of them comes out
again in the place that `dest` is copied to. -/
theorem memcpy_repeats (hlo : src < dest) (hhi : dest < src + count) :
    memcpy m dest src count (dest + (dest - src)) = m src := by
  have hgap : src + (dest - src) = dest := by omega
  have hfirst : copyForward m dest src (dest - src) (dest + 0) = m src :=
    copyForward_byte (by omega)
  rw [memcpy, copyForward_byte (by omega), hgap]
  exact hfirst

/-- `memmove` copies the bytes that were there before it, however the two areas
overlap, and `memcpy` does the same unless `dest` is one of the source bytes
behind the first. -/
theorem memmove_snapshot (dest src count : Nat) :
    (∀ m x, memmove m dest src count x =
      if dest ≤ x ∧ x < dest + count then m (src + (x - dest)) else m x) ∧
    ((∀ m, memcpy m dest src count = memmove m dest src count) ↔
      ¬ (src < dest ∧ dest < src + count)) := by
  refine ⟨fun m x => congrFun (memmove_eq m dest src count) x, ?_, ?_⟩
  · rintro hsame ⟨hlo, hhi⟩
    have hrepeats := memcpy_repeats (m := fun x => if x = src then 1 else 0)
      hlo hhi
    have hgap : src + (dest + (dest - src) - dest) ≠ src := by omega
    rw [hsame, memmove_eq, copied, if_pos (by omega), if_neg hgap,
      if_pos rfl] at hrepeats
    exact absurd hrepeats (by decide)
  · intro hapart m
    rw [memmove_eq]
    exact copyForward_eq (by omega)

end Overlap

section Strings

theorem seek_runs (h : CString m dest cs) :
    Runs .spin (fun _ => seekBody m) dest (.ok (dest + cs.length)) := by
  induction cs generalizing dest with
  | nil =>
      have hnul : m dest = 0 := h
      refine Runs.exit ?_
      rw [seekBody, if_neg (not_not.mpr hnul)]
      exact settles_const _
  | cons c cs ih =>
      obtain ⟨hc, hne, htail⟩ := h
      have hplace : dest + (c :: cs).length = dest + 1 + cs.length := by
        rw [List.length_cons]
        omega
      rw [hplace]
      refine Runs.next ?_ (ih htail)
      rw [seekBody, if_pos (hc ▸ hne)]
      exact settles_const _

/-- A byte copied to a place that is not read any more. -/
theorem copy_next {s : Copy} {c : UInt8} (h : CString s.mem s.src (c :: cs))
    (hapart : s.dest ≤ s.src ∨ s.src + (c :: cs).length < s.dest) :
    s.mem s.src ≠ 0 ∧ CString s.next.mem s.next.src cs ∧
      (s.next.dest ≤ s.next.src ∨ s.next.src + cs.length < s.next.dest) := by
  obtain ⟨hc, hne, htail⟩ := h
  rw [List.length_cons] at hapart
  refine ⟨hc ▸ hne, ?_, ?_⟩
  · refine (cString_congr fun x hx hx' => ?_).mpr htail
    have hsrc : s.next.src = s.src + 1 := rfl
    exact store8_of_ne s.mem _ (by omega)
  · have hsrc : s.next.src = s.src + 1 := rfl
    have hdest : s.next.dest = s.dest + 1 := rfl
    omega

theorem strcpy_runs {s : Copy} (h : CString s.mem s.src cs)
    (hapart : s.dest ≤ s.src ∨ s.src + cs.length < s.dest) :
    Runs .spin (fun _ => strcpyBody) s
      (.ok (copyForward s.mem s.dest s.src (cs.length + 1))) := by
  induction cs generalizing s with
  | nil =>
      have hnul : s.mem s.src = 0 := h
      refine Runs.exit ?_
      rw [strcpyBody, if_neg (not_not.mpr hnul)]
      exact settles_const _
  | cons c cs ih =>
      obtain ⟨hne, htail, hapart⟩ := copy_next h hapart
      refine Runs.next ?_ (ih htail hapart)
      rw [strcpyBody, if_pos hne]
      exact settles_const _

theorem strncpy_runs {s : Copy} (count : Nat) (h : CString s.mem s.src cs)
    (hapart : s.dest ≤ s.src ∨ s.src + cs.length < s.dest) :
    Runs .spin (fun _ => strncpyBody) (s, count)
      (.ok (copyForward s.mem s.dest s.src (min count (cs.length + 1)))) := by
  induction cs generalizing s count with
  | nil =>
      have hnul : s.mem s.src = 0 := h
      refine Runs.exit ?_
      cases count with
      | zero =>
          rw [strncpyBody, if_pos rfl, Nat.zero_min]
          exact settles_const _
      | succ count =>
          rw [strncpyBody, if_neg (Nat.succ_ne_zero count),
            if_neg (not_not.mpr hnul), Nat.min_eq_right (by simp)]
          exact settles_const _
  | cons c cs ih =>
      obtain ⟨hne, htail, hapart⟩ := copy_next h hapart
      cases count with
      | zero =>
          refine Runs.exit ?_
          rw [strncpyBody, if_pos rfl, Nat.zero_min]
          exact settles_const _
      | succ count =>
          have hmin : min (count + 1) ((c :: cs).length + 1) =
              min count (cs.length + 1) + 1 := Nat.succ_min_succ _ _
          rw [hmin]
          refine Runs.next ?_ (ih count htail hapart)
          rw [strncpyBody, if_neg (Nat.succ_ne_zero count), if_pos hne]
          exact settles_const _

/-- `count` bytes and the NUL behind them. -/
def copyCut (m : Memory) (dest src count : Nat) : Memory :=
  store8 (copyForward m dest src count) (dest + count) 0

theorem strncat_runs {s : Copy} (count : Nat) (h : CString s.mem s.src cs)
    (hapart : s.dest ≤ s.src ∨ s.src + cs.length < s.dest) :
    Runs .spin (fun _ => strncatBody) (s, count + 1)
      (.ok (copyCut s.mem s.dest s.src (min (count + 1) cs.length))) := by
  induction cs generalizing s count with
  | nil =>
      have hnul : s.mem s.src = 0 := h
      refine Runs.exit ?_
      rw [strncatBody, if_neg (not_not.mpr hnul), Copy.next, hnul]
      exact settles_const _
  | cons c cs ih =>
      obtain ⟨hne, htail, hapart⟩ := copy_next h hapart
      have hmin : min (count + 1) (c :: cs).length =
          min count cs.length + 1 := Nat.succ_min_succ _ _
      rw [hmin]
      cases count with
      | zero =>
          refine Runs.exit ?_
          have hlast : (s, 0 + 1).2 - 1 = 0 := rfl
          rw [strncatBody, if_pos hne, if_pos hlast, Nat.zero_min]
          exact settles_const _
      | succ count =>
          have hcut : copyCut s.next.mem s.next.dest s.next.src
              (min (count + 1) cs.length) =
              copyCut s.mem s.dest s.src (min (count + 1) cs.length + 1) := by
            have hplace : s.dest + 1 + min (count + 1) cs.length =
                s.dest + (min (count + 1) cs.length + 1) := by omega
            rw [copyCut, copyCut, ← hplace]
            rfl
          rw [← hcut]
          refine Runs.next ?_ (ih count htail hapart)
          have hmore : (s, count + 1 + 1).2 - 1 ≠ 0 := Nat.succ_ne_zero count
          rw [strncatBody, if_pos hne, if_neg hmore]
          exact settles_const _

/-- The characters of one string put behind those of another. -/
theorem cString_joined {m' : Memory} (hcs : CString m dest cs)
    (hds : CString m src ds) (hn : n ≤ ds.length)
    (hbefore : ∀ x, x < dest + cs.length → m' x = m x)
    (hcopied : ∀ i < n, m' (dest + cs.length + i) = m (src + i))
    (hnul : m' (dest + cs.length + n) = 0) :
    CString m' dest (cs ++ ds.take n) := by
  obtain ⟨hcs, hcs0, -⟩ := cString_iff.mp hcs
  obtain ⟨hds, hds0, -⟩ := cString_iff.mp hds
  have hlength : (cs ++ ds.take n).length = cs.length + n := by
    rw [List.length_append, List.length_take, Nat.min_eq_left hn]
  refine cString_iff.mpr ⟨?_, ?_, ?_⟩
  · intro i hi
    by_cases hfirst : i < cs.length
    · rw [hbefore _ (by omega), hcs i hfirst, List.getElem_append_left hfirst]
    · have hplace : dest + i = dest + cs.length + (i - cs.length) := by omega
      rw [hplace, hcopied _ (by omega), hds _ (by omega),
        List.getElem_append_right (by omega), List.getElem_take]
  · rw [List.mem_append, not_or]
    exact ⟨hcs0, fun hmem => hds0 (List.mem_of_mem_take hmem)⟩
  · rw [hlength, ← Nat.add_assoc]
    exact hnul

theorem strcat_settles (hcs : CString m dest cs) (hds : CString m src ds)
    (hapart : dest + cs.length ≤ src ∨ src + ds.length < dest + cs.length) :
    ∃ m', Settles (strcat m dest src) (.ok m') ∧ CString m' dest (cs ++ ds) := by
  have hcopy := strcpy_runs (s := ⟨m, dest + cs.length, src⟩) hds hapart
  refine ⟨_, (seek_runs hcs).settles.bind hcopy.settles, ?_⟩
  have hcopied : copyForward m (dest + cs.length) src (ds.length + 1) =
      copied m (dest + cs.length) src (ds.length + 1) :=
    copyForward_eq (by omega)
  have hjoined : CString (copyForward m (dest + cs.length) src
      (ds.length + 1)) dest (cs ++ ds.take ds.length) := by
    refine cString_joined hcs hds le_rfl ?_ ?_ ?_
    · intro x hx
      rw [hcopied, copied_of_outside _ _ (by omega)]
    · intro i hi
      rw [hcopied, copied, if_pos (by omega), Nat.add_sub_cancel_left]
    · rw [hcopied, copied, if_pos (by omega), Nat.add_sub_cancel_left]
      exact hds.nul
  rwa [List.take_length] at hjoined

/-- `strncat` appends as many characters as `count` allows and a NUL, and
writes nothing behind it. -/
theorem strncat_settles (hcs : CString m dest cs) (hds : CString m src ds)
    (hapart : dest + cs.length ≤ src ∨ src + ds.length < dest + cs.length)
    (count : Nat) :
    ∃ m', Settles (strncat m dest src count) (.ok m') ∧
      CString m' dest (cs ++ ds.take count) ∧
      ∀ x, x < dest + cs.length ∨
        dest + cs.length + (ds.take count).length < x → m' x = m x := by
  cases count with
  | zero =>
      refine ⟨m, settles_const _, ?_, fun _ _ => rfl⟩
      rwa [List.take_zero, List.append_nil]
  | succ count =>
      have hcopy := strncat_runs (s := ⟨m, dest + cs.length, src⟩) count hds
        hapart
      have hcall : Settles (strncat m dest src (count + 1))
          (.ok (copyCut m (dest + cs.length) src
            (min (count + 1) ds.length))) :=
        (seek_runs hcs).settles.bind hcopy.settles
      refine ⟨_, hcall, ?_, ?_⟩
      · have htake : ds.take (count + 1) = ds.take (min (count + 1) ds.length) :=
          List.take_eq_take_min
        rw [htake]
        have hcopied : copyForward m (dest + cs.length) src
            (min (count + 1) ds.length) =
            copied m (dest + cs.length) src (min (count + 1) ds.length) :=
          copyForward_eq (by omega)
        refine cString_joined hcs hds (Nat.min_le_right _ _) ?_ ?_ ?_
        · intro x hx
          rw [copyCut, store8_of_ne _ _ (by omega), hcopied,
            copied_of_outside _ _ (by omega)]
        · intro i hi
          rw [copyCut, store8_of_ne _ _ (by omega), hcopied, copied,
            if_pos (by omega), Nat.add_sub_cancel_left]
        · exact store8_same _ _ _
      · intro x hx
        rw [List.length_take] at hx
        rw [copyCut, store8_of_ne _ _ (by omega), copyForward_eq (by omega),
          copied_of_outside _ _ (by omega)]

/-- The texts `a` at 100 and `bc` at 200. -/
def aAndBc : Memory := fun x =>
  if x < 200 then [0x61].getD (x - 100) 0 else [0x62, 0x63].getD (x - 200) 0

theorem aAndBc_a : CString aAndBc 100 [0x61] := ⟨rfl, by decide, rfl⟩

theorem aAndBc_bc : CString aAndBc 200 [0x62, 0x63] :=
  ⟨rfl, by decide, rfl, by decide, rfl⟩

theorem strncat_settles_aAndBc : ∃ m',
    Settles (strncat aAndBc 100 200 1) (.ok m') ∧
      CString m' 100 ([0x61] ++ [0x62, 0x63].take 1) ∧
      ∀ x, x < 100 + 1 ∨ 100 + 1 + 1 < x → m' x = aAndBc x :=
  strncat_settles aAndBc_a aAndBc_bc (.inl (by decide)) 1

end Strings

end StringLib

end Linda
