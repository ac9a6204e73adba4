/-
The searches of string.c for one character, and the scans that end at a count.
-/
import Linda.StringSearch
import Linda.Machine

namespace Linda

open ByteMemory CStrings FuelLoop

/-- `for(; *s != (char) c; ++s)` -/
def strchrBody (m : Memory) (c : UInt32) (s : Nat) : Except StringHalt (Nat ⊕ Nat) :=
  if m s ≠ c.toUInt8 then
    if m s = 0 then .ok (.inr 0) else .ok (.inl (s + 1))
  else .ok (.inr s)

def strchr (m : Memory) (s : Nat) (c : UInt32) (fuel : Nat) :
    Except StringHalt Nat :=
  loop .spin (strchrBody m c) fuel s

/-- A round of `strrchr`, up to `--p >= s`. -/
def strrchrBody (m : Memory) (c : UInt32) (s p : Nat) :
    Except StringHalt (Nat ⊕ Nat) :=
  if m p = c.toUInt8 then .ok (.inr p)
  else
    let p := sub32 p 1
    if s ≤ p then .ok (.inl p) else .ok (.inr 0)

def strrchr (m : Memory) (s : Nat) (c : UInt32) (fuel : Nat) :
    Except StringHalt Nat := do
  let len ← strlen m s fuel
  loop .spin (strrchrBody m c s) fuel (s + len)

/-- `for (sc = s; count-- && *sc != '\0'; ++sc)` -/
def strnlenFrom (m : Memory) (s sc : Nat) : Nat → Nat
  | 0 => sc - s
  | count + 1 => if m sc ≠ 0 then strnlenFrom m s (sc + 1) count else sc - s

def strnlen (m : Memory) (s count : Nat) : Nat := strnlenFrom m s s count

/-- `memscan`; unlike `strchr` it compares with all of the `int`. -/
def memscan (m : Memory) (c : UInt32) (p : Nat) : Nat → Nat
  | 0 => p
  | size + 1 => if (m p).toUInt32 = c then p else memscan m c (p + 1) size

/-- `strncmp`; a round that goes on leaves 0 in `__res`. -/
def strncmp (m : Memory) (cs ct : Nat) : Nat → Int8
  | 0 => 0
  | count + 1 =>
      let res := charDiff (m cs) (m ct)
      if res ≠ 0 ∨ m cs = 0 then res else strncmp m (cs + 1) (ct + 1) count

variable {m : Memory} {a b : Nat} {cs ds : List UInt8} {c : UInt32}

section Counted

/-- The length of a string, up to a count. -/
theorem strnlen_eq (h : CString m a cs) (count : Nat) :
    strnlen m a count = min cs.length count := by
  suffices hscan : ∀ sc, a ≤ sc → CString m sc cs →
      strnlenFrom m a sc count = sc - a + min cs.length count by
    rw [strnlen, hscan a le_rfl h, Nat.sub_self, Nat.zero_add]
  clear h
  induction count generalizing cs with
  | zero =>
      intro sc _ _
      rw [strnlenFrom, Nat.min_zero, Nat.add_zero]
  | succ count ih =>
      intro sc hle h
      cases cs with
      | nil =>
          have hnul : m sc = 0 := h
          rw [strnlenFrom, if_neg (not_not.mpr hnul), List.length_nil,
            Nat.zero_min, Nat.add_zero]
      | cons c cs =>
          obtain ⟨hc, hne, htail⟩ := h
          rw [strnlenFrom, if_pos (hc ▸ hne), ih (sc + 1) (by omega) htail,
            List.length_cons]
          omega

/-- `memscan` stops at the first byte of that value, or behind the area. -/
theorem memscan_eq_iff (m : Memory) (c : UInt32) (p size r : Nat) :
    memscan m c p size = r ↔
      p ≤ r ∧ r ≤ p + size ∧ (∀ x, p ≤ x → x < r → (m x).toUInt32 ≠ c) ∧
        (r < p + size → (m r).toUInt32 = c) := by
  induction size generalizing p with
  | zero =>
      rw [memscan]
      constructor
      · rintro rfl
        exact ⟨le_rfl, by omega, fun x hx hlt => by omega, fun hlt => by omega⟩
      · rintro ⟨hle, hge, -, -⟩
        omega
  | succ size ih =>
      rw [memscan]
      by_cases hhere : (m p).toUInt32 = c
      · rw [if_pos hhere]
        constructor
        · rintro rfl
          exact ⟨le_rfl, by omega, fun x _ _ => by omega, fun _ => hhere⟩
        · rintro ⟨hle, -, hbefore, -⟩
          by_contra hne
          exact hbefore p le_rfl (by omega) hhere
      · rw [if_neg hhere, ih]
        constructor
        · rintro ⟨hle, hge, hbefore, hhit⟩
          refine ⟨by omega, by omega, fun x hx hlt => ?_, fun hlt => hhit (by omega)⟩
          by_cases hfirst : x = p
          · exact hfirst ▸ hhere
          · exact hbefore x (by omega) hlt
        · rintro ⟨hle, hge, hbefore, hhit⟩
          have hne : r ≠ p := by
            rintro rfl
            exact hhere (hhit (by omega))
          exact ⟨by omega, by omega, fun x hx hlt => hbefore x (by omega) hlt,
            fun hlt => hhit (by omega)⟩

/-- `strncmp` says of the first `count` characters what `strcmp` says of whole
strings. -/
theorem strncmp_compares (hcs : CString m a cs) (hds : CString m b ds)
    (count : Nat) :
    Compares (cs.take count) (ds.take count) (strncmp m a b count) := by
  induction count generalizing a b cs ds with
  | zero =>
      refine ⟨iff_of_true rfl rfl, fun _ _ => iff_of_false ?_ ?_⟩
      · exact Int8.lt_irrefl
      · exact List.not_lt_nil _
  | succ count ih =>
      cases cs with
      | nil =>
          have hnul : m a = 0 := hcs
          have hhead : m b = (ds.take (count + 1)).headD 0 := by
            cases ds with
            | nil => exact hds
            | cons d ds => exact hds.1
          have hres : strncmp m a b (count + 1) = charDiff (m a) (m b) :=
            if_pos (.inr hnul)
          rw [hres, hnul, hhead]
          exact .end fun hmem => hds.ne_zero (List.mem_of_mem_take hmem)
      | cons c cs =>
          obtain ⟨hc, hne, hcs⟩ := hcs
          cases ds with
          | nil =>
              have hnul : m b = 0 := hds
              have hdiff : charDiff (m a) (m b) ≠ 0 := by
                rw [Ne, charDiff_eq_zero, hc, hnul]
                exact hne
              have hres : strncmp m a b (count + 1) = charDiff (m a) (m b) :=
                if_pos (.inl hdiff)
              rw [hres, hc, hnul]
              exact .longer hne
          | cons d ds =>
              obtain ⟨hd, hdne, hds⟩ := hds
              by_cases hsame : c = d
              · have hgoes : ¬ (charDiff (m a) (m b) ≠ 0 ∨ m a = 0) := by
                  rw [hc, hd, hsame]
                  exact not_or.mpr
                    ⟨not_not.mpr ((charDiff_eq_zero d d).mpr rfl), hdne⟩
                have hres : strncmp m a b (count + 1) =
                    strncmp m (a + 1) (b + 1) count := if_neg hgoes
                rw [hres, ← hsame]
                exact (ih hcs hds).cons
              · have hdiff : charDiff (m a) (m b) ≠ 0 := by
                  rw [Ne, charDiff_eq_zero, hc, hd]
                  exact hsame
                have hres : strncmp m a b (count + 1) = charDiff (m a) (m b) :=
                  if_pos (.inl hdiff)
                rw [hres, hc, hd]
                exact .differ hsame

end Counted

section Places

/-- `r` is the first place of `ch` in the text at `a`, `NULL` if it has none. -/
def FirstPlace (ch : UInt8) (text : List UInt8) (a r : Nat) : Prop :=
  (∃ i, r = a + i ∧ text[i]? = some ch ∧ ∀ k, text[k]? = some ch → i ≤ k) ∨
    r = 0 ∧ ch ∉ text

/-- `r` is the last place of `ch` in the text at `a`, `NULL` if it has none. -/
def LastPlace (ch : UInt8) (text : List UInt8) (a r : Nat) : Prop :=
  (∃ i, r = a + i ∧ text[i]? = some ch ∧ ∀ k, text[k]? = some ch → k ≤ i) ∨
    r = 0 ∧ ch ∉ text

theorem FirstPlace.cons {ch b : UInt8} {text : List UInt8} {r : Nat}
    (hne : b ≠ ch) (h : FirstPlace ch text (a + 1) r) :
    FirstPlace ch (b :: text) a r := by
  rcases h with ⟨i, rfl, hi, hfirst⟩ | ⟨rfl, hnone⟩
  · refine .inl ⟨i + 1, by omega, hi, fun k hk => ?_⟩
    cases k with
    | zero => exact absurd (Option.some.inj hk) hne
    | succ k => exact Nat.succ_le_succ (hfirst k hk)
  · exact .inr ⟨rfl, List.not_mem_cons_of_ne_of_not_mem hne.symm hnone⟩

theorem FirstPlace.here {ch : UInt8} {text : List UInt8} :
    FirstPlace ch (ch :: text) a a :=
  .inl ⟨0, rfl, rfl, fun k _ => Nat.zero_le k⟩

theorem strchr_first (h : CString m a cs) :
    ∃ r, Settles (strchr m a c) (.ok r) ∧
      FirstPlace c.toUInt8 (cs ++ [0]) a r := by
  suffices hruns : ∃ r, Runs .spin (fun _ => strchrBody m c) a (.ok r) ∧
      FirstPlace c.toUInt8 (cs ++ [0]) a r by
    obtain ⟨r, hruns, hr⟩ := hruns
    exact ⟨r, hruns.settles, hr⟩
  have hstop {a : Nat} (hhit : m a = c.toUInt8) :
      Runs .spin (fun _ => strchrBody m c) a (.ok a) := by
    refine Runs.exit ?_
    simp only [strchrBody, if_neg (not_not.mpr hhit)]
    exact settles_const _
  induction cs generalizing a with
  | nil =>
      have hnul : m a = 0 := h
      by_cases hhit : m a = c.toUInt8
      · refine ⟨a, hstop hhit, ?_⟩
        rw [← hhit, hnul]
        exact .here
      · refine ⟨0, Runs.exit ?_, .inr ⟨rfl, ?_⟩⟩
        · simp only [strchrBody, if_pos hhit, if_pos hnul]
          exact settles_const _
        · rw [List.nil_append, List.mem_singleton, ← hnul]
          exact Ne.symm hhit
  | cons b cs ih =>
      obtain ⟨hb, hne, htail⟩ := h
      by_cases hhit : m a = c.toUInt8
      · refine ⟨a, hstop hhit, ?_⟩
        rw [← hhit, hb]
        exact .here
      · obtain ⟨r, hruns, hr⟩ := ih htail
        refine ⟨r, Runs.next ?_ hruns, hr.cons (hb ▸ hhit)⟩
        simp only [strchrBody, if_pos hhit, if_neg (hb ▸ hne : m a ≠ 0)]
        exact settles_const _

/-- The characters of a string and its NUL, by their places. -/
theorem CString.byte (h : CString m a cs) {k : Nat} (hk : k ≤ cs.length) :
    (cs ++ [0])[k]? = some (m (a + k)) := by
  obtain ⟨hbytes, -, hnul⟩ := cString_iff.mp h
  by_cases hlt : k < cs.length
  · rw [List.getElem?_append_left hlt, List.getElem?_eq_getElem hlt, hbytes k hlt]
  · obtain rfl : k = cs.length := by omega
    rw [List.getElem?_append_right le_rfl, Nat.sub_self, hnul]
    rfl

/-- The rounds of `strrchr` from the place `i` on. -/
theorem strrchr_runs (hpos : 0 < a) {i : Nat} (hfit : a + i < 4294967296) :
    ∃ r, Runs .spin (fun _ => strrchrBody m c a) (a + i) (.ok r) ∧
      ((∃ j ≤ i, r = a + j ∧ m (a + j) = c.toUInt8 ∧
          ∀ k, j < k → k ≤ i → m (a + k) ≠ c.toUInt8) ∨
        r = 0 ∧ ∀ k ≤ i, m (a + k) ≠ c.toUInt8) := by
  induction i with
  | zero =>
      by_cases hhit : m (a + 0) = c.toUInt8
      · refine ⟨a, Runs.exit ?_, .inl ⟨0, le_rfl, rfl, hhit, by omega⟩⟩
        simp only [strrchrBody, if_pos hhit]
        exact settles_const _
      · have hstop : ¬ a ≤ sub32 (a + 0) 1 := by
          rw [sub32]
          omega
        refine ⟨0, Runs.exit ?_, .inr ⟨rfl, fun k hk => ?_⟩⟩
        · simp only [strrchrBody, if_neg hhit, if_neg hstop]
          exact settles_const _
        · obtain rfl : k = 0 := by omega
          exact hhit
  | succ i ih =>
      by_cases hhit : m (a + (i + 1)) = c.toUInt8
      · refine ⟨a + (i + 1), Runs.exit ?_,
          .inl ⟨i + 1, le_rfl, rfl, hhit, by omega⟩⟩
        simp only [strrchrBody, if_pos hhit]
        exact settles_const _
      · have hback : sub32 (a + (i + 1)) 1 = a + i := by
          rw [sub32]
          omega
        have hnext {k : Nat} (hk : k ≤ i + 1) (hle : ¬ k ≤ i) :
            m (a + k) ≠ c.toUInt8 := by
          obtain rfl : k = i + 1 := by omega
          exact hhit
        have hround : strrchrBody m c a (a + (i + 1)) = .ok (.inl (a + i)) := by
          simp only [strrchrBody, if_neg hhit, hback, if_pos (Nat.le_add_right a i)]
        obtain ⟨r, hruns, hr⟩ := ih (by omega)
        refine ⟨r, Runs.next (hround ▸ settles_const _) hruns, ?_⟩
        · rcases hr with ⟨j, hj, rfl, hplace, hbehind⟩ | ⟨rfl, hnone⟩
          · refine .inl ⟨j, by omega, rfl, hplace, fun k hlt hk => ?_⟩
            by_cases hle : k ≤ i
            · exact hbehind k hlt hle
            · exact hnext hk hle
          · refine .inr ⟨rfl, fun k hk => ?_⟩
            by_cases hle : k ≤ i
            · exact hnone k hle
            · exact hnext hk hle

theorem strrchr_last (h : CString m a cs) (hpos : 0 < a)
    (hfit : a + cs.length < 4294967296) :
    ∃ r, Settles (strrchr m a c) (.ok r) ∧
      LastPlace c.toUInt8 (cs ++ [0]) a r := by
  obtain ⟨r, hruns, hr⟩ := strrchr_runs (m := m) (c := c) hpos hfit
  refine ⟨r, (strlen_settles h).bind hruns.settles, ?_⟩
  have hplace {k : Nat} (hk : (cs ++ [0])[k]? = some c.toUInt8) :
      k ≤ cs.length ∧ m (a + k) = c.toUInt8 := by
    have hlt := (List.getElem?_eq_some_iff.mp hk).1
    rw [List.length_append, List.length_singleton] at hlt
    have hle := Nat.le_of_lt_succ hlt
    rw [CString.byte h hle] at hk
    exact ⟨hle, Option.some.inj hk⟩
  rcases hr with ⟨j, hj, rfl, hhit, hbehind⟩ | ⟨rfl, hnone⟩
  · refine .inl ⟨j, rfl, by rw [CString.byte h hj, hhit], fun k hk => ?_⟩
    by_contra hlt
    exact hbehind k (by omega) (hplace hk).1 (hplace hk).2
  · refine .inr ⟨rfl, fun hmem => ?_⟩
    obtain ⟨k, hk⟩ := List.getElem?_of_mem hmem
    exact hnone k (hplace hk).1 (hplace hk).2

/-- `strchr` finds the first and `strrchr` the last place of a character in a
string, its NUL included. -/
theorem strchr_strrchr (c : UInt32) (h : CString m a cs) (hpos : 0 < a)
    (hfit : a + cs.length < 4294967296) :
    ∃ first last, Settles (strchr m a c) (.ok first) ∧
      Settles (strrchr m a c) (.ok last) ∧
      FirstPlace c.toUInt8 (cs ++ [0]) a first ∧
      LastPlace c.toUInt8 (cs ++ [0]) a last := by
  obtain ⟨first, hfirst, hplace⟩ := strchr_first (c := c) h
  obtain ⟨last, hlast, hplace'⟩ := strrchr_last (c := c) h hpos hfit
  exact ⟨first, last, hfirst, hlast, hplace, hplace'⟩

theorem strchr_strrchr_abAndAc :
    ∃ first last, Settles (strchr abAndAc 100 0x62) (.ok first) ∧
      Settles (strrchr abAndAc 100 0x62) (.ok last) ∧
      FirstPlace 0x62 [0x61, 0x62, 0] 100 first ∧
      LastPlace 0x62 [0x61, 0x62, 0] 100 last :=
  strchr_strrchr 0x62 abAndAc_ab (by decide) (by decide)

end Places

end Linda
