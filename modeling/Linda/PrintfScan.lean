/-
How `vsprintf` moves through its format: what each reader leaves is a suffix,
and a message without conversion syntax is copied.
-/
import Linda.FuelLoop
import Linda.PrintfLength
import Mathlib.Data.List.Chain

namespace Linda

section Readers

variable (va : VaList) (d : Directive)

theorem skipAtoi_suffix (i : Int32) (fmt : List UInt8) :
    (skipAtoi i fmt).2 <:+ fmt := by
  induction fmt generalizing i with
  | nil => exact List.suffix_refl []
  | cons c rest ih =>
      rw [skipAtoi]
      split_ifs
      · exact (ih _).trans (List.suffix_cons c rest)
      · exact List.suffix_refl _

theorem readFlags_suffix (flags : Flags) (fmt : List UInt8) :
    (readFlags flags fmt).2 <:+ fmt := by
  induction fmt generalizing flags with
  | nil => exact List.suffix_refl []
  | cons c rest ih =>
      rw [readFlags]
      split_ifs
      all_goals first
        | exact (ih _).trans (List.suffix_cons c rest)
        | exact List.suffix_refl _

/-- A reader moves forward in the format and in the arguments. -/
structure Reads (d d' : Directive) : Prop where
  fmt : d'.fmt <:+ d.fmt
  taken : d.taken ≤ d'.taken

theorem Reads.refl (d : Directive) : Reads d d :=
  ⟨List.suffix_refl _, le_rfl⟩

theorem Reads.trans {d₁ d₂ d₃ : Directive} (h₁ : Reads d₁ d₂)
    (h₂ : Reads d₂ d₃) : Reads d₁ d₃ :=
  ⟨h₂.fmt.trans h₁.fmt, h₁.taken.trans h₂.taken⟩

theorem readWidth_reads : Reads d (readWidth va d) := by
  unfold readWidth
  split
  · exact Reads.refl d
  · rename_i c rest hfmt
    dsimp only
    split_ifs
    · exact ⟨hfmt ▸ skipAtoi_suffix 0 d.fmt, le_rfl⟩
    · exact ⟨hfmt ▸ List.suffix_cons c rest, Nat.le_succ _⟩
    · exact ⟨hfmt ▸ List.suffix_cons c rest, Nat.le_succ _⟩
    · exact Reads.refl d

theorem readPrecisionNumber_reads : Reads d (readPrecisionNumber va d) := by
  unfold readPrecisionNumber
  split
  · exact Reads.refl d
  · rename_i c rest hfmt
    split_ifs
    · exact ⟨hfmt ▸ skipAtoi_suffix 0 d.fmt, le_rfl⟩
    · exact ⟨hfmt ▸ List.suffix_cons c rest, Nat.le_succ _⟩
    · exact Reads.refl d

theorem readPrecision_reads : Reads d (readPrecision va d) := by
  unfold readPrecision
  split
  · exact Reads.refl d
  · rename_i c rest hfmt
    split_ifs
    · have hnumber := readPrecisionNumber_reads va { d with fmt := rest }
      exact ⟨hfmt ▸ hnumber.fmt.trans (List.suffix_cons c rest), hnumber.taken⟩
    · exact Reads.refl d

theorem readQualifier_reads : Reads d (readQualifier d) := by
  unfold readQualifier
  split
  · exact Reads.refl d
  · rename_i c rest hfmt
    split_ifs
    · exact ⟨hfmt ▸ List.suffix_cons c rest, le_rfl⟩
    · exact Reads.refl d

theorem readDirective_reads (fmt : List UInt8) (taken : Nat) :
    Reads ⟨{}, -1, -1, none, fmt, taken⟩ (readDirective va fmt taken) := by
  have hflags : Reads ⟨{}, -1, -1, none, fmt, taken⟩
      ⟨(readFlags {} fmt).1, -1, -1, none, (readFlags {} fmt).2, taken⟩ :=
    ⟨readFlags_suffix {} fmt, le_rfl⟩
  exact hflags.trans ((readWidth_reads va _).trans
    ((readPrecision_reads va _).trans (readQualifier_reads _)))

/-- The characters a directive takes in before its last one: the flags, the
digits, `*`, `.` and the qualifiers. -/
def modifies (c : UInt8) : Bool :=
  c ∈ [0x2D, 0x2B, 0x20, 0x23, 0x30] || isDigit c ||
    c ∈ [0x2A, 0x2E, 0x68, 0x6C, 0x4C]

theorem readDirective_cons {c : UInt8} (hc : modifies c = false)
    (rest : List UInt8) (taken : Nat) :
    readDirective va (c :: rest) taken =
      ⟨{}, -1, -1, none, c :: rest, taken⟩ := by
  simp only [modifies, Bool.or_eq_false_iff, decide_eq_false_iff_not,
    List.mem_cons, List.not_mem_nil, or_false, not_or] at hc
  obtain ⟨⟨⟨hleft, hplus, hspace, hspecial, hzero⟩, hdigit⟩,
    hstar, hdot, hh, hl, hL⟩ := hc
  have hflags : readFlags {} (c :: rest) = ({}, c :: rest) := by
    simp only [readFlags, hleft, hplus, hspace, hspecial, hzero, ↓reduceIte]
  simp only [readDirective, hflags, readWidth, hdigit, hstar, readPrecision,
    hdot, readQualifier, hh, hl, hL, or_self, Bool.false_eq_true, ↓reduceIte]

/-- A modifier is taken in. -/
theorem readDirective_modifier {c : UInt8} (hc : modifies c = true)
    (rest : List UInt8) (taken : Nat) :
    (readDirective va (c :: rest) taken).fmt <:+ rest := by
  have hwidth : ∀ d : Directive, (readWidth va d).fmt <:+ rest →
      (readQualifier (readPrecision va (readWidth va d))).fmt <:+ rest := by
    intro d hd
    exact ((readQualifier_reads _).fmt.trans
      (readPrecision_reads va _).fmt).trans hd
  by_cases hflag : c ∈ [(0x2D : UInt8), 0x2B, 0x20, 0x23, 0x30]
  · apply hwidth
    apply (readWidth_reads va _).fmt.trans
    simp only [List.mem_cons, List.not_mem_nil, or_false] at hflag
    rcases hflag with rfl | rfl | rfl | rfl | rfl
    all_goals exact readFlags_suffix _ rest
  · have hflags : readFlags {} (c :: rest) = ({}, c :: rest) := by
      simp only [List.mem_cons, List.not_mem_nil, or_false, not_or] at hflag
      simp only [readFlags, hflag, ↓reduceIte]
    simp only [readDirective, hflags]
    by_cases hdigit : isDigit c = true
    · apply hwidth
      simp only [readWidth, skipAtoi, hdigit, ↓reduceIte]
      exact skipAtoi_suffix _ rest
    by_cases hstar : c = 0x2A
    · apply hwidth
      simp only [readWidth, if_neg hdigit, if_pos hstar]
      split_ifs <;> exact List.suffix_refl rest
    have hkeep : readWidth va ⟨{}, -1, -1, none, c :: rest, taken⟩ =
        ⟨{}, -1, -1, none, c :: rest, taken⟩ := by
      simp only [readWidth, hdigit, hstar, Bool.false_eq_true, ↓reduceIte]
    rw [hkeep]
    by_cases hdot : c = 0x2E
    · apply (readQualifier_reads _).fmt.trans
      simp only [readPrecision, hdot, ↓reduceIte]
      exact (readPrecisionNumber_reads va
        ⟨{}, -1, -1, none, rest, taken⟩).fmt
    · have hqualifier : c = 0x68 ∨ c = 0x6C ∨ c = 0x4C := by
        simpa [modifies, hflag, hdigit, hstar, hdot] using hc
      simp only [readPrecision, hdot, ↓reduceIte, readQualifier, hqualifier]
      exact List.suffix_refl rest

/-- A conversion that reads no argument writes no more than it takes in; as
much, only where nothing but one character follows the `%`. -/
theorem Directive.text_le (d : Directive) (hafter : d.after = d.taken) :
    d.length va + d.rest.length ≤ d.fmt.length + 1 ∧
      (d.fmt.head? = some 0x25 → d.length va + d.rest.length ≤ d.fmt.length) := by
  unfold Directive.length Directive.rest Directive.after at *
  cases hfmt : d.fmt with
  | nil => simp
  | cons c rest =>
      rw [hfmt] at hafter
      dsimp only at hafter ⊢
      rcases conversion_cases va d c (va.word d.taken) with
        ⟨_, _, hreads, _⟩ | ⟨_, hreads, hlength⟩
      · rw [if_pos hreads] at hafter
        omega
      · have hn : c ≠ 0x6E := by
          rintro rfl
          rw [if_pos (hreads.mpr rfl)] at hafter
          omega
        rw [hlength, if_neg hn]
        constructor
        · split_ifs <;> simp_all <;> omega
        · intro hhead
          obtain rfl : c = 0x25 := by simpa using hhead
          simp
          omega

end Readers

/-- The characters that are not copied behind a `%`. -/
def formats (c : UInt8) : Bool := modifies c || readsArg c || c = 0x25

/-- Behind a `%` stands nothing `vsprintf` would act on. -/
def NoConversion (msg : List UInt8) : Prop :=
  msg.IsChain fun a b => a = 0x25 → formats b = false

section Copying

variable {va : VaList}

theorem noConversion_cons {c : UInt8} (hc : c ≠ 0x25) (rest : List UInt8) :
    NoConversion (c :: rest) ↔ NoConversion rest := by
  cases rest with
  | nil => simp [NoConversion]
  | cons b rest => simp [NoConversion, hc]

theorem noConversion_percent (c : UInt8) (rest : List UInt8) :
    NoConversion (0x25 :: c :: rest) ↔
      formats c = false ∧ NoConversion rest := by
  rw [NoConversion, List.isChain_cons_cons]
  constructor
  · rintro ⟨hformats, hrest⟩
    have hc : c ≠ 0x25 := by
      rintro rfl
      exact absurd (hformats rfl) (by decide)
    exact ⟨hformats rfl, (noConversion_cons hc rest).mp hrest⟩
  · rintro ⟨hformats, hrest⟩
    have hc : c ≠ 0x25 := by
      rintro rfl
      exact absurd hformats (by decide)
    exact ⟨fun _ => hformats, (noConversion_cons hc rest).mpr hrest⟩

theorem formatLoop_nil (fuel : Nat) (s : Formatted) :
    formatLoop va fuel [] s = .ok s := by
  cases fuel <;> rfl

/-- Behind a `%` a character that formats nothing is copied with it. -/
theorem convert_copies {c : UInt8} {rest : List UInt8} (s : Formatted)
    (hc : formats c = false) (hzero : c ≠ 0) :
    convert va (readDirective va (c :: rest) s.taken) s =
      .ok ({ s with out := s.out ++ [0x25, c] }, rest) := by
  simp only [formats, Bool.or_eq_false_iff, decide_eq_false_iff_not] at hc
  obtain ⟨⟨hmodifies, hreads⟩, hpercent⟩ := hc
  have hn : c ≠ 0x6E := by
    rintro rfl
    exact absurd hreads (by decide)
  have habort : aborts none c = false := rfl
  rw [readDirective_cons va hmodifies]
  rcases conversion_cases va ⟨{}, -1, -1, none, c :: rest, s.taken⟩ c
    (va.word s.taken) with ⟨_, _, htrue, _⟩ | ⟨hnone, _, _⟩
  · rw [hreads] at htrue
    cases htrue
  · simp only [convert, habort, hnone, hn, hpercent, hzero, Bool.false_eq_true,
      ↓reduceIte]

/-- A message without conversions is copied. -/
theorem formatLoop_copies {fuel : Nat} {msg : List UInt8} (s : Formatted)
    (hfuel : msg.length ≤ fuel) (hnul : 0 ∉ msg) (hmsg : NoConversion msg) :
    formatLoop va fuel msg s = .ok { s with out := s.out ++ msg } := by
  induction fuel generalizing msg s with
  | zero =>
      obtain rfl : msg = [] := List.length_eq_zero_iff.mp (by omega)
      simp [formatLoop]
  | succ fuel ih =>
      cases msg with
      | nil => simp [formatLoop]
      | cons c rest =>
          rw [List.length_cons] at hfuel
          obtain ⟨hc, hrest⟩ := not_or.mp (List.mem_cons.not.mp hnul)
          rw [formatLoop, if_neg (Ne.symm hc)]
          by_cases hpercent : c = 0x25
          · subst hpercent
            rw [if_pos rfl]
            cases rest with
            | nil =>
                have hread : readDirective va [] s.taken =
                    ⟨{}, -1, -1, none, [], s.taken⟩ := rfl
                rw [hread]
                exact formatLoop_nil fuel _
            | cons b rest =>
                rw [noConversion_percent] at hmsg
                rw [List.length_cons] at hfuel
                obtain ⟨hb, hrest⟩ := not_or.mp (List.mem_cons.not.mp hrest)
                rw [convert_copies s hmsg.1 (Ne.symm hb), FuelLoop.ok_bind]
                dsimp only
                rw [ih _ (by omega) hrest hmsg.2]
                simp
          · rw [if_neg hpercent, ih _ (by omega) hrest
              ((noConversion_cons hpercent rest).mp hmsg)]
            simp

theorem Directive.after_ge (d : Directive) : d.taken ≤ d.after := by
  unfold Directive.after
  split
  · exact le_rfl
  · split_ifs <;> omega

/-- A loop that ends has not come to a conversion that aborts. -/
theorem formatLoop_directive_ok {fuel : Nat} {rest : List UInt8}
    {s t : Formatted} (h : formatLoop va (fuel + 1) (0x25 :: rest) s = .ok t) :
    (readDirective va rest s.taken).aborts = false ∧
      formatLoop va fuel (readDirective va rest s.taken).rest
        ((readDirective va rest s.taken).add va s) = .ok t := by
  rw [formatLoop_directive] at h
  cases habort : (readDirective va rest s.taken).aborts with
  | true =>
      rw [habort] at h
      cases h
  | false =>
      rw [habort] at h
      exact ⟨rfl, h⟩

theorem formatLoop_taken {fuel : Nat} {fmt : List UInt8} {s t : Formatted}
    (h : formatLoop va fuel fmt s = .ok t) : s.taken ≤ t.taken := by
  induction fuel generalizing fmt s with
  | zero =>
      cases h
      exact le_rfl
  | succ fuel ih =>
      cases fmt with
      | nil =>
          cases h
          exact le_rfl
      | cons c rest =>
          by_cases hpercent : c = 0x25
          · subst hpercent
            have hmore := ih (formatLoop_directive_ok h).2
            have hread := (readDirective_reads va rest s.taken).taken
            have hafter := (readDirective va rest s.taken).after_ge
            exact (hread.trans hafter).trans hmore
          · rw [formatLoop, if_neg hpercent] at h
            split_ifs at h
            · cases h
              exact le_rfl
            · exact ih (s := { s with out := s.out ++ [c] }) h

theorem Directive.rest_suffix (d : Directive) : d.rest <:+ d.fmt := by
  unfold Directive.rest
  split
  · rename_i hfmt
    rw [hfmt]
  · rename_i c rest hfmt
    rw [hfmt]
    split_ifs
    · exact List.suffix_refl _
    · exact List.suffix_cons c rest

/-- A character behind the `%` that formats makes the directive longer than
what it writes, or reads an argument. -/
theorem formats_shortens {b : UInt8} {rest : List UInt8} {taken : Nat}
    (hb : formats b = true)
    (hafter : (readDirective va (b :: rest) taken).after =
      (readDirective va (b :: rest) taken).taken)
    (htaken : (readDirective va (b :: rest) taken).taken = taken) :
    (readDirective va (b :: rest) taken).length va +
      (readDirective va (b :: rest) taken).rest.length ≤ rest.length + 1 := by
  obtain ⟨hle, hpercent⟩ := Directive.text_le va _ hafter
  by_cases hmodifies : modifies b = true
  · have hfmt := (readDirective_modifier va hmodifies rest taken).length_le
    omega
  · rw [Bool.not_eq_true] at hmodifies
    rw [readDirective_cons va hmodifies] at hafter hpercent hle ⊢
    by_cases hreads : readsArg b = true
    · simp [Directive.after, hreads] at hafter
    · obtain rfl : b = 0x25 := by
        simpa [formats, hmodifies, hreads] using hb
      have hshort := hpercent rfl
      rw [List.length_cons] at hshort
      exact hshort

section Directives

variable {fmt : List UInt8} {taken : Nat}

/-- A directive that takes no argument is one that was read without any. -/
theorem readDirective_taken
    (hafter : (readDirective va fmt taken).after = taken) :
    (readDirective va fmt taken).taken = taken := by
  have hread := (readDirective_reads va fmt taken).taken
  have hge := (readDirective va fmt taken).after_ge
  exact Nat.le_antisymm (hge.trans (le_of_eq hafter)) hread

/-- Its text is not longer than the directive with its percent sign. -/
theorem readDirective_short
    (hafter : (readDirective va fmt taken).after = taken) :
    (readDirective va fmt taken).length va +
      (readDirective va fmt taken).rest.length ≤ fmt.length + 1 := by
  have htaken := readDirective_taken hafter
  have htext := (Directive.text_le va _ (hafter.trans htaken.symm)).1
  have hlength := (readDirective_reads va fmt taken).fmt.length_le
  exact htext.trans (Nat.succ_le_succ hlength)

/-- Where it is as long, the character behind the percent sign is copied. -/
theorem readDirective_plain {b : UInt8} {rest : List UInt8} (hb : b ≠ 0)
    (hafter : (readDirective va (b :: rest) taken).after = taken)
    (hsame : rest.length + 1 < (readDirective va (b :: rest) taken).length va +
      (readDirective va (b :: rest) taken).rest.length) :
    formats b = false ∧ (readDirective va (b :: rest) taken).rest = rest := by
  have htaken := readDirective_taken hafter
  have hformats : formats b = false := by
    by_contra hformats
    rw [Bool.not_eq_false] at hformats
    have hshort := formats_shortens hformats (hafter.trans htaken.symm) htaken
    exact absurd hsame (Nat.not_lt.mpr hshort)
  have hmodifies : modifies b = false := by
    simp only [formats, Bool.or_eq_false_iff] at hformats
    exact hformats.1.1
  refine ⟨hformats, ?_⟩
  rw [readDirective_cons va hmodifies]
  exact if_neg hb

end Directives

/-- Without arguments the output is at most as long as the message, and as
long only where it is copied. -/
theorem formatLength_le {fuel : Nat} {msg : List UInt8} {s t : Formatted}
    (hnul : 0 ∉ msg) (hloop : formatLoop va fuel msg s = .ok t)
    (htaken : t.taken = s.taken) :
    formatLength va fuel msg s.taken ≤ msg.length ∧
      (formatLength va fuel msg s.taken = msg.length → NoConversion msg) := by
  induction fuel generalizing msg s with
  | zero =>
      rw [formatLength]
      refine ⟨Nat.zero_le _, fun hlength => ?_⟩
      obtain rfl := List.length_eq_zero_iff.mp hlength.symm
      exact List.isChain_nil
  | succ fuel ih =>
      cases msg with
      | nil => exact ⟨le_rfl, fun _ => List.isChain_nil⟩
      | cons c rest =>
          obtain ⟨hc, hrest⟩ := not_or.mp (List.mem_cons.not.mp hnul)
          by_cases hpercent : c = 0x25
          · subst hpercent
            let d := readDirective va rest s.taken
            obtain ⟨hgoes, hbehind⟩ := formatLoop_directive_ok hloop
            have hstart : d.after ≤ t.taken := formatLoop_taken hbehind
            rw [htaken] at hstart
            have hafter : d.after = s.taken :=
              Nat.le_antisymm hstart
                ((readDirective_reads va rest s.taken).taken.trans d.after_ge)
            have hsuffix : d.rest <:+ rest :=
              d.rest_suffix.trans (readDirective_reads va rest s.taken).fmt
            obtain ⟨hle, heq⟩ : formatLength va fuel d.rest d.after ≤
                d.rest.length ∧ (formatLength va fuel d.rest d.after =
                  d.rest.length → NoConversion d.rest) :=
              ih (fun hmem => hrest (hsuffix.subset hmem)) hbehind
                (htaken.trans hafter.symm)
            have hshort : d.length va + d.rest.length ≤ rest.length + 1 :=
              readDirective_short hafter
            have hcolumns : formatLength va (fuel + 1) (0x25 :: rest) s.taken =
                d.length va + formatLength va fuel d.rest d.after := by
              rw [formatLength_directive, hgoes]
              rfl
            rw [hcolumns, List.length_cons]
            refine ⟨by omega, fun hsame => ?_⟩
            cases rest with
            | nil => exact List.isChain_singleton _
            | cons b rest =>
                obtain ⟨hzero, -⟩ := not_or.mp (List.mem_cons.not.mp hrest)
                rw [List.length_cons] at hsame hshort
                obtain ⟨hb, hdrest⟩ := readDirective_plain (Ne.symm hzero) hafter
                  (show rest.length + 1 < d.length va + d.rest.length by omega)
                rw [noConversion_percent]
                refine ⟨hb, ?_⟩
                rw [← hdrest]
                exact heq (by omega)
          · rw [formatLoop, if_neg (Ne.symm hc), if_neg hpercent] at hloop
            obtain ⟨hle, heq⟩ : formatLength va fuel rest s.taken ≤ rest.length ∧
                (formatLength va fuel rest s.taken = rest.length →
                  NoConversion rest) :=
              ih (s := { s with out := s.out ++ [c] }) hrest hloop htaken
            rw [formatLength, if_neg (Ne.symm hc), if_neg hpercent,
              List.length_cons]
            refine ⟨by omega, fun hlength => ?_⟩
            exact (noConversion_cons hpercent rest).mpr (heq (by omega))

end Copying

end Linda
