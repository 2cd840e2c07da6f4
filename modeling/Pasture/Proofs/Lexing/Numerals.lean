import Mathlib.Tactic.IntervalCases
import Pasture.Decimal.Reading
import Pasture.Proofs.Lexing.Alone

/-! # The grammar and the values of numerals

A numeral is read exactly if it is proper and the text behind it does not go on with it. Without its
underscores a proper numeral is a number as people write them, and the readers of free text give it
the value that it denotes.
-/
namespace Pasture.Text

theorem mem_of_isDigit {c : Char} (h : c.isDigit) :
    c ∈ ['0', '1', '2', '3', '4', '5', '6', '7', '8', '9'] := by
  have hc : c = Char.ofNat c.toNat := (Char.ofNat_toNat c).symm
  have hrange : 48 ≤ c.toNat ∧ c.toNat ≤ 57 := by
    simpa [Char.isDigit, UInt32.le_iff_toNat_le] using h
  obtain ⟨hlow, hhigh⟩ := hrange
  generalize c.toNat = n at hc hlow hhigh
  subst hc
  interval_cases n <;> decide

/-- What holds of the ten digits holds of every digit. -/
theorem of_isDigit {c : Char} {p : Char → Bool}
    (hp : ['0', '1', '2', '3', '4', '5', '6', '7', '8', '9'].all p) (hc : c.isDigit) : p c :=
  List.all_eq_true.1 hp c (mem_of_isDigit hc)

/-- The characters of numbers, signs included, are no blanks and stand for themselves. -/
theorem plain_of_number {c : Char} (h : c.isDigit ∨ c ∈ ['.', 'e', 'E', '+', '-']) :
    isBlank c = false ∧ plainDigit c = c := by
  have hplain : (!isBlank c && plainDigit c == c) = true := by
    rcases h with hdigit | hmark
    · exact of_isDigit (p := fun d => !isBlank d && plainDigit d == d) (by decide) hdigit
    · have hmarks : ['.', 'e', 'E', '+', '-'].all fun d => !isBlank d && plainDigit d == d := by
        decide
      exact List.all_eq_true.1 hmarks c hmark
  simpa using hplain

theorem trimBlank_of_solid {text : List Char} (h : ∀ c ∈ text, isBlank c = false) :
    trimBlank text = text := by
  have hdrop : ∀ cs : List Char, (∀ c ∈ cs, isBlank c = false) → cs.dropWhile isBlank = cs := by
    intro cs hcs
    cases cs with
    | nil => rfl
    | cons c cs => exact List.dropWhile_cons_of_neg (by simp [hcs c List.mem_cons_self])
  have hreverse : ∀ c ∈ text.reverse, isBlank c = false := fun c hc => h c (List.mem_reverse.1 hc)
  rw [trimBlank, hdrop text h, hdrop text.reverse hreverse, List.reverse_reverse]

end Pasture.Text

namespace Pasture.Decimal

variable {digits more : List Char}

theorem signAt_of_not_sign {cs : List Char} (h : ∀ c ∈ cs.head?, c ≠ '-' ∧ c ≠ '+') :
    signAt cs = (false, cs) := by
  unfold signAt
  split
  · exact absurd rfl (h '-' rfl).1
  · exact absurd rfl (h '+' rfl).2
  · rfl

def EndsRun (text : List Char) : Prop := ∀ c ∈ text.head?, c.isDigit = false ∧ c ≠ '_'

theorem digitRun?_cons {c : Char} {cs : List Char} (hc : c.isDigit) (hcs : cs.head? ≠ some '_') :
    digitRun? (c :: cs) = some (match digitRun? cs with
      | some (ds, r) => (c :: ds, r)
      | none => ([c], cs)) := by
  rw [digitRun?.eq_def]
  split
  · contradiction
  · rename_i heq
    cases heq
    simp at hcs
  · rename_i heq
    cases heq
    rw [if_pos hc]
    split <;> simp_all

theorem digitRun?_none (h : EndsRun more) : digitRun? more = none := by
  rw [digitRun?.eq_def]
  split
  · rfl
  · have hd := (h _ rfl).1
    simp [hd]
  · have hd := (h _ rfl).1
    simp [hd]

/-- A run of digits and what follows it, also if the run is empty. -/
theorem digitRun?_getD (hdigits : ∀ c ∈ digits, c.isDigit) (hmore : EndsRun more) :
    (digitRun? (digits ++ more)).getD ([], digits ++ more) = (digits, more) ∧
      (digits ≠ [] → digitRun? (digits ++ more) = some (digits, more)) := by
  induction digits with
  | nil =>
    rw [List.nil_append, digitRun?_none hmore]
    exact ⟨rfl, fun h => absurd rfl h⟩
  | cons d ds ih =>
    obtain ⟨hd, hds⟩ := List.forall_mem_cons.1 hdigits
    have hnext : (ds ++ more).head? ≠ some '_' := by
      intro hhead
      cases ds with
      | nil => exact (hmore '_' hhead).2 rfl
      | cons e es =>
        cases hhead
        exact absurd (hds '_' List.mem_cons_self) (by decide)
    have hrun : digitRun? (d :: (ds ++ more)) = some (d :: ds, more) := by
      rw [digitRun?_cons hd hnext]
      by_cases hempty : ds = []
      · subst hempty
        rw [List.nil_append, digitRun?_none hmore]
      · rw [(ih hds).2 hempty]
    constructor
    · rw [List.cons_append, hrun]
      rfl
    · intro _
      exact hrun

theorem digitRun?_all (hdigits : ∀ c ∈ digits, c.isDigit) (hne : digits ≠ []) :
    digitRun? digits = some (digits, []) := by
  have hrun := (digitRun?_getD hdigits (show EndsRun [] from nofun)).2 hne
  rwa [List.append_nil] at hrun

theorem unsigned?_whole {whole : List Char} (negative : Bool) (hwhole : ∀ c ∈ whole, c.isDigit)
    (hne : whole ≠ []) (hmore : EndsRun more) (hpoint : more.head? ≠ some '.') :
    unsigned? negative (whole ++ more) = (exponentPart? more).map fun e =>
      .ofDecimal negative (Nat.ofDigitChars 10 whole 0) e := by
  have hrun := (digitRun?_getD hwhole hmore).1
  unfold unsigned?
  rw [hrun]
  simp only
  split
  · exact absurd rfl hpoint
  · simp [hne]

theorem unsigned?_point {whole fraction : List Char} (negative : Bool)
    (hwhole : ∀ c ∈ whole, c.isDigit) (hfraction : ∀ c ∈ fraction, c.isDigit)
    (hne : whole ≠ [] ∨ fraction ≠ []) (hmore : EndsRun more) :
    unsigned? negative (whole ++ '.' :: (fraction ++ more)) = (exponentPart? more).map fun e =>
      .ofDecimal negative (Nat.ofDigitChars 10 (whole ++ fraction) 0) (e - fraction.length) := by
  have hpoint : EndsRun ('.' :: (fraction ++ more)) := by
    rintro c ⟨⟩
    decide
  have hrun := (digitRun?_getD hwhole hpoint).1
  have hrun' := (digitRun?_getD hfraction hmore).1
  have hsome : (whole.isEmpty && fraction.isEmpty) = false := by
    rcases hne with h | h <;> simp [h]
  unfold unsigned?
  rw [hrun]
  simp only [hrun', hsome, Bool.false_eq_true, if_false]

end Pasture.Decimal

namespace Pasture.Lexing

structure Exponent.Proper (e : Exponent) : Prop where
  mark : e.mark = 'e' ∨ e.mark = 'E'
  sign : ∀ c ∈ e.sign, c = '+' ∨ c = '-'
  run : ∀ c ∈ e.run, isRunChar c
  digit : e.run.any Char.isDigit

/-- The number grammar: runs of digits and underscores in their places, with a digit at the start or
behind a point at the start. -/
structure Numeral.Proper (n : Numeral) : Prop where
  whole : ∀ c ∈ n.whole, isRunChar c
  fraction : ∀ run ∈ n.fraction, ∀ c ∈ run, isRunChar c
  exponent : ∀ e ∈ n.exponent, e.Proper
  start : n.whole.head?.any Char.isDigit ∨
    n.whole = [] ∧ ∃ run ∈ n.fraction, run.head?.any Char.isDigit

def StartsNumber (text : List Char) : Prop :=
  ∃ c cs, text = c :: cs ∧ (c.isDigit ∨ c = '.' ∧ cs.head?.any Char.isDigit)

def EndsNumber (text : List Char) : Prop :=
  ∀ c ∈ text.head?, isRunChar c = false ∧ c ≠ '.' ∧ c ≠ 'e' ∧ c ≠ 'E'

namespace Numeral

variable {cs rest : List Char} {n m : Numeral}

theorem isRunChar_of_isDigit {c : Char} (h : c.isDigit) : isRunChar c := by
  simp [isRunChar, h]

theorem withExponent_proper (hn : n.exponent = none) (h : withExponent n cs = .ok (m, rest)) :
    ∀ e ∈ m.exponent, e.Proper := by
  have hnone : ∀ e ∈ n.exponent, e.Proper := by simp [hn]
  cases cs with
  | nil =>
    cases h
    exact hnone
  | cons c cs =>
    simp only [withExponent] at h
    split at h
    · rename_i hmark
      split at h
      · rename_i hdigit
        cases h
        rintro e ⟨⟩
        constructor
        · exact hmark
        · intro s hs
          unfold signAt at hs
          split at hs
          · exact .inl (Option.some.inj hs).symm
          · exact .inr (Option.some.inj hs).symm
          · cases hs
        · exact mem_takeWhile_run
        · exact hdigit
      · cases h
    · cases h
      exact hnone

/-- What is read where a number starts is proper. -/
theorem read_proper (hstart : StartsNumber cs) (h : read cs = .ok (n, rest)) : n.Proper := by
  obtain ⟨c, cs, rfl, hc⟩ := hstart
  unfold read at h
  split at h
  · rename_i after hpoint
    split at h
    · cases h
    · obtain ⟨hwhole, hfraction⟩ := withExponent_keeps h
      constructor
      · rw [hwhole]
        exact mem_takeWhile_run
      · rw [hfraction]
        rintro run ⟨⟩
        exact mem_takeWhile_run
      · exact withExponent_proper rfl h
      · rw [hwhole, hfraction]
        rcases hc with hc | ⟨rfl, hnext⟩
        · left
          simp [isRunChar_of_isDigit hc, hc]
        · right
          have hfirst : isRunChar '.' = false := by decide
          simp only [List.dropWhile_cons, hfirst, Bool.false_eq_true, if_false, List.cons.injEq,
            true_and] at hpoint
          subst hpoint
          obtain ⟨d, hd, hdigit⟩ := (Option.any_eq_true _ _).1 hnext
          obtain ⟨ds, rfl⟩ := List.head?_eq_some_iff.1 hd
          simp [hfirst, isRunChar_of_isDigit hdigit, hdigit]
  · rename_i hpoint
    obtain ⟨hwhole, hfraction⟩ := withExponent_keeps h
    constructor
    · rw [hwhole]
      exact mem_takeWhile_run
    · rw [hfraction]
      nofun
    · exact withExponent_proper rfl h
    · rw [hwhole]
      rcases hc with hc | ⟨rfl, -⟩
      · left
        simp [isRunChar_of_isDigit hc, hc]
      · exact absurd (List.dropWhile_cons_of_neg (by decide)) (hpoint cs)

/-- The text of a proper numeral starts as a number does. -/
theorem Proper.starts (hn : n.Proper) : StartsNumber n.text := by
  rcases hn.start with hstart | ⟨hwhole, run, hrun, hstart⟩
  · obtain ⟨c, hc, hdigit⟩ := (Option.any_eq_true _ _).1 hstart
    obtain ⟨cs, hcs⟩ := List.head?_eq_some_iff.1 hc
    exact ⟨c, _, by rw [text, hcs, List.cons_append, List.cons_append], .inl hdigit⟩
  · refine ⟨'.', run ++ (n.exponent.map Exponent.text).getD [], ?_, .inr ⟨rfl, ?_⟩⟩
    · simp [text, hwhole, Option.mem_def.1 hrun]
    · obtain ⟨c, hc, hdigit⟩ := (Option.any_eq_true _ _).1 hstart
      obtain ⟨cs, rfl⟩ := List.head?_eq_some_iff.1 hc
      simpa using hdigit

theorem signAt_of_not_sign (h : ∀ c ∈ cs.head?, isRunChar c) : signAt cs = (none, cs) := by
  unfold signAt
  split
  · exact absurd (h '+' rfl) (by decide)
  · exact absurd (h '-' rfl) (by decide)
  · rfl

theorem signAt_text {e : Exponent} (he : e.Proper) :
    signAt (e.sign.toList ++ (e.run ++ rest)) = (e.sign, e.run ++ rest) := by
  cases hs : e.sign with
  | none =>
    refine signAt_of_not_sign fun c hc => ?_
    obtain ⟨d, hd, -⟩ := List.any_eq_true.1 he.digit
    cases hrun : e.run with
    | nil => simp [hrun] at hd
    | cons f run =>
      simp only [Option.toList_none, hrun, List.nil_append, List.cons_append, List.head?_cons,
        Option.mem_def, Option.some.injEq] at hc
      exact he.run c (by simp [hrun, hc])
  | some s =>
    rcases he.sign s hs with rfl | rfl <;> rfl

theorem withExponent_text {e : Exponent} (he : e.Proper)
    (hrest : ∀ c ∈ rest.head?, isRunChar c = false) :
    withExponent n (e.text ++ rest) = .ok ({ n with exponent := some e }, rest) := by
  obtain ⟨htake, hdrop⟩ := run_append he.run hrest
  simp only [Exponent.text, List.cons_append, List.append_assoc, withExponent, he.mark, if_true,
    signAt_text he, htake, hdrop, he.digit]

/-- What may follow the digits of a numeral: an exponent, or what ends the numeral. -/
theorem exponent_head (hn : n.Proper) (hrest : EndsNumber rest) :
    ∀ c ∈ ((n.exponent.map Exponent.text).getD [] ++ rest).head?,
      isRunChar c = false ∧ c ≠ '.' := by
  cases he : n.exponent with
  | none =>
    intro c hc
    obtain ⟨hrun, hpoint, -⟩ := hrest c hc
    exact ⟨hrun, hpoint⟩
  | some e =>
    rintro c ⟨⟩
    rcases (hn.exponent e he).mark with hmark | hmark <;> rw [hmark] <;> decide

theorem withExponent_proper_text (hn : n.Proper) (hrest : EndsNumber rest) :
    withExponent { n with exponent := none } ((n.exponent.map Exponent.text).getD [] ++ rest) =
      .ok (n, rest) := by
  obtain ⟨whole, fraction, exponent⟩ := n
  cases exponent with
  | none =>
    refine withExponent_none fun c hc => ?_
    obtain ⟨-, -, hmark⟩ := hrest c hc
    exact hmark
  | some e => exact withExponent_text (hn.exponent e rfl) fun c hc => (hrest c hc).1

/-- A proper numeral is read wherever the text behind it does not go on with it. -/
theorem read_text (hn : n.Proper) (hrest : EndsNumber rest) :
    read (n.text ++ rest) = .ok (n, rest) := by
  have hexponent := withExponent_proper_text hn hrest
  have hhead := exponent_head hn hrest
  have hnotRun := fun c hc => (hhead c hc).1
  cases hf : n.fraction with
  | none =>
    obtain ⟨htake, hdrop⟩ := run_append hn.whole hnotRun
    simp only [text, hf, Option.map_none, Option.getD_none, List.append_nil, List.append_assoc,
      read, htake, hdrop]
    split
    · rename_i hpoint
      rw [hpoint] at hhead
      exact absurd rfl (hhead '.' rfl).2
    · rw [← hf]
      exact hexponent
  | some run =>
    have hpoint : ∀ more : List Char, ∀ c ∈ ('.' :: more).head?, isRunChar c = false := by
      rintro more c ⟨⟩
      decide
    obtain ⟨htake, hdrop⟩ := run_append hn.whole
      (hpoint (run ++ ((n.exponent.map Exponent.text).getD [] ++ rest)))
    obtain ⟨htake', hdrop'⟩ := run_append (hn.fraction run hf) hnotRun
    simp only [text, hf, Option.map_some, Option.getD_some, List.append_assoc, List.cons_append,
      read, htake, hdrop, htake', hdrop']
    split
    · rename_i hsecond
      rw [hsecond] at hhead
      exact absurd rfl (hhead '.' rfl).2
    · rw [← hf]
      exact hexponent

end Numeral

/-! ### Values -/

theorem filter_run {run : List Char} (h : ∀ c ∈ run, isRunChar c) :
    run.filter (· ≠ '_') = digitsOf run := by
  apply List.filter_congr
  intro c hc
  have hrun := h c hc
  by_cases hscore : c = '_'
  · subst hscore
    decide
  · have hdigit : c.isDigit := by simpa [isRunChar, hscore] using hrun
    simp [hscore, hdigit]

theorem isDigit_of_mem_digitsOf {run : List Char} : ∀ c ∈ digitsOf run, c.isDigit := by
  intro c hc
  exact (List.mem_filter.1 hc).2

theorem digitsOf_ne_nil {run : List Char} (h : run.any Char.isDigit) : digitsOf run ≠ [] := by
  obtain ⟨c, hc, hdigit⟩ := List.any_eq_true.1 h
  exact List.ne_nil_of_mem (List.mem_filter.2 ⟨hc, hdigit⟩)

theorem digitsOf_ne_nil_of_head {run : List Char} (h : run.head?.any Char.isDigit) :
    digitsOf run ≠ [] := by
  obtain ⟨c, hc, hdigit⟩ := (Option.any_eq_true _ _).1 h
  exact digitsOf_ne_nil (List.any_eq_true.2 ⟨c, List.mem_of_head? hc, hdigit⟩)

def Exponent.plain (e : Exponent) : List Char := e.mark :: e.sign.toList ++ digitsOf e.run

theorem Exponent.Proper.filter_text {e : Exponent} (he : e.Proper) :
    e.text.filter (· ≠ '_') = e.plain := by
  have hmark : e.mark ≠ '_' := by
    rcases he.mark with h | h <;> rw [h] <;> decide
  have hsign : e.sign.toList.filter (· ≠ '_') = e.sign.toList := by
    cases hs : e.sign with
    | none => rfl
    | some s => rcases he.sign s hs with rfl | rfl <;> rfl
  simp only [text, plain, List.cons_append, List.filter_cons, List.filter_append, hsign,
    filter_run he.run, hmark, ne_eq, not_false_eq_true, decide_true, if_true]

theorem Exponent.Proper.exponentPart? {e : Exponent} (he : e.Proper) :
    Decimal.exponentPart? e.plain = some e.value := by
  have hrun := Decimal.digitRun?_all isDigit_of_mem_digitsOf (digitsOf_ne_nil he.digit)
  have hsign : Decimal.signAt (e.sign.toList ++ digitsOf e.run) =
      (decide (e.sign = some '-'), digitsOf e.run) := by
    cases hs : e.sign with
    | none =>
      refine Decimal.signAt_of_not_sign fun c hc => ?_
      have hdigit := isDigit_of_mem_digitsOf c (List.mem_of_head? hc)
      constructor <;> rintro rfl <;> exact absurd hdigit (by decide)
    | some s => rcases he.sign s hs with rfl | rfl <;> rfl
  simp only [plain, List.cons_append, Decimal.exponentPart?, he.mark, if_true, hsign, hrun]
  simp [Decimal.integerOf, value, valueOf]

namespace Numeral

variable {n : Numeral}

def plain (n : Numeral) : List Char := n.text.filter (· ≠ '_')

/-- What the readers of free text make of the plain text. -/
def converted? (n : Numeral) : Option Literal :=
  if n.fraction.isNone && n.exponent.isNone then
    (Decimal.integerDigits? (String.ofList n.plain)).map fun (negative, digits) =>
      .integer (Decimal.integerOf negative digits)
  else (Decimal.binary64? (String.ofList n.plain)).map .float

theorem Proper.plain_eq (hn : n.Proper) :
    n.plain = digitsOf n.whole ++ ((n.fraction.map fun run => '.' :: digitsOf run).getD [] ++
      (n.exponent.map Exponent.plain).getD []) := by
  have hfraction : ((n.fraction.map ('.' :: ·)).getD []).filter (· ≠ '_') =
      (n.fraction.map fun run => '.' :: digitsOf run).getD [] := by
    cases hf : n.fraction with
    | none => rfl
    | some run => simpa using filter_run (hn.fraction run hf)
  have hexponent : ((n.exponent.map Exponent.text).getD []).filter (· ≠ '_') =
      (n.exponent.map Exponent.plain).getD [] := by
    cases he : n.exponent with
    | none => rfl
    | some e => exact (hn.exponent e he).filter_text
  rw [plain, text, List.filter_append, List.filter_append, filter_run hn.whole, hfraction,
    hexponent, List.append_assoc]

/-- The plain text starts with a digit or a point. -/
theorem Proper.plain_first (hn : n.Proper) :
    ∃ c ∈ n.plain.head?, c.isDigit ∨ c = '.' := by
  rw [hn.plain_eq]
  rcases hn.start with hstart | ⟨hwhole, run, hrun, -⟩
  · obtain ⟨c, hc, hdigit⟩ := (Option.any_eq_true _ _).1 hstart
    obtain ⟨cs, hcs⟩ := List.head?_eq_some_iff.1 hc
    exact ⟨c, by simp [hcs, digitsOf, hdigit], .inl hdigit⟩
  · exact ⟨'.', by simp [hwhole, digitsOf, Option.mem_def.1 hrun], .inr rfl⟩

theorem Proper.plain_number (hn : n.Proper) :
    ∀ c ∈ n.plain, c.isDigit ∨ c ∈ ['.', 'e', 'E', '+', '-'] := by
  rw [hn.plain_eq]
  intro c hc
  rcases List.mem_append.1 hc with hc | hc
  · exact .inl (isDigit_of_mem_digitsOf c hc)
  rcases List.mem_append.1 hc with hc | hc
  · cases hf : n.fraction with
    | none => simp [hf] at hc
    | some run =>
      simp only [hf, Option.map_some, Option.getD_some, List.mem_cons] at hc
      rcases hc with rfl | hc
      · right
        decide
      · exact .inl (isDigit_of_mem_digitsOf c hc)
  · cases he : n.exponent with
    | none => simp [he] at hc
    | some e =>
      have hproper := hn.exponent e he
      simp only [he, Option.map_some, Option.getD_some, Exponent.plain, List.cons_append,
        List.mem_cons, List.mem_append, Option.mem_toList] at hc
      rcases hc with rfl | hc | hc
      · right
        rcases hproper.mark with h | h <;> rw [h] <;> decide
      · right
        rcases hproper.sign c hc with rfl | rfl <;> decide
      · exact .inl (isDigit_of_mem_digitsOf c hc)

/-- The readers of free text find no sign, no blanks and no digits of another script. -/
theorem Proper.signed_plain (hn : n.Proper) :
    Decimal.signed (String.ofList n.plain) = (false, n.plain) := by
  have hplain := fun c hc => Text.plain_of_number (hn.plain_number c hc)
  have htrim := Text.trimBlank_of_solid fun c hc => (hplain c hc).1
  have hmap : n.plain.map Text.plainDigit = n.plain :=
    (List.map_congr_left fun c hc => (hplain c hc).2).trans (List.map_id' _)
  rw [Decimal.signed, String.toList_ofList, htrim, hmap]
  refine Decimal.signAt_of_not_sign fun c hc => ?_
  obtain ⟨d, hd, hfirst⟩ := hn.plain_first
  obtain rfl : d = c := Option.some.inj (hd.symm.trans hc)
  constructor <;> rintro rfl <;> exact absurd hfirst (by decide)

/-- Without a fraction there are digits in front. -/
theorem Proper.whole_digits (hn : n.Proper) (hf : n.fraction = none) : digitsOf n.whole ≠ [] := by
  rcases hn.start with hstart | ⟨-, run, hrun, -⟩
  · exact digitsOf_ne_nil_of_head hstart
  · simp [hf] at hrun

/-- A numeral without point and exponent is read as its digits tell. -/
theorem Proper.integerDigits? (hn : n.Proper) (hf : n.fraction = none) (he : n.exponent = none) :
    Decimal.integerDigits? (String.ofList n.plain) = some (false, digitsOf n.whole) := by
  have hplain : n.plain = digitsOf n.whole := by
    rw [hn.plain_eq, hf, he]
    simp
  have hrun := Decimal.digitRun?_all isDigit_of_mem_digitsOf (hn.whole_digits hf)
  unfold Decimal.integerDigits?
  rw [hn.signed_plain, hplain]
  simp only [hrun]

/-- A plain text is none of the words for what is no finite number. -/
theorem Proper.plain_ne_word (hn : n.Proper) (word : List Char) (hword : word.head? = some 'i' ∨
    word.head? = some 'n') : String.ofList (n.plain.map Char.toLower) ≠ String.ofList word := by
  intro h
  have hmap : n.plain.map Char.toLower = word := by simpa using congrArg String.toList h
  obtain ⟨c, hc, hfirst⟩ := hn.plain_first
  have hhead : word.head? = some c.toLower := by
    rw [← hmap, List.head?_map, Option.mem_def.1 hc, Option.map_some]
  obtain ⟨hi, hn⟩ : c.toLower ≠ 'i' ∧ c.toLower ≠ 'n' := by
    rcases hfirst with hdigit | rfl
    · simpa using Text.of_isDigit (p := fun d => d.toLower != 'i' && d.toLower != 'n')
        (by decide) hdigit
    · decide
  rw [hhead, Option.some.injEq, Option.some.injEq] at hword
  rcases hword with h | h
  · exact hi h
  · exact hn h

def nearest (n : Numeral) : Binary64 :=
  .ofDecimal false (valueOf (digitsOf n.whole ++ digitsOf (n.fraction.getD [])))
    ((n.exponent.map Exponent.value).getD 0 - (digitsOf (n.fraction.getD [])).length)

theorem literal_marked (hmarked : n.fraction ≠ none ∨ n.exponent ≠ none) :
    n.literal = .ok (.float n.nearest) := by
  unfold literal
  split
  · rename_i hf he
    rcases hmarked with h | h
    · exact absurd hf h
    · exact absurd he h
  · rfl

theorem Proper.unsigned? (hn : n.Proper) : Decimal.unsigned? false n.plain = some n.nearest := by
  have hpower : Decimal.exponentPart? ((n.exponent.map Exponent.plain).getD []) =
      some ((n.exponent.map Exponent.value).getD 0) := by
    cases he : n.exponent with
    | none => rfl
    | some e => exact (hn.exponent e he).exponentPart?
  have hmark : ∀ c ∈ ((n.exponent.map Exponent.plain).getD []).head?, c = 'e' ∨ c = 'E' := by
    cases he : n.exponent with
    | none => nofun
    | some e =>
      rintro c ⟨⟩
      exact (hn.exponent e he).mark
  have hends : Decimal.EndsRun ((n.exponent.map Exponent.plain).getD []) := by
    intro c hc
    rcases hmark c hc with rfl | rfl <;> decide
  rw [hn.plain_eq, nearest]
  cases hf : n.fraction with
  | none =>
    have hpoint : ((n.exponent.map Exponent.plain).getD []).head? ≠ some '.' := by
      intro h
      rcases hmark '.' h with h | h <;> cases h
    rw [Option.map_none, Option.getD_none, List.nil_append,
      Decimal.unsigned?_whole false isDigit_of_mem_digitsOf (hn.whole_digits hf) hends hpoint,
      hpower]
    simp [digitsOf, valueOf]
  | some run =>
    have hstart : digitsOf n.whole ≠ [] ∨ digitsOf run ≠ [] := by
      rcases hn.start with hstart | ⟨-, run', hrun, hstart⟩
      · exact .inl (digitsOf_ne_nil_of_head hstart)
      · rw [hf] at hrun
        cases hrun
        exact .inr (digitsOf_ne_nil_of_head hstart)
    rw [Option.map_some, Option.getD_some, List.cons_append,
      Decimal.unsigned?_point false isDigit_of_mem_digitsOf isDigit_of_mem_digitsOf hstart hends,
      hpower]
    rfl

/-- The reader of decimals takes the plain text of any proper numeral. -/
theorem Proper.binary64? (hn : n.Proper) :
    Decimal.binary64? (String.ofList n.plain) = some n.nearest := by
  have hinf := hn.plain_ne_word ['i', 'n', 'f'] (.inl rfl)
  have hinfinity := hn.plain_ne_word ['i', 'n', 'f', 'i', 'n', 'i', 't', 'y'] (.inl rfl)
  have hnan := hn.plain_ne_word ['n', 'a', 'n'] (.inr rfl)
  unfold Decimal.binary64?
  rw [hn.signed_plain]
  simp only
  rw [if_neg (not_or.2 ⟨hinf, hinfinity⟩), if_neg hnan, hn.unsigned?]

/-- A proper numeral has a value, and where it denotes a literal it denotes this one. -/
theorem Proper.converted (hn : n.Proper) :
    ∃ l, n.converted? = some l ∧ ∀ k, n.literal = .ok k → k = l := by
  by_cases hplain : n.fraction = none ∧ n.exponent = none
  · obtain ⟨hf, he⟩ := hplain
    refine ⟨.integer (valueOf (digitsOf n.whole)), ?_, ?_⟩
    · simp [converted?, hf, he, hn.integerDigits? hf he, Decimal.integerOf, valueOf]
    · intro k hk
      simp only [literal, hf, he] at hk
      split at hk
      · cases hk
      · split at hk
        · cases hk
        · cases hk
          rfl
  · have hmarked : n.fraction ≠ none ∨ n.exponent ≠ none := not_and_or.1 hplain
    have hnot : ¬(n.fraction.isNone && n.exponent.isNone) = true := by simpa using hplain
    refine ⟨.float n.nearest, ?_, ?_⟩
    · rw [converted?, if_neg hnot, hn.binary64?, Option.map_some]
    · intro k hk
      rw [literal_marked hmarked] at hk
      cases hk
      rfl

end Numeral

end Pasture.Lexing
