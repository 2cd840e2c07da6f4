import Mathlib.Data.List.Basic
import Pasture.Proofs.Lexing.Lexemes

/-! # The parts of a number

Where a number starts, the longest mantissa is taken, and the exponent behind it if there is one.
What these two denote is the number, unless one of three faults is found.
-/
namespace Pasture.Lexing

structure LongestFront (P : List Char → Prop) (front text : List Char) : Prop where
  is : P front
  starts : front <+: text
  longest : ∀ other, P other → other <+: text → other <+: front

/-- A run that starts with a digit, perhaps with a point and a second run behind it, or a point with
such a run behind it. -/
inductive IsMantissa : List Char → Prop where
  | whole {d run} : d.isDigit → (∀ c ∈ run, isRunChar c) → IsMantissa (d :: run)
  | pointed {d run part} : d.isDigit → (∀ c ∈ run, isRunChar c) → (∀ c ∈ part, isRunChar c) →
      IsMantissa (d :: run ++ '.' :: part)
  | point {d run} : d.isDigit → (∀ c ∈ run, isRunChar c) → IsMantissa ('.' :: d :: run)

/-- The exponent in front of `rest`, which is empty where none starts: a mark, a sign if one comes
next, and all that follows of a run. -/
inductive PowerBefore (rest : List Char) : List Char → Prop where
  | absent : (∀ c ∈ rest.head?, c ≠ 'e' ∧ c ≠ 'E') → PowerBefore rest []
  | unsigned {mark run} : mark = 'e' ∨ mark = 'E' →
      (∀ c ∈ (run ++ rest).head?, c ≠ '+' ∧ c ≠ '-') → (∀ c ∈ run, isRunChar c) →
      (∀ c ∈ rest.head?, isRunChar c = false) → PowerBefore rest (mark :: run)
  | signed {mark sign run} : mark = 'e' ∨ mark = 'E' → sign = '+' ∨ sign = '-' →
      (∀ c ∈ run, isRunChar c) → (∀ c ∈ rest.head?, isRunChar c = false) →
      PowerBefore rest (mark :: sign :: run)

/-- What is refused where a number starts: the cause, and what stands between the start and the
place of the fault. -/
inductive Refused (mantissa power rest : List Char) : LexicalCause → List Char → Prop where
  | extraPoint : '.' ∈ mantissa → (power ++ rest).head? = some '.' →
      Refused mantissa power rest .extraPoint mantissa
  | missingExponent : power ≠ [] → (∀ c ∈ power, c.isDigit = false) →
      Refused mantissa power rest .missingExponent (mantissa ++ power)
  | outOfRange : '.' ∉ mantissa → power = [] →
      2 ^ 63 - 1 < valueOf (mantissa.filter (· ≠ '_')) →
      Refused mantissa power rest (.outOfRange (mantissa.filter (· ≠ '_'))) []

inductive IsDecimalPower : List Char → Prop where
  | absent : IsDecimalPower []
  | present {mark sign digits} : mark = 'e' ∨ mark = 'E' → sign ∈ [[], ['+'], ['-']] →
      digits ≠ [] → (∀ c ∈ digits, c.isDigit) → IsDecimalPower (mark :: sign ++ digits)

inductive IsDecimal : List Char → Prop where
  | whole {digits power} : digits ≠ [] → (∀ c ∈ digits, c.isDigit) → IsDecimalPower power →
      IsDecimal (digits ++ power)
  | pointed {digits part power} : digits ≠ [] ∨ part ≠ [] → (∀ c ∈ digits, c.isDigit) →
      (∀ c ∈ part, c.isDigit) → IsDecimalPower power → IsDecimal (digits ++ '.' :: part ++ power)

/-- The number that is written by a mantissa and an exponent: with neither point nor exponent the
integer with these digits, and otherwise what the text without underscores is converted to. -/
inductive Denotes (mantissa power : List Char) : Literal → Prop where
  | integer : '.' ∉ mantissa → power = [] →
      Denotes mantissa power (.integer (valueOf (mantissa.filter (· ≠ '_'))))
  | float {x} : '.' ∈ mantissa ∨ power ≠ [] → IsDecimal ((mantissa ++ power).filter (· ≠ '_')) →
      Decimal.binary64? (String.ofList ((mantissa ++ power).filter (· ≠ '_'))) = some x →
      Denotes mantissa power (.float x)

section

variable {cause : LexicalCause} {rest mantissa power before : List Char}

theorem PowerBefore.head (h : PowerBefore rest power) :
    ∀ c ∈ power.head?, c = 'e' ∨ c = 'E' := by
  cases h with
  | absent => nofun
  | unsigned hmark | signed hmark =>
    rintro c ⟨⟩
    exact hmark

theorem PowerBefore.no_point (h : PowerBefore rest power) (hne : power ≠ []) :
    (power ++ rest).head? ≠ some '.' := by
  intro hpoint
  rw [List.head?_append_of_ne_nil _ hne] at hpoint
  rcases h.head '.' hpoint with hc | hc <;> cases hc

/-- A number has at most one fault. -/
theorem Refused.unique {cause' : LexicalCause} {before' : List Char}
    (hpower : PowerBefore rest power) (h : Refused mantissa power rest cause before)
    (k : Refused mantissa power rest cause' before') : cause = cause' ∧ before = before' := by
  cases h with
  | extraPoint hmantissa hhead =>
    cases k with
    | extraPoint => exact ⟨rfl, rfl⟩
    | missingExponent hne => exact absurd hhead (hpower.no_point hne)
    | outOfRange hnone => exact absurd hmantissa hnone
  | missingExponent hne =>
    cases k with
    | extraPoint _ hhead => exact absurd hhead (hpower.no_point hne)
    | missingExponent => exact ⟨rfl, rfl⟩
    | outOfRange _ hnil => exact absurd hnil hne
  | outOfRange hnone hnil =>
    cases k with
    | extraPoint hmantissa => exact absurd hmantissa hnone
    | missingExponent hne => exact absurd hnil hne
    | outOfRange => exact ⟨rfl, rfl⟩

theorem Refused.not_atEnd (h : Refused mantissa power rest cause before) :
    cause.atEnd = false := by
  cases h <;> rfl

end

namespace Numeral

variable {n m : Numeral} {cs rest tail : List Char}

def mantissa (n : Numeral) : List Char := n.whole ++ (n.fraction.map ('.' :: ·)).getD []

def power (n : Numeral) : List Char := (n.exponent.map Exponent.text).getD []

structure Fronts (n : Numeral) (tail : List Char) : Prop where
  whole : ∀ c ∈ n.whole, isRunChar c
  fraction : ∀ run ∈ n.fraction, ∀ c ∈ run, isRunChar c
  stops : ∀ c ∈ tail.head?, isRunChar c = false
  point : n.fraction = none → tail.head? ≠ some '.'

inductive ReadAs (n : Numeral) (rest : List Char) : Except Fault (Numeral × List Char) → Prop where
  | refused {cause before} : Refused n.mantissa n.power rest cause before →
      ReadAs n rest (.error (.malformed cause before))
  | read : ('.' ∈ n.mantissa → (n.power ++ rest).head? ≠ some '.') →
      (n.power ≠ [] → ∃ c ∈ n.power, c.isDigit) → ReadAs n rest (.ok (n, rest))

structure Completes (n m : Numeral) (cs rest : List Char) : Prop where
  whole : m.whole = n.whole
  fraction : m.fraction = n.fraction
  text : cs = m.power ++ rest
  power : PowerBefore rest m.power
  result : m.ReadAs rest (withExponent n cs)

structure Splits (n : Numeral) (cs rest : List Char) : Prop where
  text : cs = n.mantissa ++ (n.power ++ rest)
  fronts : n.Fronts (n.power ++ rest)
  power : PowerBefore rest n.power
  result : n.ReadAs rest (read cs)

theorem power_eq_nil : n.power = [] ↔ n.exponent = none := by
  cases h : n.exponent <;> simp [power, h, Exponent.text]

theorem point_mem_mantissa (hwhole : ∀ c ∈ n.whole, isRunChar c) :
    '.' ∈ n.mantissa ↔ n.fraction ≠ none := by
  have hpoint : '.' ∉ n.whole := fun h => absurd (hwhole '.' h) (by decide)
  cases h : n.fraction <;> simp [mantissa, h, hpoint]

theorem dropWhile_run_stops (cs : List Char) :
    ∀ c ∈ (cs.dropWhile isRunChar).head?, isRunChar c = false :=
  replaces_run (.refl _)

theorem signAt_cases (cs : List Char) :
    (∃ sign ds, (sign = '+' ∨ sign = '-') ∧ cs = sign :: ds ∧ signAt cs = (some sign, ds)) ∨
      (∀ c ∈ cs.head?, c ≠ '+' ∧ c ≠ '-') ∧ signAt cs = (none, cs) := by
  unfold signAt
  split
  · exact .inl ⟨'+', _, .inl rfl, rfl, rfl⟩
  · exact .inl ⟨'-', _, .inr rfl, rfl, rfl⟩
  · rename_i hplus hminus
    refine .inr ⟨?_, rfl⟩
    intro c hc
    obtain ⟨ds, rfl⟩ := List.head?_eq_some_iff.1 hc
    exact ⟨fun h => hplus ds (by rw [h]), fun h => hminus ds (by rw [h])⟩

theorem powerBefore_sign {mark : Char} (hmark : mark = 'e' ∨ mark = 'E') (cs : List Char) :
    PowerBefore ((signAt cs).2.dropWhile isRunChar)
      (mark :: (signAt cs).1.toList ++ (signAt cs).2.takeWhile isRunChar) := by
  rcases signAt_cases cs with ⟨sign, ds, hsign, -, heq⟩ | ⟨hnone, heq⟩
  · rw [heq]
    exact .signed hmark hsign mem_takeWhile_run (dropWhile_run_stops ds)
  · rw [heq]
    refine .unsigned hmark ?_ mem_takeWhile_run (dropWhile_run_stops cs)
    simpa [List.takeWhile_append_dropWhile] using hnone

theorem digit_of_sign {mark c : Char} {run : List Char} (hmark : mark = 'e' ∨ mark = 'E')
    (hc : c ∈ mark :: (signAt cs).1.toList ++ run) (hdigit : c.isDigit) : c ∈ run := by
  simp only [List.cons_append, List.mem_cons, List.mem_append] at hc
  rcases hc with rfl | hc | hc
  · rcases hmark with rfl | rfl <;> cases hdigit
  · rcases signAt_cases cs with ⟨sign, ds, hsign, -, heq⟩ | ⟨-, heq⟩
    · rw [heq] at hc
      obtain rfl : c = sign := by simpa using hc
      rcases hsign with rfl | rfl <;> cases hdigit
    · rw [heq] at hc
      cases hc
  · exact hc

theorem completes_plain (hn : n.exponent = none) (hmark : ∀ c ∈ cs.head?, c ≠ 'e' ∧ c ≠ 'E')
    (hpoint : '.' ∈ n.mantissa → cs.head? ≠ some '.') : Completes n n cs cs := by
  have hpower : n.power = [] := power_eq_nil.2 hn
  constructor
  · rfl
  · rfl
  · rw [hpower]
    rfl
  · rw [hpower]
    exact .absent hmark
  · rw [withExponent_none hmark]
    refine .read ?_ (fun hne => absurd hpower hne)
    rw [hpower]
    exact hpoint

/-- Whatever stands behind a mantissa, its exponent is found, and a fault if it has no digit. -/
theorem exists_completes (hn : n.exponent = none)
    (hpoint : '.' ∈ n.mantissa → cs.head? ≠ some '.') : ∃ m rest, Completes n m cs rest := by
  by_cases hplain : ∀ c ∈ cs.head?, c ≠ 'e' ∧ c ≠ 'E'
  · exact ⟨n, cs, completes_plain hn hplain hpoint⟩
  · obtain ⟨mark, ds, rfl, hmark⟩ : ∃ mark ds, cs = mark :: ds ∧ (mark = 'e' ∨ mark = 'E') := by
      cases cs with
      | nil => exact absurd nofun hplain
      | cons mark ds => exact ⟨mark, ds, rfl, by simpa [or_iff_not_imp_left] using hplain⟩
    have hpower := powerBefore_sign hmark ds
    refine ⟨{ n with exponent := some ⟨mark, (signAt ds).1, (signAt ds).2.takeWhile isRunChar⟩ },
      (signAt ds).2.dropWhile isRunChar, rfl, rfl, ?_, hpower, ?_⟩
    · simp [power, Exponent.text, signAt_append]
    · simp only [withExponent, hmark, if_true]
      split
      · rename_i hdigit
        refine .read (fun _ => hpower.no_point (List.cons_ne_nil _ _)) (fun _ => ?_)
        obtain ⟨d, hd, hdigit⟩ := List.any_eq_true.1 hdigit
        exact ⟨d, List.mem_append_right _ hd, hdigit⟩
      · rename_i hdigit
        refine .refused (.missingExponent (List.cons_ne_nil _ _) ?_)
        intro d hd
        by_contra hsome
        have hsome : d.isDigit := by simpa using hsome
        exact hdigit (List.any_eq_true.2 ⟨d, digit_of_sign hmark hd hsome, hsome⟩)

theorem Completes.splits (h : Completes n m tail rest) (hfronts : n.Fronts tail)
    (hcs : cs = n.mantissa ++ tail) (hread : read cs = withExponent n tail) :
    Splits m cs rest := by
  constructor
  · rw [← h.text, hcs, mantissa, mantissa, h.whole, h.fraction]
  · rw [← h.text]
    constructor
    · exact h.whole ▸ hfronts.whole
    · exact h.fraction ▸ hfronts.fraction
    · exact hfronts.stops
    · exact h.fraction ▸ hfronts.point
  · exact h.power
  · exact hread ▸ h.result

theorem fronts_whole (h : (cs.dropWhile isRunChar).head? ≠ some '.') :
    Fronts ⟨cs.takeWhile isRunChar, none, none⟩ (cs.dropWhile isRunChar) := by
  constructor
  · exact mem_takeWhile_run
  · nofun
  · exact dropWhile_run_stops cs
  · exact fun _ => h

theorem fronts_pointed (cs after : List Char) :
    Fronts ⟨cs.takeWhile isRunChar, some (after.takeWhile isRunChar), none⟩
      (after.dropWhile isRunChar) := by
  constructor
  · exact mem_takeWhile_run
  · rintro run ⟨⟩
    exact mem_takeWhile_run
  · exact dropWhile_run_stops after
  · nofun

/-- Any text is a numeral and what follows it, up to the first fault. -/
theorem exists_splits (cs : List Char) : ∃ n rest, Splits n cs rest := by
  have hcs := List.takeWhile_append_dropWhile (p := isRunChar) (l := cs)
  by_cases hpoint : (cs.dropWhile isRunChar).head? = some '.'
  · obtain ⟨after, hafter⟩ := List.head?_eq_some_iff.1 hpoint
    have hsplit := List.takeWhile_append_dropWhile (p := isRunChar) (l := after)
    have hfronts := fronts_pointed cs after
    have htext : cs = cs.takeWhile isRunChar ++ '.' :: after.takeWhile isRunChar ++
        after.dropWhile isRunChar := by
      rw [List.append_assoc, List.cons_append, hsplit, ← hafter, hcs]
    -- Only behind a mantissa with a point is a point a fault.
    by_cases hsecond : (after.dropWhile isRunChar).head? = some '.'
    · obtain ⟨more, hmore⟩ := List.head?_eq_some_iff.1 hsecond
      rw [hmore] at hfronts htext
      refine ⟨⟨cs.takeWhile isRunChar, some (after.takeWhile isRunChar), none⟩, '.' :: more, htext,
        hfronts, .absent (by simp), ?_⟩
      simp only [read, hafter, hmore]
      exact .refused (.extraPoint (by simp [mantissa]) rfl)
    · obtain ⟨m, rest, hm⟩ := exists_completes
        (n := ⟨cs.takeWhile isRunChar, some (after.takeWhile isRunChar), none⟩) rfl
        fun _ => hsecond
      refine ⟨m, rest, hm.splits hfronts htext ?_⟩
      simp only [read, hafter]
      split
      · rename_i hmore
        exact absurd (by rw [hmore]; rfl) hsecond
      · rfl
  · obtain ⟨m, rest, hm⟩ := exists_completes
      (n := ⟨cs.takeWhile isRunChar, none, none⟩) rfl fun _ => hpoint
    refine ⟨m, rest, hm.splits (fronts_whole hpoint) ?_ ?_⟩
    · simp [mantissa, hcs]
    · simp only [read]
      split
      · rename_i hafter
        exact absurd (by rw [hafter]; rfl) hpoint
      · rfl

/-- Two ways to cut a text behind a run are one. -/
theorem run_unique {run run' more more' : List Char} (hrun : ∀ c ∈ run, isRunChar c)
    (hrun' : ∀ c ∈ run', isRunChar c) (hmore : ∀ c ∈ more.head?, isRunChar c = false)
    (hmore' : ∀ c ∈ more'.head?, isRunChar c = false) (h : run ++ more = run' ++ more') :
    run = run' ∧ more = more' := by
  obtain ⟨htake, hdrop⟩ := run_append hrun hmore
  obtain ⟨htake', hdrop'⟩ := run_append hrun' hmore'
  rw [h] at htake hdrop
  exact ⟨htake.symm.trans htake', hdrop.symm.trans hdrop'⟩

/-- A run at the front of a text does not reach into what starts with another character. -/
theorem run_within {run whole : List Char} (hrun : ∀ c ∈ run, isRunChar c)
    (htail : ∀ c ∈ tail.head?, isRunChar c = false) (h : run <+: whole ++ tail) :
    run <+: whole := by
  obtain ⟨more, hmore⟩ := h
  rcases List.append_eq_append_iff.1 hmore with ⟨beyond, hwhole, -⟩ | ⟨beyond, hbeyond, rfl⟩
  · exact ⟨beyond, hwhole.symm⟩
  · cases beyond with
    | nil =>
      rw [List.append_nil] at hbeyond
      exact hbeyond ▸ List.prefix_refl run
    | cons c beyond =>
      have hc := hrun c (by simp [hbeyond])
      rw [htail c rfl] at hc
      cases hc

theorem point_stops (cs : List Char) : ∀ c ∈ ('.' :: cs).head?, isRunChar c = false := by
  rintro c ⟨⟩
  decide

theorem Fronts.whole_stops (h : n.Fronts tail) :
    ∀ c ∈ ((n.fraction.map ('.' :: ·)).getD [] ++ tail).head?, isRunChar c = false := by
  cases hf : n.fraction with
  | none => exact h.stops
  | some run => exact point_stops (run ++ tail)

theorem Fronts.run_of_mantissa (h : n.Fronts tail) {run : List Char}
    (hrun : ∀ c ∈ run, isRunChar c) (hfront : run <+: n.mantissa ++ tail) :
    run <+: n.mantissa := by
  rw [mantissa, List.append_assoc] at hfront
  exact (run_within hrun h.whole_stops hfront).trans (List.prefix_append _ _)

theorem Fronts.point_of_mantissa (h : n.Fronts tail) {run part : List Char}
    (hrun : ∀ c ∈ run, isRunChar c) (hpart : ∀ c ∈ part, isRunChar c)
    (hfront : run ++ '.' :: part <+: n.mantissa ++ tail) : run ++ '.' :: part <+: n.mantissa := by
  obtain ⟨more, hmore⟩ := hfront
  rw [mantissa, List.append_assoc, List.append_assoc] at hmore
  -- Both are a run up to something else, so that the runs are one and the point is that of `n`.
  obtain ⟨rfl, hbehind⟩ := run_unique hrun h.whole (point_stops (part ++ more)) h.whole_stops hmore
  rw [mantissa, List.prefix_append_right_inj]
  cases hf : n.fraction with
  | none =>
    rw [hf] at hbehind
    exact absurd (congrArg List.head? hbehind).symm (h.point hf)
  | some f =>
    rw [hf] at hbehind
    have hinto : part <+: f ++ tail := ⟨more, (List.cons.inj hbehind).2⟩
    exact List.cons_prefix_cons.2 ⟨rfl, run_within hpart h.stops hinto⟩

theorem Fronts.longest (h : n.Fronts tail) :
    ∀ other, IsMantissa other → other <+: n.mantissa ++ tail → other <+: n.mantissa := by
  have hcons : ∀ {d : Char} {run : List Char}, d.isDigit → (∀ c ∈ run, isRunChar c) →
      ∀ c ∈ d :: run, isRunChar c := by
    intro d run hd hrun
    exact List.forall_mem_cons.2 ⟨isRunChar_of_isDigit hd, hrun⟩
  intro other hother hfront
  cases hother with
  | whole hd hrun => exact h.run_of_mantissa (hcons hd hrun) hfront
  | pointed hd hrun hpart => exact h.point_of_mantissa (hcons hd hrun) hpart hfront
  | point hd hrun =>
    have hnil : ∀ c ∈ ([] : List Char), isRunChar c := nofun
    exact h.point_of_mantissa hnil (hcons hd hrun) hfront

theorem not_isDigit_of_stops {c : Char} (h : isRunChar c = false) : ¬c.isDigit := by
  intro hdigit
  rw [isRunChar_of_isDigit hdigit] at h
  cases h

theorem isMantissa_point {run : List Char} (hrun : ∀ c ∈ run, isRunChar c)
    (htail : ∀ c ∈ tail.head?, isRunChar c = false)
    (hdigit : (run ++ tail).head?.any Char.isDigit) : IsMantissa ('.' :: run) := by
  cases run with
  | nil =>
    obtain ⟨d, hd, hdigit⟩ := (Option.any_eq_true _ _).1 hdigit
    exact absurd hdigit (not_isDigit_of_stops (htail d hd))
  | cons d run => exact .point hdigit (List.forall_mem_cons.1 hrun).2

/-- Where a number starts, a mantissa starts. -/
theorem Fronts.isMantissa (h : n.Fronts tail) (hstart : StartsNumber (n.mantissa ++ tail)) :
    IsMantissa n.mantissa := by
  obtain ⟨c, cs, hcs, hc⟩ := hstart
  have hstops := h.whole_stops
  rw [mantissa, List.append_assoc] at hcs
  rw [mantissa]
  cases hw : n.whole with
  | nil =>
    rw [hw, List.nil_append] at hcs
    rw [hcs] at hstops
    obtain ⟨rfl, hdigit⟩ := hc.resolve_left (not_isDigit_of_stops (hstops c rfl))
    cases hf : n.fraction with
    | none =>
      rw [hf] at hcs
      exact absurd (congrArg List.head? hcs) (h.point hf)
    | some f =>
      rw [hf] at hcs
      obtain rfl : f ++ tail = cs := (List.cons.inj hcs).2
      exact isMantissa_point (h.fraction f hf) h.stops hdigit
  | cons d run =>
    rw [hw] at hcs
    obtain rfl : d = c := (List.cons.inj hcs).1
    have hwhole := h.whole
    rw [hw] at hwhole
    obtain ⟨hd, hrun⟩ := List.forall_mem_cons.1 hwhole
    have hdigit : d.isDigit := by
      refine hc.resolve_right ?_
      rintro ⟨rfl, -⟩
      cases hd
    cases hf : n.fraction with
    | none =>
      rw [Option.map_none, Option.getD_none, List.append_nil]
      exact .whole hdigit hrun
    | some f => exact .pointed hdigit hrun (h.fraction f hf)

theorem Proper.isDecimal (hn : n.Proper) : IsDecimal n.plain := by
  have hpower : IsDecimalPower ((n.exponent.map Exponent.plain).getD []) := by
    cases he : n.exponent with
    | none => exact .absent
    | some e =>
      have hproper := hn.exponent e he
      refine .present hproper.mark ?_ (digitsOf_ne_nil hproper.digit) isDigit_of_mem_digitsOf
      cases hs : e.sign with
      | none => decide
      | some s => rcases hproper.sign s hs with rfl | rfl <;> decide
  rw [hn.plain_eq]
  cases hf : n.fraction with
  | none => exact .whole (hn.whole_digits hf) isDigit_of_mem_digitsOf hpower
  | some run =>
    have hne : digitsOf n.whole ≠ [] ∨ digitsOf run ≠ [] := by
      rcases hn.start with hstart | ⟨-, run', hrun, hstart⟩
      · exact .inl (digitsOf_ne_nil_of_head hstart)
      · obtain rfl : run = run' := Option.some.inj (hf.symm.trans hrun)
        exact .inr (digitsOf_ne_nil_of_head hstart)
    have hdecimal := IsDecimal.pointed hne isDigit_of_mem_digitsOf isDigit_of_mem_digitsOf hpower
    simpa using hdecimal

end Numeral

inductive NumberAs (mantissa power rest : List Char) : Cut → Prop where
  | refused {cause before} : Refused mantissa power rest cause before →
      NumberAs mantissa power rest (.error (.malformed cause before))
  | overlong {n} : '.' ∉ mantissa → power = [] →
      maxDigits < (mantissa.filter (· ≠ '_')).length →
      NumberAs mantissa power rest (.error (.digitLimit n))
  | taken {l} : (∀ cause before, ¬Refused mantissa power rest cause before) →
      Denotes mantissa power l →
      NumberAs mantissa power rest (.ok (⟨.lexeme (.literal l), mantissa ++ power⟩, rest))

section

variable {c : Char} {cs rest : List Char} {n : Numeral}

theorem numberAs_integer (hn : n.Proper) (hf : n.fraction = none) (he : n.exponent = none)
    (hread : Numeral.read cs = .ok (n, rest)) :
    NumberAs n.mantissa n.power rest (Piece.number cs) := by
  have hpoint : '.' ∉ n.mantissa := fun h => (Numeral.point_mem_mantissa hn.whole).1 h hf
  have hpower : n.power = [] := Numeral.power_eq_nil.2 he
  have hdigits : n.mantissa.filter (· ≠ '_') = digitsOf n.whole := by
    rw [Numeral.mantissa, hf, Option.map_none, Option.getD_none, List.append_nil,
      filter_run hn.whole]
  by_cases hlength : maxDigits < (digitsOf n.whole).length
  · have hl : n.literal = .error (.digitLimit (digitsOf n.whole).length) := by
      simp only [Numeral.literal, hf, he, if_pos hlength]
    simp only [Piece.number, hread, hl, bind, Except.bind]
    exact .overlong hpoint hpower (hdigits ▸ hlength)
  by_cases hvalue : maxInteger < valueOf (digitsOf n.whole)
  · have hl : n.literal = .error (.malformed (.outOfRange (digitsOf n.whole)) []) := by
      simp only [Numeral.literal, hf, he, if_neg hlength, if_pos hvalue]
    simp only [Piece.number, hread, hl, bind, Except.bind]
    have hrefused : Refused n.mantissa n.power rest _ _ :=
      .outOfRange hpoint hpower (hdigits ▸ hvalue)
    rw [hdigits] at hrefused
    exact .refused hrefused
  · have hl : n.literal = .ok (.integer (valueOf (digitsOf n.whole))) := by
      simp only [Numeral.literal, hf, he, if_neg hlength, if_neg hvalue]
    simp only [Piece.number, hread, hl, bind, Except.bind]
    have hdenotes := Denotes.integer hpoint hpower
    rw [hdigits] at hdenotes
    refine .taken ?_ hdenotes
    intro cause before hrefused
    cases hrefused with
    | extraPoint h => exact hpoint h
    | missingExponent h => exact h hpower
    | outOfRange _ _ h => exact hvalue (hdigits ▸ h)

theorem numberAs_marked (hn : n.Proper) (hmarked : n.fraction ≠ none ∨ n.exponent ≠ none)
    (hread : Numeral.read cs = .ok (n, rest))
    (hpoint : '.' ∈ n.mantissa → (n.power ++ rest).head? ≠ some '.')
    (hpower : n.power ≠ [] → ∃ c ∈ n.power, c.isDigit) :
    NumberAs n.mantissa n.power rest (Piece.number cs) := by
  have hmarks : '.' ∈ n.mantissa ∨ n.power ≠ [] :=
    hmarked.imp (Numeral.point_mem_mantissa hn.whole).2 (mt Numeral.power_eq_nil.1)
  simp only [Piece.number, hread, Numeral.literal_marked hmarked, bind, Except.bind]
  refine .taken ?_ (.float hmarks hn.isDecimal hn.binary64?)
  intro cause before hrefused
  cases hrefused with
  | extraPoint hmem hhead => exact hpoint hmem hhead
  | missingExponent hne hnone =>
    obtain ⟨d, hd, hdigit⟩ := hpower hne
    rw [hnone d hd] at hdigit
    cases hdigit
  | outOfRange hnone hnil => exact hmarks.elim hnone fun hne => hne hnil

theorem numberAs_of_splits (hstart : StartsNumber cs) (h : n.Splits cs rest) :
    NumberAs n.mantissa n.power rest (Piece.number cs) := by
  have hresult := h.result
  generalize hread : Numeral.read cs = result at hresult
  cases hresult with
  | refused hrefused =>
    simp only [Piece.number, hread, bind, Except.bind]
    exact .refused hrefused
  | read hpoint hpower =>
    have hn := Numeral.read_proper hstart hread
    by_cases hplain : n.fraction = none ∧ n.exponent = none
    · exact numberAs_integer hn hplain.1 hplain.2 hread
    · exact numberAs_marked hn (not_and_or.1 hplain) hread hpoint hpower

/-- Where a number starts, the longest mantissa is consumed, and the exponent if one comes next. The
number is refused for one of three faults and for nothing else, integers apart that have too many
digits to be converted at all, and is otherwise one literal with its exact value. -/
theorem number_longest (h : c.isDigit ∨ c = '.' ∧ cs.head?.any Char.isDigit) :
    ∃ mantissa power rest, c :: cs = mantissa ++ (power ++ rest) ∧
      LongestFront IsMantissa mantissa (c :: cs) ∧ PowerBefore rest power ∧
      (('.' ∉ mantissa → power = [] → (mantissa.filter (· ≠ '_')).length ≤ maxDigits) →
        (∀ cause before, Piece.first c cs = .error (.malformed cause before) ↔
          Refused mantissa power rest cause before) ∧
        ((∀ cause before, ¬Refused mantissa power rest cause before) →
          ∃ l, Denotes mantissa power l ∧
            Piece.first c cs = .ok (⟨.lexeme (.literal l), mantissa ++ power⟩, rest))) := by
  have hstart : StartsNumber (c :: cs) := ⟨c, cs, rfl, h⟩
  obtain ⟨n, rest, hn⟩ := Numeral.exists_splits (c :: cs)
  have hlongest : LongestFront IsMantissa n.mantissa (c :: cs) := by
    rw [hn.text] at hstart ⊢
    exact ⟨hn.fronts.isMantissa hstart, List.prefix_append _ _, hn.fronts.longest⟩
  have hnumber := numberAs_of_splits hstart hn
  rw [← Piece.first_number h] at hnumber
  refine ⟨n.mantissa, n.power, rest, hn.text, hlongest, hn.power, fun hshort => ?_⟩
  generalize Piece.first c cs = result at hnumber
  cases hnumber with
  | refused hrefused =>
    refine ⟨fun cause before => ⟨?_, ?_⟩, ?_⟩
    · rintro ⟨⟩
      exact hrefused
    · intro hother
      obtain ⟨rfl, rfl⟩ := hrefused.unique hn.power hother
      rfl
    · intro hnone
      exact absurd hrefused (hnone _ _)
  | overlong hpoint hpower hlong => exact absurd (hshort hpoint hpower) (Nat.not_le.2 hlong)
  | taken hnone hdenotes =>
    refine ⟨fun cause before => ⟨nofun, fun hrefused => absurd hrefused (hnone _ _)⟩, ?_⟩
    intro _
    exact ⟨_, hdenotes, rfl⟩

/-- The least integer that is out of range, with an underscore in it. -/
theorem number_longest_limit :
    '9'.isDigit ∧ Piece.first '9' "223372036854775_808".toList =
      .error (.malformed (.outOfRange "9223372036854775808".toList) []) := by
  have hdigit : '9'.isDigit := by decide
  obtain ⟨mantissa, power, rest, htext, hlongest, -, hread⟩ :=
    @number_longest '9' "223372036854775_808".toList (.inl hdigit)
  have hwhole : IsMantissa ('9' :: "223372036854775_808".toList) :=
    .whole hdigit (List.all_eq_true.1 (by decide +kernel))
  obtain rfl : '9' :: "223372036854775_808".toList = mantissa :=
    (hlongest.longest _ hwhole (List.prefix_refl _)).eq_of_length_le hlongest.starts.length_le
  have hnil : power ++ rest = [] := List.append_right_eq_self.1 htext.symm
  obtain ⟨rfl, rfl⟩ := List.append_eq_nil_iff.1 hnil
  obtain ⟨hrefused, -⟩ := hread fun _ _ => by decide +kernel
  exact ⟨hdigit, (hrefused _ _).2 (.outOfRange (by decide +kernel) rfl (by decide +kernel))⟩

end

end Pasture.Lexing
