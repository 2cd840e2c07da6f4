import Mathlib.Data.List.Induction
import Pasture.Source.Span

/-! # Places of offsets

The place of an offset, by counting what stands before it, and the places that reading reaches step
by step.
-/
namespace Pasture

/-- One more than the line feeds before the offset, and one more than the characters since the last
of them. -/
def Position.ofOffset (text : List Char) (i : Nat) : Position where
  line := 1 + (text.take i).count '\n'
  column := 1 + ((text.take i).reverse.takeWhile (· ≠ '\n')).length

theorem Position.start_advance_eq (text : List Char) :
    start.advance text =
      ⟨1 + text.count '\n', 1 + (text.reverse.takeWhile (· ≠ '\n')).length⟩ := by
  -- the last character decides on the column, so the induction is from the end
  induction text using List.reverseRecOn with
  | nil => rfl
  | append_singleton text c ih =>
    rw [advance_append, ih]
    by_cases hc : c = '\n'
    · simp [step, hc, Nat.add_assoc]
    · simp [step, hc, Nat.add_comm]

theorem Position.ofOffset_eq_advance (text : List Char) (i : Nat) :
    ofOffset text i = start.advance (text.take i) :=
  (start_advance_eq (text.take i)).symm

theorem Position.ofOffset_append (before after : List Char) :
    ofOffset (before ++ after) before.length = start.advance before := by
  rw [ofOffset_eq_advance, List.take_left]

theorem Position.ofOffset_front {text front : List Char} (h : front <+: text) :
    ofOffset text front.length = start.advance front := by
  obtain ⟨after, rfl⟩ := h
  exact ofOffset_append front after

theorem Position.ofOffset_succ {text : List Char} {i : Nat} {c : Char} (h : text[i]? = some c) :
    ofOffset text (i + 1) = (ofOffset text i).step c := by
  rw [ofOffset_eq_advance, ofOffset_eq_advance, List.take_add_one, h, advance_append]
  rfl

theorem Position.column_pos {p : Position} (hp : 0 < p.column) (text : List Char) :
    0 < (p.advance text).column := by
  induction text generalizing p with
  | nil => exact hp
  | cons c text ih =>
    apply ih
    by_cases hc : c = '\n'
    · simp [step, hc]
    · simp [step, hc]

/-- A text that is read moves on to a later line, or along its line. -/
theorem Position.advance_later (p : Position) (text : List Char) :
    p.line < (p.advance text).line ∨
      (p.advance text).line = p.line ∧ (p.advance text).column = p.column + text.length := by
  induction text generalizing p with
  | nil => exact .inr ⟨rfl, rfl⟩
  | cons c text ih =>
    have hnext := ih (p.step c)
    by_cases hc : c = '\n'
    · have hline : (p.step c).line = p.line + 1 := by simp [step, hc]
      left
      rw [advance_cons]
      omega
    · have hplace : p.step c = ⟨p.line, p.column + 1⟩ := by simp [step, hc]
      rw [hplace] at hnext
      rw [advance_cons, hplace, List.length_cons]
      simp only at hnext
      omega

theorem Position.eq_nil_of_advance {p : Position} {text : List Char} (h : p.advance text = p) :
    text = [] := by
  have hlater := advance_later p text
  rw [h] at hlater
  exact List.eq_nil_of_length_eq_zero (by omega)

/-- Two fronts of a text that end at the same place are the same. -/
theorem Position.front_eq {p : Position} {text front other : List Char} (hfront : front <+: text)
    (hother : other <+: text) (h : p.advance front = p.advance other) : front = other := by
  rcases List.prefix_or_prefix_of_prefix hfront hother with ⟨more, rfl⟩ | ⟨more, rfl⟩
  · rw [advance_append] at h
    rw [eq_nil_of_advance h.symm, List.append_nil]
  · rw [advance_append] at h
    rw [eq_nil_of_advance h, List.append_nil]

def Span.StartsAt (s : Span) (file : String) (p : Position) : Prop :=
  s.file = file ∧ s.startLine = p.line ∧ s.startColumn = p.column

theorem Span.between_startsAt (file : String) (first next : Position) :
    (between file first next).StartsAt file first := ⟨rfl, rfl, rfl⟩

def Span.EndsAt (s : Span) (file : String) (p : Position) : Prop :=
  s.file = file ∧ s.endLine = p.line ∧ s.endColumn = p.column

theorem Span.StartsAt.unique {s : Span} {file : String} {p q : Position} (hp : s.StartsAt file p)
    (hq : s.StartsAt file q) : p = q := by
  obtain ⟨-, hline, hcolumn⟩ := hp
  obtain ⟨-, hline', hcolumn'⟩ := hq
  have hlines := Int.ofNat_inj.1 (hline.symm.trans hline')
  have hcolumns := Int.ofNat_inj.1 (hcolumn.symm.trans hcolumn')
  cases p
  cases q
  simp_all

/-- The span is in the file and starts at an offset of its text; the offset of the end counts. -/
def Span.PointsInto (text : List Char) (file : String) (s : Span) : Prop :=
  ∃ i, i ≤ text.length ∧ s.StartsAt file (.ofOffset text i)

theorem Span.PointsInto.of_front {text front : List Char} {file : String} {s : Span}
    (hfront : front <+: text) (h : s.StartsAt file (Position.start.advance front)) :
    s.PointsInto text file := by
  refine ⟨front.length, hfront.length_le, ?_⟩
  rw [Position.ofOffset_front hfront]
  exact h

/-- Behind a character other than a line feed, the next column is the place of an offset. -/
theorem Span.after_pointsInto {text : List Char} {file : String} {s : Span} {i : Nat} {c : Char}
    (hi : text[i]? = some c) (hc : c ≠ '\n') (hfile : s.file = file)
    (hline : s.endLine = (Position.ofOffset text i).line)
    (hcolumn : s.endColumn = (Position.ofOffset text i).column) :
    s.after.PointsInto text file := by
  obtain ⟨hlt, -⟩ := List.getElem?_eq_some_iff.1 hi
  refine ⟨i + 1, hlt, hfile, ?_, ?_⟩
  · simp [after, hline, Position.ofOffset_succ hi, Position.step, hc]
  · simp [after, hcolumn, Position.ofOffset_succ hi, Position.step, hc]

/-- A text that does not end with a line feed has a span from its first to its last character. -/
theorem Span.between_eq_through (file : String) {p : Position} (hp : 0 < p.column)
    (text : List Char) {c : Char} (hc : c ≠ '\n') :
    between file p (p.advance (text ++ [c])) =
      (single file p).through (single file (p.advance text)) := by
  have hcolumn : 1 < (p.advance text).column + 1 := Nat.succ_lt_succ (Position.column_pos hp text)
  rw [Position.advance_append]
  simp [between, single, through, Position.step, hc, hcolumn]

/-- A text of one character ends where it starts. -/
theorem Span.between_single (file : String) {p : Position} (hp : 0 < p.column) {c : Char}
    (hc : c ≠ '\n') : between file p (p.advance [c]) = single file p := by
  have hthrough := between_eq_through file hp [] hc
  simpa using hthrough

theorem Span.single_startsAt {file : String} {p q : Position}
    (h : (single file p).EndsAt file q) : (single file p).StartsAt file q := h

end Pasture
