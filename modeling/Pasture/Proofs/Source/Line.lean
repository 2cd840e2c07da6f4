import Mathlib.Data.List.TakeWhile
import Pasture.Proofs.Source.Offset
import Pasture.Text.Lines

/-! # The line around an offset

Where a text has no line breaks but line feeds, the line that a place names is the text around its
offset up to the next line feeds. Only an offset behind a final line feed is on no line.
-/
namespace Pasture

namespace Text

def lineFront (text : List Char) (i : Nat) : List Char :=
  ((text.take i).reverse.takeWhile (· ≠ '\n')).reverse

def lineRest (text : List Char) (i : Nat) : List Char := (text.drop i).takeWhile (· ≠ '\n')

/-- The line of an offset. A line feed is on the line that it ends. -/
def lineAround (text : List Char) (i : Nat) : List Char := lineFront text i ++ lineRest text i

/-- Every character that may end a line of an excerpt is a line feed. -/
def FeedsOnly (text : List Char) : Prop := ∀ c ∈ text, endsLine c → c = '\n'

variable {text cs : List Char} {c : Char} {i : Nat}

theorem lines_feed (cs : List Char) : lines ('\n' :: cs) = [] :: lines cs := by
  rw [lines]
  · rfl
  · simp

theorem lines_cons (hc : ¬endsLine c) (cs : List Char) :
    lines (c :: cs) = (c :: (lines cs).headD []) :: (lines cs).tail := by
  rw [lines]
  · rw [if_neg hc]
    cases lines cs <;> rfl
  · rintro _ rfl
    exact absurd rfl hc

theorem takeWhile_append_feed (xs ys : List Char) :
    (xs ++ ys).takeWhile (· ≠ '\n') =
      if '\n' ∈ xs then xs.takeWhile (· ≠ '\n') else xs ++ ys.takeWhile (· ≠ '\n') := by
  by_cases h : '\n' ∈ xs
  · rw [if_pos h, List.takeWhile_append, if_neg]
    intro hlength
    have hall := (List.takeWhile_prefix _).eq_of_length hlength
    exact absurd (List.takeWhile_eq_self_iff.1 hall '\n' h) (by decide)
  · rw [if_neg h]
    refine List.takeWhile_append_of_pos fun c hc => ?_
    simpa using fun hfeed : c = '\n' => h (hfeed ▸ hc)

@[simp] theorem lineFront_zero (text : List Char) : lineFront text 0 = [] := rfl

/-- A character is on the line of an offset behind it unless a line feed comes in between. -/
theorem lineFront_succ (c : Char) (cs : List Char) (i : Nat) :
    lineFront (c :: cs) (i + 1) =
      if '\n' ∈ cs.take i ∨ c = '\n' then lineFront cs i else c :: cs.take i := by
  simp only [lineFront, List.take_succ_cons, List.reverse_cons, takeWhile_append_feed,
    List.mem_reverse]
  by_cases hmem : '\n' ∈ cs.take i
  · rw [if_pos hmem, if_pos (.inl hmem)]
  · have hall : (cs.take i).reverse.takeWhile (· ≠ '\n') = (cs.take i).reverse := by
      have happend := takeWhile_append_feed (cs.take i).reverse []
      simpa [hmem] using happend
    rw [if_neg hmem, hall]
    by_cases hc : c = '\n' <;> simp [hmem, hc]

theorem lineRest_succ (c : Char) (cs : List Char) (i : Nat) :
    lineRest (c :: cs) (i + 1) = lineRest cs i := rfl

theorem FeedsOnly.tail (h : FeedsOnly (c :: cs)) : FeedsOnly cs :=
  fun d hd => h d (List.mem_cons_of_mem c hd)

theorem lineRest_eq_append (h : '\n' ∉ cs.take i) :
    lineRest cs 0 = cs.take i ++ lineRest cs i := by
  have happend := takeWhile_append_feed (cs.take i) (cs.drop i)
  rw [if_neg h, List.take_append_drop] at happend
  exact happend

/-- As many line feeds as stand before an offset, so many lines stand before its own. -/
theorem lines_around (h : FeedsOnly text) (hi : i ≤ text.length) :
    (lines text)[(text.take i).count '\n']? =
      if i = text.length ∧ lineFront text i = [] then none else some (lineAround text i) := by
  -- A character put in front makes the first line longer, or it ends a line put in front.
  induction text generalizing i with
  | nil =>
    obtain rfl : i = 0 := Nat.le_zero.1 hi
    rfl
  | cons c cs ih =>
    by_cases hc : c = '\n'
    · subst hc
      cases i with
      | zero => simp [lines_feed, lineAround, lineRest]
      | succ i =>
        have hrest := ih h.tail (Nat.le_of_succ_le_succ hi)
        simpa [lines_feed, lineAround, lineFront_succ, lineRest_succ] using hrest
    · have hends : ¬endsLine c := fun hend => hc (h c List.mem_cons_self hend)
      have hfirst : (lines cs).headD [] = lineRest cs 0 := by
        have hzero := ih h.tail (Nat.zero_le _)
        cases cs with
        | nil => rfl
        | cons d ds =>
          cases hlines : lines (d :: ds) <;> simp_all [lineAround]
      rw [lines_cons hends, hfirst]
      cases i with
      | zero => simp [lineAround, lineRest, hc]
      | succ i =>
        rw [List.take_succ_cons, List.count_cons_of_ne hc]
        by_cases hmem : '\n' ∈ cs.take i
        · obtain ⟨n, hn⟩ := Nat.exists_eq_add_one.2 (List.count_pos_iff.2 hmem)
          have hrest := ih h.tail (Nat.le_of_succ_le_succ hi)
          rw [hn] at hrest ⊢
          simpa [lineAround, lineFront_succ, lineRest_succ, hmem] using hrest
        · rw [List.count_eq_zero.2 hmem]
          simp [lineRest_eq_append hmem, lineAround, lineFront_succ, lineRest_succ, hmem, hc]

/-- What stands at an offset is on its line behind what stands before it, if it is no line feed. -/
theorem lineAround_getElem? (text : List Char) (i : Nat) :
    (lineAround text i)[(lineFront text i).length]? = (text[i]?).filter (· ≠ '\n') := by
  rw [lineAround, List.getElem?_append_right (Nat.le_refl _), Nat.sub_self, lineRest,
    ← List.head?_eq_getElem?, List.head?_takeWhile, List.head?_drop]

/-- An offset behind everything has nothing before it on its line if the text is empty or ends with
a line feed. -/
theorem lineFront_length_eq_nil (h : lineFront text text.length = []) :
    text = [] ∨ text.getLast? = some '\n' := by
  rw [lineFront, List.take_length, List.reverse_eq_nil_iff] at h
  have hhead := congrArg List.head? h
  rw [List.head?_takeWhile, List.head?_reverse] at hhead
  cases hlast : text.getLast? with
  | none => exact .inl (List.getLast?_eq_none_iff.1 hlast)
  | some c =>
    rw [hlast] at hhead
    exact .inr (by simpa using hhead)

end Text

open Text

namespace Position

theorem column_ofOffset (text : List Char) (i : Nat) :
    (ofOffset text i).column = 1 + (lineFront text i).length := by
  simp [ofOffset, lineFront]

theorem take_eq_append {text : List Char} {i j : Nat} (h : i ≤ j) :
    text.take j = text.take i ++ (text.drop i).take (j - i) := by
  have hsum := List.take_add (l := text) (i := i) (j := j - i)
  rwa [Nat.add_sub_cancel' h] at hsum

/-- Of two offsets on one line, none is further behind the other than the end of the line. -/
theorem column_le_lineRest {text : List Char} {i j : Nat}
    (h : (ofOffset text i).line = (ofOffset text j).line) :
    (ofOffset text j).column ≤ (ofOffset text i).column + (lineRest text i).length := by
  rcases Nat.le_total i j with hij | hji
  · have hlater := advance_later (ofOffset text i) ((text.drop i).take (j - i))
    have hreached : (ofOffset text i).advance ((text.drop i).take (j - i)) = ofOffset text j := by
      rw [ofOffset_eq_advance, ofOffset_eq_advance, take_eq_append hij, advance_append]
    have hfeeds : '\n' ∉ (text.drop i).take (j - i) := by
      simp only [ofOffset, take_eq_append hij, List.count_append] at h
      exact List.count_eq_zero.1 (by omega)
    have hrest : ((text.drop i).take (j - i)).length ≤ (lineRest text i).length := by
      have happend := takeWhile_append_feed ((text.drop i).take (j - i)) ((text.drop i).drop (j - i))
      rw [if_neg hfeeds, List.take_append_drop] at happend
      rw [lineRest, happend, List.length_append]
      exact Nat.le_add_right _ _
    rw [hreached] at hlater
    omega
  · have hlater := advance_later (ofOffset text j) ((text.drop j).take (i - j))
    have hreached : (ofOffset text j).advance ((text.drop j).take (i - j)) = ofOffset text i := by
      rw [ofOffset_eq_advance, ofOffset_eq_advance, take_eq_append hji, advance_append]
    rw [hreached] at hlater
    omega

end Position

namespace Span

/-- The span starts at an offset of the text, and if it ends on its first line, it ends at most one
place behind that line. -/
def Fits (text : List Char) (file : String) (s : Span) : Prop :=
  ∃ i ≤ text.length, s.StartsAt file (.ofOffset text i) ∧
    (s.endLine = s.startLine → s.endColumn ≤ s.startColumn + (lineRest text i).length)

variable {text : List Char} {file : String} {s t : Span}

/-- A span that ends on a later line than it starts, or not behind its start, is not too long. -/
theorem PointsInto.fits (h : s.PointsInto text file)
    (hend : s.startLine ≠ s.endLine ∨ s.endColumn ≤ s.startColumn) : s.Fits text file := by
  obtain ⟨i, hi, hstart⟩ := h
  refine ⟨i, hi, hstart, fun hline => ?_⟩
  rcases hend with hend | hend
  · exact absurd hline.symm hend
  · omega

theorem PointsInto.single_fits {p : Position} (h : (single file p).PointsInto text file) :
    (single file p).Fits text file :=
  h.fits (.inr (Int.le_refl _))

theorem PointsInto.after_fits (h : s.after.PointsInto text file) : s.after.Fits text file :=
  h.fits (.inr (Int.le_refl _))

theorem Fits.pointsInto (h : s.Fits text file) : s.PointsInto text file := by
  obtain ⟨i, hi, hstart, -⟩ := h
  exact ⟨i, hi, hstart⟩

def Joins (P : Span → Prop) : Prop :=
  ∀ ⦃s t : Span⦄, P s → P t.after → P (s.through t) ∧ P (s.through t).after

theorem pointsInto_joins (text : List Char) (file : String) : Joins (PointsInto text file) := by
  intro s t hs ht
  obtain ⟨i, hi, hstart⟩ := hs
  obtain ⟨j, hj, -, hplace⟩ := ht
  exact ⟨⟨i, hi, hstart⟩, ⟨j, hj, hstart.1, hplace⟩⟩

theorem fits_joins (text : List Char) (file : String) : Joins (Fits text file) := by
  intro s t hs ht
  have hjoined := pointsInto_joins text file hs.pointsInto ht.pointsInto
  refine ⟨?_, hjoined.2.after_fits⟩
  obtain ⟨i, hi, hstart, -⟩ := hs
  obtain ⟨j, hj, -, hline, hcolumn⟩ := ht.pointsInto
  refine ⟨i, hi, hstart, fun hsame => ?_⟩
  have hlines : (Position.ofOffset text i).line = (Position.ofOffset text j).line := by
    have hfirst := hstart.2.1
    simp only [after, through] at hline hsame
    omega
  have hbound := Position.column_le_lineRest hlines
  have hfirst := hstart.2.2
  simp only [after, through] at hcolumn ⊢
  omega

end Span
end Pasture
