/-! # Lines of a text

Two readings of line breaks. An excerpt breaks its text at every character that a terminal or an
editor may take for the end of a line. A text read from a file has its carriage returns, alone or
before a line feed, replaced by line feeds.
-/
namespace Pasture.Text

def endsLine (c : Char) : Bool :=
  let n := c.toNat
  (10 ≤ n && n ≤ 13) || (28 ≤ n && n ≤ 30) || n == 0x85 || n == 0x2028 || n == 0x2029

/-- The lines of an excerpt, without their ends; a carriage return and a line feed end one line,
and nothing follows a final end. -/
def lines : List Char → List (List Char)
  | [] => []
  | '\r' :: '\n' :: cs => [] :: lines cs
  | c :: cs =>
    if endsLine c then [] :: lines cs
    else match lines cs with
      | [] => [[c]]
      | l :: ls => (c :: l) :: ls

def unifyBreaks : List Char → List Char
  | [] => []
  | '\r' :: '\n' :: cs => '\n' :: unifyBreaks cs
  | c :: cs => (if c = '\r' then '\n' else c) :: unifyBreaks cs

/-- The lines of a text that has line feeds only, each with its line feed; the last may lack it. -/
def feedLines : List Char → List (List Char)
  | [] => []
  | c :: cs =>
    if c = '\n' then [c] :: feedLines cs
    else match feedLines cs with
      | [] => [[c]]
      | l :: ls => (c :: l) :: ls

/-- The text of a file: strict UTF-8 with unified line breaks. -/
def ofBytes? (bytes : ByteArray) : Option String :=
  (String.fromUTF8? bytes).map fun s => String.ofList (unifyBreaks s.toList)

@[simp] theorem flatten_feedLines (text : List Char) : (feedLines text).flatten = text := by
  induction text with
  | nil => rfl
  | cons c cs ih =>
    rw [feedLines]
    split
    · simp [ih]
    · split <;> simp_all

/-- A line of a text is the only line of itself. -/
theorem feedLines_of_mem {text line : List Char} (h : line ∈ feedLines text) :
    feedLines line = [line] := by
  induction text generalizing line with
  | nil => cases h
  | cons c cs ih =>
    rw [feedLines] at h
    by_cases hc : c = '\n'
    · rw [if_pos hc] at h
      rcases List.mem_cons.1 h with rfl | h
      · simp [feedLines, hc]
      · exact ih h
    · rw [if_neg hc] at h
      cases hcs : feedLines cs with
      | nil =>
        rw [hcs, List.mem_singleton] at h
        simp [h, feedLines, hc]
      | cons l ls =>
        rw [hcs] at h
        rcases List.mem_cons.1 h with rfl | h
        · simp [feedLines, hc, ih (hcs ▸ List.mem_cons_self)]
        · exact ih (hcs ▸ List.mem_cons_of_mem l h)

theorem not_mem_unifyBreaks (text : List Char) : '\r' ∉ unifyBreaks text := by
  fun_induction unifyBreaks text with
  | case1 => simp
  | case2 cs ih => simpa using ih
  | case3 c cs _ ih =>
    by_cases hc : c = '\r'
    · simpa [hc] using ih
    · simpa [hc, Ne.symm hc] using ih

theorem unifyBreaks_of_not_mem {text : List Char} (h : '\r' ∉ text) : unifyBreaks text = text := by
  induction text with
  | nil => rfl
  | cons c cs ih =>
    rw [List.mem_cons, not_or] at h
    obtain ⟨hc, hcs⟩ := h
    rw [unifyBreaks]
    · rw [if_neg (Ne.symm hc), ih hcs]
    · rintro _ rfl
      exact absurd rfl hc

/-- Once a line feed is there, what follows it makes no difference to the text in front. -/
theorem unifyBreaks_append (front : List Char) : ∃ text, ∀ back,
    unifyBreaks (front ++ '\n' :: back) = text ++ '\n' :: unifyBreaks back := by
  fun_induction unifyBreaks front with
  | case1 => exact ⟨[], fun back => by simp [unifyBreaks]⟩
  | case2 cs ih =>
    obtain ⟨text, ih⟩ := ih
    exact ⟨'\n' :: text, fun back => by simp [unifyBreaks, ih]⟩
  | case3 c cs h ih =>
    cases cs with
    | nil =>
      by_cases hc : c = '\r'
      · exact ⟨[], fun back => by simp [unifyBreaks, hc]⟩
      · exact ⟨[c], fun back => by simp [unifyBreaks, hc]⟩
    | cons d ds =>
      obtain ⟨text, ih⟩ := ih
      refine ⟨(if c = '\r' then '\n' else c) :: text, fun back => ?_⟩
      have hstep : unifyBreaks (c :: (d :: ds ++ '\n' :: back)) =
          (if c = '\r' then '\n' else c) :: unifyBreaks (d :: ds ++ '\n' :: back) := by
        refine unifyBreaks.eq_3 _ _ ?_
        rintro _ hc ⟨⟩
        exact h ds hc rfl
      rw [List.cons_append, hstep, ih, List.cons_append]

/-- Nor does it to the lines. -/
theorem feedLines_append (front back : List Char) :
    feedLines (front ++ '\n' :: back) = feedLines (front ++ ['\n']) ++ feedLines back := by
  induction front with
  | nil => simp [feedLines]
  | cons c front ih =>
    rw [List.cons_append, List.cons_append, feedLines, feedLines, ih]
    split
    · rfl
    · cases h : feedLines (front ++ ['\n']) with
      | nil =>
        have htext := flatten_feedLines (front ++ ['\n'])
        simp [h] at htext
      | cons l ls => rfl

end Pasture.Text
