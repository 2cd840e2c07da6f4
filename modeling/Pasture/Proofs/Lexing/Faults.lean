import Pasture.Proofs.Lexing.Tiling

/-! # The places of faults

A fault in a lexeme is found behind a front of the text, so that its place is that of an offset.
-/
namespace Pasture.Lexing

def Inside {α : Type} (cs : List Char) (result : Except Fault α) : Prop :=
  ∀ cause before, result = .error (.malformed cause before) → before <+: cs

namespace Inside

variable {α β : Type} {cs : List Char}

theorem ok (a : α) : Inside cs (.ok a) := nofun

theorem malformed {cause : LexicalCause} {before : List Char} (h : before <+: cs) :
    Inside cs (.error (.malformed cause before) : Except Fault α) := by
  rintro _ _ ⟨⟩
  exact h

theorem start (cause : LexicalCause) :
    Inside cs (.error (.malformed cause []) : Except Fault α) :=
  malformed List.nil_prefix

theorem bind {x : Except Fault α} {f : α → Except Fault β} (hx : Inside cs x)
    (hf : ∀ a, Inside cs (f a)) : Inside cs (x >>= f) := by
  cases x with
  | ok a => exact hf a
  | error fault =>
    rintro cause before ⟨⟩
    exact hx cause before rfl

end Inside

namespace Numeral

theorem literal_inside (n : Numeral) (cs : List Char) : Inside cs n.literal := by
  unfold literal
  split
  · simp only
    split
    · exact nofun
    · split
      · exact .start _
      · exact .ok _
  · exact .ok _

/-- The exponent that is read makes up the front of what follows the numeral. -/
theorem withExponent_inside {n : Numeral} (hn : n.exponent = none) (cs : List Char) :
    Inside (n.text ++ cs) (withExponent n cs) := by
  cases cs with
  | nil => exact .ok _
  | cons c cs =>
    simp only [withExponent]
    split
    · split
      · exact .ok _
      · apply Inside.malformed
        have hsign := signAt_append cs
        have hrun := List.takeWhile_prefix (l := (signAt cs).2) isRunChar
        obtain ⟨more, hmore⟩ := hrun
        refine ⟨more, ?_⟩
        simp [text, hn, Exponent.text, hmore, hsign]
    · exact .ok _

theorem read_inside (cs : List Char) : Inside cs (read cs) := by
  have hwhole := List.takeWhile_append_dropWhile (p := isRunChar) (l := cs)
  unfold read
  split
  · rename_i after hpoint
    have hfraction := List.takeWhile_append_dropWhile (p := isRunChar) (l := after)
    split
    · rename_i more _
      apply Inside.malformed
      refine ⟨after.dropWhile isRunChar, ?_⟩
      simp [hfraction, ← hpoint, hwhole]
    · have hinside := withExponent_inside
        (n := ⟨cs.takeWhile isRunChar, some (after.takeWhile isRunChar), none⟩) rfl
        (after.dropWhile isRunChar)
      simp only [text, Option.map_some, Option.map_none, Option.getD_some, Option.getD_none,
        List.append_nil, List.append_assoc, List.cons_append, hfraction, ← hpoint,
        hwhole] at hinside
      exact hinside
  · have hinside := withExponent_inside (n := ⟨cs.takeWhile isRunChar, none, none⟩) rfl
      (cs.dropWhile isRunChar)
    simp only [text, Option.map_none, Option.getD_none, List.append_nil, hwhole] at hinside
    exact hinside

end Numeral

namespace Piece

theorem number_inside (cs : List Char) : Inside cs (number cs) :=
  (Numeral.read_inside cs).bind fun (n, _) => (n.literal_inside cs).bind fun _ => .ok _

theorem string_inside (cs : List Char) : Inside ('"' :: cs) (string cs) := by
  have hrun := Item.run_append '"' cs
  simp only [string]
  split
  · exact .start _
  · rename_i hrest
    rw [hrest] at hrun
    exact .malformed ⟨[], by simp [hrun]⟩
  · rename_i hrest
    rw [hrest] at hrun
    exact .malformed ⟨_, by rw [List.cons_append, hrun]⟩
  · exact .ok _

theorem closeCharacter_inside (item : Item) (cs : List Char) :
    Inside ('\'' :: item.text ++ cs) (closeCharacter item cs) := by
  unfold closeCharacter
  split
  · exact .malformed (by simp)
  · exact .ok _
  · exact .start _

theorem character_inside (cs : List Char) : Inside ('\'' :: cs) (character cs) := by
  unfold character
  split
  · exact .malformed (List.prefix_refl _)
  · exact .start _
  · exact .malformed (List.prefix_refl _)
  · split
    · exact closeCharacter_inside (.escaped _ _) _
    · exact .malformed ⟨_, rfl⟩
  · exact closeCharacter_inside (.plain _) _

theorem punctuation_inside (c : Char) (cs : List Char) :
    Inside (c :: cs) (punctuation c cs) := by
  unfold punctuation
  split
  · simp only
    split <;> exact .ok _
  · split
    · exact .ok _
    · exact .start _

theorem first_inside (c : Char) (cs : List Char) : Inside (c :: cs) (first c cs) := by
  unfold first
  split
  · exact .ok _
  split
  · unfold continuation
    split
    · exact .ok _
    · exact .start _
  split
  · unfold comment
    split
    · exact .ok _
    · exact .start _
  split
  · exact number_inside (c :: cs)
  split
  · rename_i hc
    exact hc ▸ character_inside cs
  split
  · rename_i hc
    exact hc ▸ string_inside cs
  split
  · exact .ok _
  · exact punctuation_inside c cs

end Piece

theorem scan_fault {text before : List Char} {cause : LexicalCause}
    (h : (scan text).fault = some (.malformed cause before)) :
    (scan text).text ++ before <+: text := by
  fun_induction scan text with
  | case1 => cases h
  | case2 c cs p rest hfirst _ more ih =>
    obtain ⟨-, htiles⟩ := Piece.first_tiles c cs p rest hfirst
    have hmore : p.text ++ (more.text ++ before) <+: p.text ++ rest :=
      (List.prefix_append_right_inj p.text).2 (ih h)
    rw [htiles, ← List.append_assoc] at hmore
    exact hmore
  | case3 c cs fault hfirst =>
    cases h
    exact Piece.first_inside c cs cause before hfirst

/-- A text that is rejected by itself is rejected at the single place of one of its offsets, and no
token is named. -/
theorem lex_rejected {source file : String} {e : ParseError}
    (h : lex source file = .error (.rejected e)) :
    ∃ p, e.span = some (.single file p) ∧ (Span.single file p).PointsInto source.toList file ∧
      e.token = none := by
  obtain ⟨cause, before, hfault, rfl⟩ := malformed_of_rejected h
  refine ⟨_, rfl, .of_front (scan_fault hfault) ?_, rfl⟩
  rw [Position.advance_append]
  exact ⟨rfl, rfl, rfl⟩

end Pasture.Lexing
