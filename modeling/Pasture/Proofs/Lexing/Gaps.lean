import Pasture.Lexing.Lex

/-! # What stands between lexemes -/
namespace Pasture.Lexing

/-- A text between lexemes, in front of `rest`: blanks, line breaks, complete comments, and
backslashes in front of line breaks. -/
inductive Gap : List Char → List Char → Prop where
  | nil (rest) : Gap [] rest
  | blank {c gap rest} : isSpace c ∨ isBreak c → Gap gap rest → Gap (c :: gap) rest
  | line {body gap rest} : (∀ c ∈ body, isBreak c = false) →
      (∀ c ∈ (gap ++ rest).head?, isBreak c) → Gap gap rest → Gap ('#' :: body ++ gap) rest
  | block {body gap rest} : ¬['*', '/'] <:+: body → Gap gap rest →
      Gap ('/' :: '*' :: body ++ '*' :: '/' :: gap) rest
  | continued {c gap rest} : isBreak c → Gap (c :: gap) rest → Gap ('\\' :: c :: gap) rest

/-- Layout in front of `rest`: blanks, line breaks, and line comments, which go on to the end of their
line. -/
inductive Layout : List Char → List Char → Prop where
  | nil (rest) : Layout [] rest
  | blank {c run rest} : isSpace c ∨ isBreak c → Layout run rest → Layout (c :: run) rest
  | line {body run rest} : (∀ c ∈ body, isBreak c = false) →
      (∀ c ∈ (run ++ rest).head?, isBreak c) → Layout run rest → Layout ('#' :: body ++ run) rest

theorem Layout.gap {run : List Char} (h : Layout run rest) : Gap run rest := by
  induction h with
  | nil => exact .nil _
  | blank hc _ ih => exact .blank hc ih
  | line hbody hhead _ ih => exact .line hbody hhead ih

variable {gap body rest : List Char}

theorem Gap.append {more : List Char} (h : Gap gap (more ++ rest)) (k : Gap more rest) :
    Gap (gap ++ more) rest := by
  generalize hafter : more ++ rest = after at h
  induction h with
  | nil => exact k
  | blank hc _ ih => exact .blank hc (ih hafter)
  | line hbody hhead _ ih =>
    subst hafter
    have hnext := ih rfl
    rw [List.append_assoc]
    exact .line hbody (by simpa using hhead) hnext
  | block hbody _ ih => simpa using Gap.block hbody (ih hafter)
  | continued hc _ ih => exact .continued hc (ih hafter)

/-- By induction on the text, with the rest of a line comment for the runs that start in one. -/
theorem layoutRun_layout (text : List Char) :
    Layout (layoutRun false text).1 (layoutRun false text).2 ∧
      ∃ body run, (layoutRun true text).1 = body ++ run ∧ (∀ c ∈ body, isBreak c = false) ∧
        (∀ c ∈ (run ++ (layoutRun true text).2).head?, isBreak c) ∧
        Layout run (layoutRun true text).2 := by
  induction text with
  | nil => exact ⟨.nil [], [], [], rfl, by simp, by simp [layoutRun], .nil []⟩
  | cons c text ih =>
    obtain ⟨hlayout, body, more, hrun, hbody, hhead, hmore⟩ := ih
    by_cases hc : isBreak c
    · refine ⟨?_, [], c :: (layoutRun false text).1, ?_, by simp, ?_, ?_⟩
      · simpa [layoutRun, hc] using Layout.blank (.inr hc) hlayout
      · simp [layoutRun, hc]
      · simp [hc]
      · simpa [layoutRun, hc] using Layout.blank (.inr hc) hlayout
    · have hbreak : isBreak c = false := by simpa using hc
      refine ⟨?_, c :: body, more, ?_, ?_, ?_, ?_⟩
      · by_cases hhash : c = '#'
        · subst hhash
          simpa [layoutRun, hbreak, hrun] using Layout.line hbody hhead hmore
        · by_cases hspace : isSpace c
          · simpa [layoutRun, hbreak, hhash, hspace] using Layout.blank (.inl hspace) hlayout
          · simpa [layoutRun, hbreak, hhash, hspace] using Layout.nil (c :: text)
      · simp [layoutRun, hbreak, hrun]
      · simpa [hbreak] using hbody
      · simpa [layoutRun, hbreak] using hhead
      · simpa [layoutRun, hbreak] using hmore

theorem closeComment_body {text : List Char} (h : closeComment text = some (body, rest)) :
    ∃ inner, body = inner ++ ['*', '/'] ∧ ¬['*', '/'] <:+: inner := by
  fun_induction closeComment text generalizing body with
  | case1 => cases h
  | case2 cs =>
    cases h
    exact ⟨[], rfl, by simp⟩
  | case3 c cs hopen ih =>
    obtain ⟨⟨b, r⟩, hb, he⟩ := Option.map_eq_some_iff.1 h
    cases he
    obtain ⟨inner, rfl, hinner⟩ := ih hb
    refine ⟨c :: inner, rfl, ?_⟩
    rw [List.infix_cons_iff]
    rintro (hfirst | hlater)
    · -- the comment would have been closed by these two characters
      obtain ⟨more, hmore⟩ := hfirst
      cases hmore
      exact hopen _ rfl (closeComment_append hb).symm
    · exact hinner hlater

namespace Piece

variable {c : Char} {cs : List Char} {p : Piece}

def Slack (p : Piece) (rest : List Char) : Prop := (∀ l, p.form ≠ .lexeme l) ∧ Gap p.text rest

theorem layout_slack (h : layout cs = .ok (p, rest)) : p.Slack rest := by
  cases h
  exact ⟨by simp, (layoutRun_layout cs).1.gap⟩

theorem continuation_slack (h : continuation cs = .ok (p, rest)) : p.Slack rest := by
  simp only [continuation] at h
  split at h
  · rename_i hhead
    cases h
    obtain ⟨b, hb, hbreak⟩ := (Option.any_eq_true _ _).1 hhead
    obtain ⟨more, rfl⟩ := List.head?_eq_some_iff.1 hb
    have hgap := (layoutRun_layout (b :: more)).1.gap
    simp only [layoutRun, hbreak, if_true] at hgap ⊢
    exact ⟨by simp, .continued hbreak hgap⟩
  · cases h

theorem comment_slack (h : comment cs = .ok (p, rest)) : p.Slack rest := by
  unfold comment at h
  split at h
  · rename_i body after hbody
    cases h
    obtain ⟨inner, rfl, hinner⟩ := closeComment_body hbody
    exact ⟨by simp, .block hinner (.nil rest)⟩
  · cases h

end Piece

end Pasture.Lexing
