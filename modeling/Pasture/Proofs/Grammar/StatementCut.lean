import Pasture.Proofs.Grammar.Brackets
import Pasture.Proofs.Grammar.ExpressionComplete

/-! # Cutting statements out of a stream

The cut runs over whatever keeps its brackets balanced and drops the line breaks inside of them. An
expression does so at every depth, so that the cut ends where the statement ends.
-/
namespace Pasture.Grammar

variable {depth : Nat} {t : Token} {ts run rest : List Token} {ls ks : List Lexeme}

structure Kept (l : Lexeme) : Prop where
  newline : l ≠ .newline
  rbrace : l ≠ .symbol .rbrace
  endOfInput : l ≠ .endOfInput

theorem Kept.of_isInline {l : Lexeme} (h : l.isInline) : Kept l := by
  constructor <;> rintro rfl <;> cases h

theorem Kept.of_closer? {opener closer : Symbol} (h : opener.closer? = some closer) :
    Kept (.symbol opener) ∧ Kept (.symbol closer) := by
  rcases Symbol.closer?_eq_some.1 h with ⟨rfl, rfl⟩ | ⟨rfl, rfl⟩ <;>
  · constructor <;> constructor <;> simp

def depthBehind (depth : Nat) : Lexeme → Nat
  | .symbol .lparen | .symbol .lbracket => depth + 1
  | .symbol .rparen | .symbol .rbracket => depth - 1
  | _ => depth

theorem depthBehind_of_isInline {l : Lexeme} (h : l.isInline) : depthBehind depth l = depth := by
  unfold depthBehind
  split <;> first | rfl | cases h

theorem depthBehind_opener {opener closer : Symbol} (h : opener.closer? = some closer) :
    depthBehind depth (.symbol opener) = depth + 1 := by
  rcases Symbol.closer?_eq_some.1 h with ⟨rfl, -⟩ | ⟨rfl, -⟩ <;> rfl

theorem depthBehind_closer {opener closer : Symbol} (h : opener.closer? = some closer) :
    depthBehind (depth + 1) (.symbol closer) = depth := by
  rcases Symbol.closer?_eq_some.1 h with ⟨-, rfl⟩ | ⟨-, rfl⟩ <;> rfl

theorem cutStatement_keep (ht : Kept t.lexeme) :
    cutStatement depth (t :: ts) =
      (cutStatement (depthBehind depth t.lexeme) ts).map fun p => (t :: p.1, p.2) := by
  cases htl : t.lexeme with
  | newline => exact absurd htl ht.newline
  | endOfInput => exact absurd htl ht.endOfInput
  | symbol s =>
    cases s with
    | rbrace => exact absurd htl ht.rbrace
    | _ => simp [cutStatement, htl, depthBehind]
  | _ => simp [cutStatement, htl, depthBehind]

inductive Cut : Nat → List Token → List Token → List Token → Prop where
  | line {t : Token} {rest : List Token} : t.lexeme = .newline → Cut 0 (t :: rest) [] rest
  | halt {depth : Nat} {t : Token} {rest : List Token} :
      t.lexeme = .symbol .rbrace ∨ t.lexeme = .endOfInput → Cut depth (t :: rest) [] (t :: rest)
  | break {depth : Nat} {t : Token} {ts run rest : List Token} : t.lexeme = .newline →
      depth ≠ 0 → Cut depth ts run rest → Cut depth (t :: ts) run rest
  | keep {depth : Nat} {t : Token} {ts run rest : List Token} : Kept t.lexeme →
      Cut (depthBehind depth t.lexeme) ts run rest → Cut depth (t :: ts) (t :: run) rest

theorem cutStatement_eq_some :
    cutStatement depth ts = some (run, rest) ↔ Cut depth ts run rest := by
  constructor
  · intro h
    induction ts generalizing depth run with
    | nil => cases h
    | cons t ts ih =>
      by_cases hnew : t.lexeme = .newline
      · simp only [cutStatement, hnew] at h
        split at h
        · rename_i hdepth
          cases h
          exact hdepth ▸ .line hnew
        · rename_i hdepth
          exact .break hnew hdepth (ih h)
      by_cases hhalt : t.lexeme = .symbol .rbrace ∨ t.lexeme = .endOfInput
      · rcases hhalt with hend | hend <;> simp only [cutStatement, hend] at h <;> cases h
        · exact .halt (.inl hend)
        · exact .halt (.inr hend)
      · obtain ⟨hbrace, hinput⟩ := not_or.1 hhalt
        have hkept : Kept t.lexeme := ⟨hnew, hbrace, hinput⟩
        rw [cutStatement_keep hkept, Option.map_eq_some_iff] at h
        obtain ⟨⟨run', rest'⟩, hcut, heq⟩ := h
        cases heq
        exact .keep hkept (ih hcut)
  · intro h
    induction h with
    | line hnew => simp [cutStatement, hnew]
    | halt hend => rcases hend with hend | hend <;> simp [cutStatement, hend]
    | «break» hnew hdepth _ ih => simpa [cutStatement, hnew, hdepth] using ih
    | keep hkept _ ih => rw [cutStatement_keep hkept, ih, Option.map_some]

def unbroken (ts : List Token) : List Token := ts.filter fun t => !t.isNewline

@[simp] theorem unbroken_append (ts us : List Token) :
    unbroken (ts ++ us) = unbroken ts ++ unbroken us := List.filter_append ..

theorem map_unbroken (ts : List Token) :
    (unbroken ts).map Token.lexeme = solid (ts.map Token.lexeme) := by
  induction ts with
  | nil => rfl
  | cons t ts ih =>
    by_cases ht : t.lexeme = .newline
    · have : t.isNewline = true := Token.isNewline_iff.2 ht
      simpa [unbroken, this, ht] using ih
    · have : t.isNewline = false := Token.isNewline_eq_false.2 ht
      simpa [unbroken, this, solid_cons ht] using ih

theorem unbroken_of_solid (h : solid (ts.map Token.lexeme) = ts.map Token.lexeme) :
    unbroken ts = ts := by
  rw [unbroken, List.filter_eq_self]
  intro t ht
  have hnew := List.filter_eq_self.1 h t.lexeme (List.mem_map_of_mem ht)
  simpa using hnew

def Level (depth : Nat) (ls : List Lexeme) : Prop :=
  ∀ ts rest, ts.map Token.lexeme = ls →
    cutStatement depth (ts ++ rest) =
      (cutStatement depth rest).map fun p => (unbroken ts ++ p.1, p.2)

theorem Level.nil (depth : Nat) : Level depth [] := by
  intro ts rest ht
  obtain rfl := List.map_eq_nil_iff.1 ht
  simp [unbroken]

theorem Level.append (h : Level depth ls) (k : Level depth ks) : Level depth (ls ++ ks) := by
  intro ts rest ht
  obtain ⟨as, bs, rfl, has, hbs⟩ := List.map_eq_append_iff.1 ht
  rw [List.append_assoc, h as _ has, k bs _ hbs, Option.map_map]
  simp [Function.comp_def]

theorem Level.cons {l : Lexeme} (hl : l.isInline) (h : Level depth ls) : Level depth (l :: ls) := by
  intro ts rest ht
  obtain ⟨t, us, rfl, rfl, hus⟩ := List.map_eq_cons_iff.1 ht
  have hkept : Kept t.lexeme := .of_isInline hl
  rw [List.cons_append, cutStatement_keep hkept, depthBehind_of_isInline hl, h us rest hus,
    Option.map_map]
  simp [Function.comp_def, unbroken, Token.isNewline_eq_false.2 hkept.newline]

theorem Level.newline (hdepth : 0 < depth) (h : Level depth ls) : Level depth (.newline :: ls) := by
  intro ts rest ht
  obtain ⟨t, us, rfl, hnew, hus⟩ := List.map_eq_cons_iff.1 ht
  simp [cutStatement, hnew, Nat.ne_of_gt hdepth, h us rest hus, unbroken,
    Token.isNewline_iff.2 hnew]

/-- Brackets are passed if what they enclose is, one level deeper. -/
theorem Level.enclosed {opener closer : Symbol} (ho : opener.closer? = some closer)
    (h : Level (depth + 1) ls) : Level depth (.symbol opener :: ls ++ [.symbol closer]) := by
  intro ts rest ht
  obtain ⟨us, cs, rfl, hus, hcs⟩ := List.map_eq_append_iff.1 ht
  obtain ⟨o, us, rfl, hol, hus⟩ := List.map_eq_cons_iff.1 hus
  obtain ⟨c, rfl, hcl⟩ := List.map_eq_singleton_iff.1 hcs
  obtain ⟨hokept, hckept⟩ := Kept.of_closer? ho
  rw [← hol] at hokept
  rw [← hcl] at hckept
  simp only [List.append_assoc, List.cons_append, List.nil_append]
  rw [cutStatement_keep hokept, hol, depthBehind_opener ho, h us _ hus, cutStatement_keep hckept,
    hcl, depthBehind_closer ho]
  simp [Function.comp_def, unbroken, Token.isNewline_eq_false.2 hokept.newline,
    Token.isNewline_eq_false.2 hckept.newline]

theorem Level.of_bracketed {inside : Bool} (h : Bracketed inside ls)
    (hdepth : inside → 0 < depth) : Level depth ls := by
  induction h generalizing depth with
  | nil => exact .nil depth
  | inline hl _ ih => exact .cons hl (ih hdepth)
  | newline _ ih => exact .newline (hdepth rfl) (ih hdepth)
  | pair ho _ _ ihinner ih =>
    have hinner := Level.enclosed ho (ihinner fun _ => depth.succ_pos)
    simpa using hinner.append (ih hdepth)

theorem Level.of_spelled {e : Expr} (h : e.Spelled ls) (depth : Nat) : Level depth ls :=
  .of_bracketed (.of_spelled h) nofun

/-- Up to its end, which is a newline and taken as well, or a closing brace or the end of the input
and left, `run` is all of `ts` but the line breaks. -/
def CutAt (ts run rest : List Token) : Prop :=
  ∃ read after, ts = read ++ after ∧ run = unbroken read ∧ (∀ t ∈ read, t.lexeme ≠ .endOfInput) ∧
    ((∃ t, t.lexeme = .newline ∧ after = t :: rest) ∨
      (after = rest ∧ ∃ t ∈ rest.head?, t.lexeme = .symbol .rbrace ∨ t.lexeme = .endOfInput))

theorem CutAt.cons (ht : t.lexeme ≠ .newline) (he : t.lexeme ≠ .endOfInput)
    (h : CutAt ts run rest) : CutAt (t :: ts) (t :: run) rest := by
  obtain ⟨read, after, rfl, rfl, hread, hend⟩ := h
  refine ⟨t :: read, after, rfl, ?_, by simpa using ⟨he, hread⟩, hend⟩
  simp [unbroken, Token.isNewline_eq_false.2 ht]

theorem CutAt.break (ht : t.lexeme = .newline) (h : CutAt ts run rest) :
    CutAt (t :: ts) run rest := by
  obtain ⟨read, after, rfl, rfl, hread, hend⟩ := h
  refine ⟨t :: read, after, rfl, ?_, by simpa [ht] using hread, hend⟩
  simp [unbroken, Token.isNewline_iff.2 ht]

theorem cutStatement_some (h : cutStatement depth ts = some (run, rest)) : CutAt ts run rest := by
  rw [cutStatement_eq_some] at h
  induction h with
  | line hnew => exact ⟨[], _, rfl, rfl, by simp, .inl ⟨_, hnew, rfl⟩⟩
  | halt hend => exact ⟨[], _, rfl, rfl, by simp, .inr ⟨rfl, _, rfl, hend⟩⟩
  | «break» hnew _ _ ih => exact ih.break hnew
  | keep hkept _ ih => exact ih.cons hkept.newline hkept.endOfInput

/-- In front of the end of the input, every statement has an end. -/
theorem cutStatement_ne_none (depth : Nat) (h : ∃ t ∈ ts, t.lexeme = .endOfInput) :
    cutStatement depth ts ≠ none := by
  induction ts generalizing depth with
  | nil =>
    obtain ⟨t, ht, -⟩ := h
    cases ht
  | cons t ts ih =>
    have later (hinput : t.lexeme ≠ .endOfInput) (d : Nat) : cutStatement d ts ≠ none := by
      obtain ⟨u, hu, hend⟩ := h
      rcases List.mem_cons.1 hu with rfl | hu
      · exact absurd hend hinput
      · exact ih d ⟨u, hu, hend⟩
    by_cases hinput : t.lexeme = .endOfInput
    · simp [cutStatement, hinput]
    by_cases hnew : t.lexeme = .newline
    · simp only [cutStatement, hnew]
      split
      · simp
      · exact later hinput depth
    by_cases hbrace : t.lexeme = .symbol .rbrace
    · simp [cutStatement, hbrace]
    · rw [cutStatement_keep ⟨hnew, hbrace, hinput⟩, ne_eq, Option.map_eq_none_iff]
      exact later hinput _

/-- A statement that starts with none of its ends has that token. -/
theorem cutStatement_first (hnew : t.lexeme ≠ .newline)
    (hbrace : t.lexeme ≠ .symbol .rbrace) (hinput : t.lexeme ≠ .endOfInput)
    (h : cutStatement depth (t :: ts) = some (run, rest)) : run ≠ [] := by
  cases cutStatement_eq_some.1 h with
  | line ht => exact absurd ht hnew
  | halt hend =>
    rcases hend with hend | hend
    · exact absurd hend hbrace
    · exact absurd hend hinput
  | «break» ht => exact absurd ht hnew
  | keep => exact List.cons_ne_nil _ _

end Pasture.Grammar
