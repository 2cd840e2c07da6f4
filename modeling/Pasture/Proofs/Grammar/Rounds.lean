import Pasture.Proofs.Grammar.Items

/-! # Rounds of modules

A module is read in rounds: each takes a newline, the end of the input, the import block, a function
or a statement, by the token that comes first.
-/
namespace Pasture.Grammar

open Pasture.Parser

variable {n : Nat} {ends : Option Span} {stage : Stage} {ts rest : List Token} {c : Contents}

inductive Round (ends : Option Span) (n : Nat) :
    Stage → List Token → Contents → List Token → Prop where
  | newline {stage t ts c rest} : t.lexeme = .newline → contents n stage ends ts = .ok c rest →
      Round ends n stage (t :: ts) c rest
  | finish {stage t ts} : t.lexeme = .endOfInput → Round ends n stage (t :: ts) {} ts
  | imports {t ts is left c rest} : t.lexeme = .keyword .importing →
      imports ends ts = .ok is left → contents n .definitions ends left = .ok c rest →
      Round ends n .opening (t :: ts) { c with imports := is ++ c.imports } rest
  | function {stage t ts f left c rest} : t.lexeme = .keyword .function → stage ≠ .statements →
      function ends ts = .ok f left → contents n .definitions ends left = .ok c rest →
      Round ends n stage (t :: ts) { c with functions := f :: c.functions } rest
  | item {stage t ts s left c rest} : item ends (t :: ts) = .ok s left →
      contents n .statements ends left = .ok c rest →
      Round ends n stage (t :: ts) { c with statements := s :: c.statements } rest

theorem contents_round (h : contents (n + 1) stage ends ts = .ok c rest) :
    Round ends n stage ts c rest := by
  rw [contents, bind_of_ok current_apply] at h
  cases ts with
  | nil => cases h
  | cons t ts =>
    have entry : (do
        let s ← item
        let rest ← contents n .statements
        return { rest with statements := s :: rest.statements } : Parser Contents) ends (t :: ts) =
        .ok c rest → Round ends n stage (t :: ts) c rest := by
      intro h
      obtain ⟨s, mid, hs, hmid⟩ := bind_eq_ok.1 h
      obtain ⟨c, later, hc, hpure⟩ := bind_eq_ok.1 hmid
      cases hpure
      exact .item hs hc
    simp only [List.head?_cons, Option.map_some] at h
    cases ht : t.lexeme with
    | newline =>
      simp only [ht] at h
      exact .newline ht ((bind_of_ok (advance_eq_ok.2 rfl)).symm.trans h)
    | endOfInput =>
      simp only [ht] at h
      cases h
      exact .finish ht
    | keyword k =>
      simp only [ht] at h
      cases k with
      | importing =>
        by_cases hstage : stage = .opening
        · subst hstage
          obtain ⟨is, mid, hi, hmid⟩ := bind_eq_ok.1 ((bind_of_ok (advance_eq_ok.2 rfl)).symm.trans h)
          obtain ⟨c, later, hc, hpure⟩ := bind_eq_ok.1 hmid
          cases hpure
          exact .imports ht hi hc
        · simp only [hstage, if_false] at h
          cases h
      | function =>
        by_cases hstage : stage = .statements
        · simp only [hstage, if_true] at h
          cases h
        · simp only [hstage, if_false] at h
          obtain ⟨f, mid, hf, hmid⟩ := bind_eq_ok.1 ((bind_of_ok (advance_eq_ok.2 rfl)).symm.trans h)
          obtain ⟨c, later, hc, hpure⟩ := bind_eq_ok.1 hmid
          cases hpure
          exact .function ht hstage hf hc
      | _ => exact entry h
    | symbol b =>
      simp only [ht] at h
      cases b with
      | rbrace => cases h
      | _ => exact entry h
    | _ =>
      simp only [ht] at h
      exact entry h

theorem contents_zero : contents 0 stage ends ts ≠ .ok c rest := nofun

/-- Where a module may go on, no `else` does. -/
theorem contents_noElse (h : contents n stage ends ts = .ok c rest) : NoElse ts := by
  induction n generalizing stage ts c with
  | zero => exact absurd h contents_zero
  | succ n ih =>
    cases contents_round h with
    | newline ht hc => exact noElse_cons_newline ht (ih hc)
    | finish ht | imports ht | function ht => exact noElse_cons (by simp [ht]) (by simp [ht]) _
    | item hs =>
      have ho := item_first hs
      exact noElse_cons (Lexeme.ne_of_opensStatement ho rfl) (Lexeme.ne_of_opensStatement ho rfl) _

theorem contents_only_end {t : Token} (ht : t.lexeme = .endOfInput)
    (h : contents n stage ends [t] = .ok c rest) : c = {} := by
  cases n with
  | zero => exact absurd h contents_zero
  | succ n =>
    rw [contents_end ht] at h
    cases h
    rfl

/-- Behind a statement there are but statements. -/
theorem contents_statements (h : contents n .statements ends ts = .ok c rest) :
    c.imports = [] ∧ c.functions = [] := by
  induction n generalizing ts c with
  | zero => exact absurd h contents_zero
  | succ n ih =>
    cases contents_round h with
    | newline _ hc => exact ih hc
    | finish => exact ⟨rfl, rfl⟩
    | function _ hstage => exact absurd rfl hstage
    | item _ hc =>
      obtain ⟨himports, hfunctions⟩ := ih hc
      exact ⟨himports, hfunctions⟩

def Contents.named (c : Contents) (name : String) : Module where
  name := .simple name
  imports := c.imports
  functions := c.functions
  statements := c.statements

theorem parseTokens_eq_ok {tokens : List Token} {name : String} {m : Module} :
    parseTokens tokens name = .ok m ↔
      ∃ c rest, contents tokens.length .opening (Token.endOf tokens) tokens = .ok c rest ∧
        m = c.named name := by
  have hrun : (moduleNamed name).run tokens =
      (contents tokens.length .opening >>= fun c => pure (c.named name)) (Token.endOf tokens)
        tokens := rfl
  unfold parseTokens
  rw [hrun, bind_apply]
  cases hc : contents tokens.length .opening (Token.endOf tokens) tokens with
  | ok c rest => exact ⟨fun h => ⟨c, rest, rfl, (Except.ok.inj h).symm⟩, fun ⟨_, _, h, hm⟩ => by
      cases h
      rw [hm]
      rfl⟩
  | error e left => simp

theorem parseTokens_eq_error {tokens : List Token} {name : String} {e : ParseError}
    {left : List Token}
    (h : contents tokens.length .opening (Token.endOf tokens) tokens = .error e left) :
    parseTokens tokens name = .error e := by
  have hrun : (moduleNamed name).run tokens =
      (contents tokens.length .opening >>= fun c => pure (c.named name)) (Token.endOf tokens)
        tokens := rfl
  unfold parseTokens
  rw [hrun, bind_apply, h]

end Pasture.Grammar
