import Pasture.Proofs.Grammar.Locality
import Pasture.Proofs.Grammar.StatementSound

/-! # Brackets of statements

The cut of a statement knows how deep it is in brackets. It comes back to the depth it started at
behind whatever is accepted as a statement, so that a newline there ends the statement as well as
the end of the input does.
-/
namespace Pasture.Grammar

open Pasture.Parser

variable {depth : Nat} {ends : Option Span} {ts run read rest : List Token}

def Crosses (depth : Nat) (read run : List Token) (after : Nat) : Prop :=
  ∀ rest, cutStatement depth (read ++ rest) =
    (cutStatement after rest).map fun p => (run ++ p.1, p.2)

theorem Crosses.nil (depth : Nat) : Crosses depth [] [] depth := by
  intro rest
  simp

theorem Crosses.trans {mid after : Nat} {read' run' : List Token} (h : Crosses depth read run mid)
    (k : Crosses mid read' run' after) : Crosses depth (read ++ read') (run ++ run') after := by
  intro rest
  rw [List.append_assoc, h, k, Option.map_map]
  simp [Function.comp_def]

/-- A cut at its end: it has crossed what it read and was level then, in front of a newline that it
took, or it was stopped by the rest. -/
structure CutBehind (depth after : Nat) (ts read run rest : List Token) : Prop where
  crosses : Crosses depth read run after
  kept : Crosses depth run run after
  run_eq : run = unbroken read
  endless : Endless read
  stop : (∃ t, t.lexeme = .newline ∧ after = 0 ∧ ts = read ++ t :: rest) ∨
    (ts = read ++ rest ∧ Halts rest)

theorem CutBehind.stop_cons {after : Nat} (h : CutBehind depth after ts read run rest) (t : Token) :
    (∃ u, u.lexeme = .newline ∧ after = 0 ∧ t :: ts = t :: read ++ u :: rest) ∨
      (t :: ts = t :: read ++ rest ∧ Halts rest) := by
  rcases h.stop with ⟨u, hu, hafter, rfl⟩ | ⟨rfl, hhalts⟩
  · exact .inl ⟨u, hu, hafter, rfl⟩
  · exact .inr ⟨rfl, hhalts⟩

theorem CutBehind.keep {t : Token} {after : Nat} (ht : Kept t.lexeme)
    (h : CutBehind (depthBehind depth t.lexeme) after ts read run rest) :
    CutBehind depth after (t :: ts) (t :: read) (t :: run) rest := by
  have hone : Crosses depth [t] [t] (depthBehind depth t.lexeme) := fun rest => cutStatement_keep ht
  constructor
  · exact hone.trans h.crosses
  · exact hone.trans h.kept
  · simp [unbroken, Token.isNewline_eq_false.2 ht.newline, h.run_eq]
  · exact List.forall_mem_cons.2 ⟨ht.endOfInput, h.endless⟩
  · exact h.stop_cons t

theorem CutBehind.break {t : Token} {after : Nat} (ht : t.lexeme = .newline) (hdepth : depth ≠ 0)
    (h : CutBehind depth after ts read run rest) :
    CutBehind depth after (t :: ts) (t :: read) run rest := by
  constructor
  · intro rest
    have hrest := h.crosses rest
    simpa [cutStatement, ht, hdepth] using hrest
  · exact h.kept
  · simp [unbroken, Token.isNewline_iff.2 ht, h.run_eq]
  · exact List.forall_mem_cons.2 ⟨by simp [ht], h.endless⟩
  · exact h.stop_cons t

theorem cutStatement_behind (h : cutStatement depth ts = some (run, rest)) :
    ∃ read after, CutBehind depth after ts read run rest := by
  rw [cutStatement_eq_some] at h
  induction h with
  | line hnew =>
    exact ⟨[], 0, .nil 0, .nil 0, rfl, List.forall_mem_nil _, .inl ⟨_, hnew, rfl, rfl⟩⟩
  | @halt depth t rest hend =>
    exact ⟨[], depth, .nil depth, .nil depth, rfl, List.forall_mem_nil _, .inr ⟨rfl, t, rfl, hend⟩⟩
  | «break» hnew hdepth _ ih =>
    obtain ⟨read, after, hbehind⟩ := ih
    exact ⟨_ :: read, after, hbehind.break hnew hdepth⟩
  | keep hkept _ ih =>
    obtain ⟨read, after, hbehind⟩ := ih
    exact ⟨_ :: read, after, hbehind.keep hkept⟩

def Balances {α : Type} (p : Parser α) : Prop :=
  ∀ ⦃ends ts a rest⦄, p ends ts = .ok a rest →
    ∃ read, ts = read ++ rest ∧ Bracketed false (read.map Token.lexeme)

section Balance

variable {α β : Type} {p : Parser α}

theorem Balances.bind {f : α → Parser β} (hp : Balances p) (hf : ∀ a, Balances (f a)) :
    Balances (p >>= f) := by
  intro ends ts b rest h
  obtain ⟨a, mid, hpa, hfa⟩ := bind_eq_ok.1 h
  obtain ⟨read, rfl, hread⟩ := hp hpa
  obtain ⟨more, rfl, hmore⟩ := hf a hfa
  refine ⟨read ++ more, by simp, ?_⟩
  rw [List.map_append]
  exact hread.append hmore

theorem Balances.nothing (h : ∀ {ends ts a rest}, p ends ts = .ok a rest → rest = ts) :
    Balances p := by
  intro ends ts a rest hp
  obtain rfl := h hp
  exact ⟨[], rfl, .nil⟩

theorem pure_balances (a : α) : Balances (pure a) := .nothing fun {ends ts b rest} h => by
  cases h
  rfl

theorem identifier_balances (what : Expectation) : Balances (identifier what) := by
  intro ends ts i rest h
  obtain ⟨t, ht, rfl⟩ := identifier_eq_ok.1 h
  refine ⟨[t], rfl, .inline ?_ .nil⟩
  rw [ht]
  rfl

theorem expect_balances {k : Kind} (hk : ∀ {t : Token}, t.kind = k → t.lexeme.isInline)
    (what : Expectation) : Balances (expect k what) := by
  intro ends ts u rest h
  obtain ⟨t, ht, rfl⟩ := expect_eq_ok.1 h
  exact ⟨[t], rfl, .inline (hk ht) .nil⟩

theorem expression_balances : Balances expression := by
  intro ends ts e rest h
  obtain ⟨-, ls, ⟨read, rfl, rfl⟩, hs⟩ := expression_reads h
  exact ⟨read, rfl, .of_spelled hs⟩

theorem declaration_balances (left : Expr) (colon : Token) (isMutable : Bool) :
    Balances (declaration left colon isMutable) := by
  unfold declaration
  split
  · refine (identifier_balances _).bind fun type => ?_
    refine (expect_balances (fun ht => ?_) _).bind fun _ => ?_
    · simp [Token.kind_eq_symbol.1 ht, Lexeme.isInline]
    · exact expression_balances.bind fun value => pure_balances _
  · intro ends ts s rest h
    cases h

theorem assignment_balances (left : Expr) (sign : Token) : Balances (assignment left sign) := by
  unfold assignment
  split
  · exact nofun
  · refine expression_balances.bind fun right => ?_
    split <;> exact pure_balances _

/-- The sign is passed as well. -/
theorem signed_balances (left : Expr) (isMutable : Bool) :
    Balances (advance >>= fun sign => signed left sign isMutable) := by
  intro ends ts s rest h
  obtain ⟨sign, mid, hadvance, hsigned⟩ := bind_eq_ok.1 h
  obtain rfl := advance_eq_ok.1 hadvance
  have behind : ∀ {p : Parser Statement}, sign.lexeme.isInline → Balances p →
      p ends mid = .ok s rest →
      ∃ read, sign :: mid = read ++ rest ∧ Bracketed false (read.map Token.lexeme) := by
    intro p hpassed hp h
    obtain ⟨read, rfl, hread⟩ := hp h
    exact ⟨sign :: read, rfl, .inline hpassed hread⟩
  have assigned : sign.lexeme.isInline →
      (if isMutable then refuse (some sign) .untyped [typeHint left]
        else assignment left sign) ends mid = .ok s rest →
      ∃ read, sign :: mid = read ++ rest ∧ Bracketed false (read.map Token.lexeme) := by
    intro hpassed h
    split at h
    · cases h
    · exact behind hpassed (assignment_balances left sign) h
  simp only [signed] at hsigned
  cases hl : sign.lexeme with
  | symbol b =>
    simp only [hl] at hsigned
    cases b with
    | colon => exact behind (by simp [hl, Lexeme.isInline]) (declaration_balances _ _ _) hsigned
    | assign => exact assigned (by simp [hl, Lexeme.isInline]) hsigned
    | _ => cases hsigned
  | fused op =>
    simp only [hl] at hsigned
    exact assigned (by simp [hl, Lexeme.isInline]) hsigned
  | _ =>
    simp only [hl] at hsigned
    cases hsigned

/-- A statement takes up all of its stream. -/
theorem plainStatement_balances {s : Statement} {isMutable : Bool}
    (h : plainStatement isMutable ends ts = .ok s rest) :
    rest = [] ∧ Bracketed false (ts.map Token.lexeme) := by
  obtain ⟨left, mid, hleft, hmid⟩ := bind_eq_ok.1 h
  obtain ⟨read, rfl, hread⟩ := expression_balances hleft
  rw [bind_of_ok current_apply] at hmid
  cases mid with
  | nil =>
    cases isMutable with
    | true => cases hmid
    | false =>
      cases hmid
      exact ⟨rfl, by simpa using hread⟩
  | cons t mid =>
    obtain ⟨sign, mid', hadvance, hsigned⟩ := bind_eq_ok.1 hmid
    obtain ⟨s', mid'', hstatement, hend⟩ := bind_eq_ok.1 hsigned
    cases advance_eq_ok.1 hadvance
    obtain ⟨u, last, hlast, hpure⟩ := bind_eq_ok.1 hend
    obtain ⟨rfl, rfl⟩ := statementEnd_eq_ok hlast
    cases hpure
    obtain ⟨more, hmore, hbracketed⟩ :=
      signed_balances left isMutable ((bind_of_ok hadvance).trans hstatement)
    rw [List.append_nil] at hmore
    refine ⟨rfl, ?_⟩
    rw [List.map_append, hmore]
    exact hread.append hbracketed

theorem result_balances {s : Statement} (h : result ends ts = .ok s rest) :
    rest = [] ∧ Bracketed false (ts.map Token.lexeme) := by
  obtain ⟨empty, mid, hempty, hresult⟩ := bind_eq_ok.1 h
  cases hempty
  cases ts with
  | nil =>
    cases hresult
    exact ⟨rfl, .nil⟩
  | cons t ts =>
    obtain ⟨e, mid, he, hmid⟩ := bind_eq_ok.1 hresult
    obtain ⟨read, hts, hread⟩ := expression_balances he
    obtain ⟨u, last, hlast, hpure⟩ := bind_eq_ok.1 hmid
    obtain ⟨rfl, rfl⟩ := statementEnd_eq_ok hlast
    cases hpure
    rw [List.append_nil] at hts
    rw [hts]
    exact ⟨rfl, hread⟩

theorem simpleStatement_balances {s : Statement} (h : simpleStatement ends ts = .ok s rest) :
    rest = [] ∧ Bracketed false (ts.map Token.lexeme) := by
  have word : ∀ {t : Token} {us : List Token} {k : Keyword}, t.kind = .keyword k →
      Bracketed false (us.map Token.lexeme) → Bracketed false ((t :: us).map Token.lexeme) := by
    intro t us k ht hus
    refine .inline ?_ hus
    simp [Token.kind_eq_keyword.1 ht, Lexeme.isInline]
  obtain ⟨returned, mid, hskip, hmid⟩ := bind_eq_ok.1 h
  cases returned with
  | true =>
    obtain ⟨t, ht, rfl⟩ := skip_eq_true.1 hskip
    obtain ⟨rfl, hbracketed⟩ := result_balances hmid
    exact ⟨rfl, word ht hbracketed⟩
  | false =>
    obtain ⟨rfl, -⟩ := skip_eq_false.1 hskip
    obtain ⟨isMutable, mid', hvar, hplain⟩ := bind_eq_ok.1 hmid
    obtain ⟨rfl, hbracketed⟩ := plainStatement_balances hplain
    refine ⟨rfl, ?_⟩
    cases isMutable with
    | true =>
      obtain ⟨t, ht, rfl⟩ := skip_eq_true.1 hvar
      exact word ht hbracketed
    | false =>
      obtain ⟨rfl, -⟩ := skip_eq_false.1 hvar
      exact hbracketed

end Balance

/-- What is crossed and balanced is crossed without a change of depth. -/
theorem Crosses.depth_eq {after : Nat} (h : Crosses 0 run run after)
    (hlevel : Level 0 (run.map Token.lexeme)) : after = 0 := by
  by_contra hafter
  have hnew : (Token.plain .newline none).lexeme = .newline := rfl
  have hcut := (hlevel run [.plain .newline none] rfl).symm.trans (h [.plain .newline none])
  simp [cutStatement, hnew, hafter] at hcut

/-- A statement depends on the tokens that it takes, and on the closing brace or the end behind it
unless it took a newline. A newline takes the place of either. -/
theorem statement_behind {s : Statement} (h : statement ends ts = .ok s rest) :
    ∃ read, ts = read ++ rest ∧ 1 ≤ (unbroken read).length ∧ Endless read ∧
      (∀ ends' rest', (Halts rest → Halts rest') →
        statement ends' (read ++ rest') = .ok s rest') ∧
      ∀ ends' t more, t.lexeme = .newline → ∃ left, (left = more ∨ left = t :: more) ∧
        statement ends' (read ++ t :: more) = .ok s left := by
  obtain ⟨run, left, hcut, hrun⟩ := statement_eq_ok.1 h
  obtain ⟨read, after, hbehind⟩ := cutStatement_behind hcut
  obtain rfl : after = 0 := hbehind.kept.depth_eq
    (.of_bracketed (simpleStatement_balances hrun).2 nofun)
  have hsome : 1 ≤ (unbroken read).length := by
    rw [← hbehind.run_eq, Nat.one_le_iff_ne_zero, ne_eq, List.length_eq_zero_iff]
    rintro rfl
    cases hrun
  -- the same run is cut out wherever a cut at depth zero ends behind it
  have found : ∀ {ends' us left'}, cutStatement 0 us = some ([], left') →
      statement ends' (read ++ us) = .ok s left' := by
    intro ends' us left' hus
    refine statement_eq_ok.2 ⟨run, left, ?_, hrun⟩
    rw [hbehind.crosses, hus]
    simp
  have newline : ∀ {ends' t more}, t.lexeme = .newline →
      statement ends' (read ++ t :: more) = .ok s more := by
    intro ends' t more ht
    exact found (by simp [cutStatement, ht])
  rcases hbehind.stop with ⟨u, hu, -, rfl⟩ | ⟨rfl, hhalts⟩
  · refine ⟨read ++ [u], by simp, by simp; omega, hbehind.endless.append ?_, ?_, ?_⟩
    · simp [Endless, hu]
    · intro ends' rest' _
      have hsame : statement ends' (read ++ u :: rest') = .ok s rest' := newline hu
      simpa using hsame
    · intro ends' t more _
      have hsame : statement ends' (read ++ u :: t :: more) = .ok s (t :: more) := newline hu
      exact ⟨t :: more, .inr rfl, by simpa using hsame⟩
  · refine ⟨read, rfl, hsome, hbehind.endless, ?_, ?_⟩
    · intro ends' rest' hrest
      obtain ⟨t, ht, hend⟩ := hrest hhalts
      obtain ⟨us, rfl⟩ := List.head?_eq_some_iff.1 ht
      refine found ?_
      rcases hend with hend | hend <;> simp [cutStatement, hend]
    · intro ends' t more ht
      exact ⟨more, .inl rfl, newline ht⟩

end Pasture.Grammar
