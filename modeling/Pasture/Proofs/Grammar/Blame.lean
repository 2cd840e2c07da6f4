import Pasture.Proofs.Grammar.StatementCut

/-! # Where errors point

A parser that fails blames a token of its stream, or the place behind the stream if that ran out.
The stream of a module ends with the end of the input, and no parser takes that token before the
module is complete, so such a stream does not run out. What is cut out for a statement may run out,
but it has a last token to point behind. The places are left open here: any property of spans that
the tokens have is shown of the errors.
-/
namespace Pasture.Grammar

open Pasture.Parser

/-- The token has a place, and so has what follows it, unless it is a newline or the end. -/
structure Located (P : Span → Prop) (t : Token) : Prop where
  span : ∃ s ∈ t.span, P s
  after : t.lexeme ≠ .newline → t.lexeme ≠ .endOfInput → ∃ s ∈ t.span, P s.after

/-- The tokens have their places, and the stream has one behind it or cannot run out. -/
structure Guarded (P : Span → Prop) (ends : Option Span) (ts : List Token) : Prop where
  tokens : ∀ t ∈ ts, Located P t
  stop : (∃ s ∈ ends, P s) ∨ ∃ t ∈ ts, t.lexeme = .endOfInput

structure Blamed (P : Span → Prop) (e : ParseError) : Prop where
  phase : e.phase = .syntactic
  span : ∃ s ∈ e.span, P s
  token : ∀ t ∈ e.token, e.span = t.span

def Fine {α : Type} (P : Span → Prop) (ends : Option Span) :
    EStateM.Result ParseError (List Token) α → Prop
  | .ok _ rest => Guarded P ends rest
  | .error e _ => Blamed P e

def Careful {α : Type} (P : Span → Prop) (p : Parser α) : Prop :=
  ∀ ⦃ends ts⦄, Guarded P ends ts → Fine P ends (p ends ts)

variable {α β : Type} {P : Span → Prop} {ends : Option Span} {ts rest : List Token}

section Steps

theorem Guarded.tail {t : Token} (h : Guarded P ends (t :: ts)) (ht : t.lexeme ≠ .endOfInput) :
    Guarded P ends ts := by
  refine ⟨fun u hu => h.tokens u (List.mem_cons_of_mem t hu), ?_⟩
  rcases h.stop with hends | ⟨u, hu, hend⟩
  · exact .inl hends
  · rcases List.mem_cons.1 hu with rfl | hu
    · exact absurd hend ht
    · exact .inr ⟨u, hu, hend⟩

/-- Whatever is refused at the front of the stream has a place. -/
theorem Guarded.blamed (h : Guarded P ends ts) (complaint : Complaint)
    (suggestions : List Suggestion) :
    Blamed P (.syntactic complaint ends ts.head? suggestions) := by
  cases ts with
  | nil =>
    refine ⟨rfl, ?_, fun t ht => nomatch ht⟩
    rcases h.stop with hends | ⟨t, ht, -⟩
    · exact hends
    · cases ht
  | cons t ts =>
    refine ⟨rfl, (h.tokens t List.mem_cons_self).span, ?_⟩
    rintro _ ⟨⟩
    rfl

theorem Fine.bind {p : Parser α} {f : α → Parser β} (hp : Fine P ends (p ends ts))
    (hf : ∀ a mid, p ends ts = .ok a mid → Guarded P ends mid → Fine P ends (f a ends mid)) :
    Fine P ends ((p >>= f) ends ts) := by
  rw [bind_apply]
  cases hr : p ends ts with
  | ok a mid =>
    rw [hr] at hp
    exact hf a mid hr hp
  | error e mid =>
    rw [hr] at hp
    exact hp

theorem Careful.bind {p : Parser α} {f : α → Parser β} (hp : Careful P p)
    (hf : ∀ a, Careful P (f a)) : Careful P (p >>= f) := by
  intro ends ts h
  exact (hp h).bind fun a mid _ hmid => hf a hmid

theorem Careful.ite {p q : Parser α} {c : Prop} [Decidable c] (hp : Careful P p)
    (hq : Careful P q) : Careful P (if c then p else q) := by
  split
  · exact hp
  · exact hq

theorem pure_careful (a : α) : Careful P (pure a : Parser α) := fun _ _ h => h

theorem fail_careful (complaint : Complaint) (suggestions : List Suggestion) :
    Careful P (fail complaint suggestions : Parser α) :=
  fun _ _ h => h.blamed complaint suggestions

theorem take_careful {k : Kind} (hk : k ≠ .endOfInput) (complaint : Complaint) :
    Careful P (take k complaint) := by
  intro ends ts h
  cases ts with
  | nil => exact h.blamed complaint []
  | cons t ts =>
    simp only [take]
    split
    · rename_i ht
      refine h.tail fun hend => hk ?_
      rw [← ht, Token.kind, hend]
      rfl
    · exact h.blamed complaint []

theorem expect_careful {k : Kind} (hk : k ≠ .endOfInput) (what : Expectation) :
    Careful P (expect k what) :=
  (take_careful hk _).bind fun _ => pure_careful ()

theorem identifier_careful (what : Expectation) : Careful P (identifier what) := by
  intro ends ts h
  cases ts with
  | nil => exact h.blamed (.expected what) []
  | cons t ts =>
    simp only [identifier]
    split
    · rename_i i ht
      exact h.tail (by simp [ht])
    · exact h.blamed (.expected what) []

theorem operatorIn_careful (ops : List Operator) : Careful P (operatorIn ops) := by
  intro ends ts h
  cases ts with
  | nil => exact h
  | cons t ts =>
    simp only [operatorIn]
    split
    · rename_i op ht
      split
      · exact h.tail (by simp [ht])
      · exact h
    · exact h

theorem skip_careful {k : Kind} (hk : k ≠ .endOfInput) : Careful P (skip k) := by
  intro ends ts h
  cases ts with
  | nil => exact h
  | cons t ts =>
    simp only [skip]
    split
    · rename_i ht
      refine h.tail fun hend => hk ?_
      rw [← ht, Token.kind, hend]
      rfl
    · exact h

theorem sees_careful (k : Kind) : Careful P (sees k) := fun _ _ h => h

theorem seesAny_careful (ks : List Kind) : Careful P (seesAny ks) := fun _ _ h => h

theorem Guarded.dropNewlines (h : Guarded P ends ts) :
    Guarded P ends (ts.dropWhile Token.isNewline) := by
  induction ts with
  | nil => exact h
  | cons t ts ih =>
    by_cases ht : t.lexeme = .newline
    · rw [List.dropWhile_cons_of_pos (Token.isNewline_iff.2 ht)]
      exact ih (h.tail (by simp [ht]))
    · rw [List.dropWhile_cons_of_neg (by simpa using ht)]
      exact h

theorem skipNewlines_careful : Careful P skipNewlines := fun _ _ h => h.dropNewlines

/-- A token that is not the end may be taken. -/
theorem advance_fine (h : Guarded P ends ts) (ht : ∀ t ∈ ts.head?, t.lexeme ≠ .endOfInput) :
    Fine P ends (advance ends ts) := by
  cases ts with
  | nil => exact h.blamed (.expected .more) []
  | cons t ts => exact h.tail (ht t rfl)

end Steps

section Expressions

variable {operand nested : Parser Expr}

theorem leftChain_careful (ops : List Operator) (ho : Careful P operand) (n : Nat) (left : Expr) :
    Careful P (leftChain ops operand n left) := by
  induction n generalizing left with
  | zero => exact pure_careful left
  | succ n ih =>
    refine (operatorIn_careful ops).bind fun o => ?_
    cases o with
    | none => exact pure_careful left
    | some op => exact ho.bind fun right => ih (.binary left op right)

theorem rightChain_careful (ops : List Operator) (ho : Careful P operand) (n : Nat) :
    Careful P (rightChain ops operand n) := by
  induction n with
  | zero => exact ho
  | succ n ih =>
    refine ho.bind fun left => (operatorIn_careful ops).bind fun o => ?_
    cases o with
    | none => exact pure_careful left
    | some op => exact ih.bind fun right => pure_careful _

theorem prefixChain_careful (ops : List Operator) (ho : Careful P operand) (n : Nat) :
    Careful P (prefixChain ops operand n) := by
  induction n with
  | zero => exact ho
  | succ n ih =>
    refine (sees_careful .operator).bind fun seen => Careful.ite ?_ ho
    refine (operatorIn_careful ops).bind fun o => ?_
    cases o with
    | none => exact fail_careful .notUnary []
    | some op => exact ih.bind fun inner => pure_careful _

theorem climb_careful (ho : Careful P operand) (n : Nat) (rows : List PrecedenceRow) :
    Careful P (climb operand n rows) := by
  induction rows with
  | nil => exact ho
  | cons row rows ih =>
    unfold climb
    split
    · exact ih.bind fun first => leftChain_careful row.operators ih n first
    · exact rightChain_careful row.operators ih n
    · exact prefixChain_careful row.operators ih n

theorem commaList_careful {item : Parser α} (hi : Careful P item) (close : Symbol)
    (what : Expectation) (n : Nat) : Careful P (commaList close what item n) := by
  induction n with
  | zero => exact hi.bind fun x => pure_careful _
  | succ n ih =>
    refine skipNewlines_careful.bind fun _ => hi.bind fun x => ?_
    refine skipNewlines_careful.bind fun _ => (skip_careful (by simp)).bind fun more => ?_
    refine Careful.ite (ih.bind fun xs => pure_careful _) ?_
    exact (expect_careful (by simp) what).bind fun _ => pure_careful _

theorem listItems_careful {item : Parser α} (hi : Careful P item) (close : Symbol)
    (what : Expectation) (n : Nat) : Careful P (listItems close what item n) := by
  refine skipNewlines_careful.bind fun _ => (skip_careful (by simp)).bind fun closed => ?_
  exact Careful.ite (pure_careful []) (commaList_careful hi close what n)

theorem listItem_careful (hn : Careful P nested) (close : Symbol) (what : Expectation) :
    Careful P (listItem nested close what) :=
  (seesAny_careful _).bind fun _ => Careful.ite (fail_careful (.expected what) []) hn

theorem bound_careful (hn : Careful P nested) (next : Symbol) : Careful P (bound nested next) :=
  (sees_careful _).bind fun _ =>
    Careful.ite (pure_careful none) (hn.bind fun _ => pure_careful _)

theorem index_careful (hn : Careful P nested) : Careful P (index nested) := by
  refine (bound_careful hn .colon).bind fun start => (skip_careful (by simp)).bind fun colon => ?_
  have slice : Careful P (do
      let stop ← bound nested .rbracket
      expect (.symbol .rbracket) .sliceClose
      return .slice start stop : Parser (Index Expr)) :=
    (bound_careful hn .rbracket).bind fun stop =>
      (expect_careful (by simp) .sliceClose).bind fun _ => pure_careful _
  cases start with
  | none => exact slice
  | some value =>
    cases colon with
    | true => exact slice
    | false => exact (expect_careful (by simp) .indexClose).bind fun _ => pure_careful _

theorem indices_careful (hn : Careful P nested) (n : Nat) (base : Expr) :
    Careful P (indices nested n base) := by
  induction n generalizing base with
  | zero => exact pure_careful base
  | succ n ih =>
    refine (skip_careful (by simp)).bind fun opened => Careful.ite ?_ (pure_careful base)
    exact (index_careful hn).bind fun i => ih (.element base i)

/-- The end of the input starts no atom, so that it is not taken. -/
theorem primary_careful (hn : Careful P nested) (n : Nat) : Careful P (primary nested n) := by
  intro ends ts h
  have other : Fine P ends ((fail (.expected .expression) : Parser Expr) ends ts) :=
    fail_careful (.expected .expression) [] h
  cases ts with
  | nil => exact other
  | cons t ts =>
    have taken : t.lexeme ≠ .endOfInput → ∀ {f : Token → Parser Expr}, (∀ t, Careful P (f t)) →
        Fine P ends ((advance >>= f) ends (t :: ts)) := by
      intro ht f hf
      exact (advance_fine h (by simpa using ht)).bind fun a mid _ hmid => hf a hmid
    rw [primary, bind_of_ok current_apply]
    simp only [List.head?_cons, Option.map_some]
    cases ht : t.lexeme with
    | literal value => exact taken (by simp [ht]) fun _ => pure_careful _
    | identifier i =>
      refine taken (by simp [ht]) fun _ => (skip_careful (by simp)).bind fun called => ?_
      refine Careful.ite (Careful.bind ?_ fun es => pure_careful _) (pure_careful _)
      exact listItems_careful (listItem_careful hn .rparen .argument) .rparen .argumentsClose n
    | symbol b =>
      cases b with
      | lparen =>
        refine taken (by simp [ht]) fun _ => hn.bind fun inner => ?_
        exact (expect_careful (by simp) .groupClose).bind fun _ => pure_careful _
      | lbracket =>
        refine taken (by simp [ht]) fun _ => Careful.bind ?_ fun es => pure_careful _
        exact listItems_careful (listItem_careful hn .rbracket .element) .rbracket .elementsClose n
      | _ => exact other
    | _ => exact other

theorem atomOver_careful (hn : Careful P nested) (n : Nat) : Careful P (atomOver nested n) :=
  (primary_careful hn n).bind fun base => indices_careful hn n base

theorem expressionOver_careful (hn : Careful P nested) (n : Nat) :
    Careful P (expressionOver nested n) := by
  refine (climb_careful (atomOver_careful hn n) n precedence).bind fun condition => ?_
  refine (skip_careful (by simp)).bind fun asked => Careful.ite ?_ (pure_careful condition)
  refine hn.bind fun whenTrue => (expect_careful (by simp) .ternaryColon).bind fun _ => ?_
  exact hn.bind fun whenFalse => pure_careful _

theorem expressionWithin_careful (n : Nat) : Careful P (expressionWithin n) := by
  induction n with
  | zero => exact fail_careful (.expected .expression) []
  | succ n ih => exact expressionOver_careful ih (n + 1)

theorem expression_careful : Careful P expression :=
  fun _ ts h => expressionWithin_careful ts.length h

end Expressions

section Slices

theorem Guarded.tail_of_placed {t : Token} (h : Guarded P ends (t :: ts))
    (hends : ∃ s ∈ ends, P s) : Guarded P ends ts :=
  ⟨fun u hu => h.tokens u (List.mem_cons_of_mem t hu), .inl hends⟩

theorem refuse_careful {t : Token} (ht : Located P t) (complaint : Complaint)
    (suggestions : List Suggestion) :
    Careful P (refuse (some t) complaint suggestions : Parser α) := by
  intro ends ts h
  refine ⟨rfl, ht.span, ?_⟩
  rintro _ ⟨⟩
  rfl

theorem statementEnd_careful : Careful P statementEnd := by
  intro ends ts h
  cases ts with
  | nil => exact h
  | cons t ts => exact h.blamed .unrecognised []

theorem result_careful : Careful P result := by
  have exhausted_careful : Careful P exhausted := fun _ _ h => h
  refine exhausted_careful.bind fun _ => Careful.ite (pure_careful _) ?_
  exact expression_careful.bind fun _ => statementEnd_careful.bind fun _ => pure_careful _

theorem declaration_careful {colon : Token} (hc : Located P colon) (left : Expr)
    (isMutable : Bool) : Careful P (declaration left colon isMutable) := by
  unfold declaration
  split
  · refine (identifier_careful .typeName).bind fun _ => ?_
    refine (expect_careful (by simp) .initialiser).bind fun _ => ?_
    exact expression_careful.bind fun _ => pure_careful _
  · exact refuse_careful hc (.expected .declaredName) []

theorem assignment_careful {sign : Token} (hs : Located P sign) (left : Expr) :
    Careful P (assignment left sign) := by
  unfold assignment
  split
  · exact refuse_careful hs (.expected .reference) []
  · refine expression_careful.bind fun right => ?_
    split <;> exact pure_careful _

theorem signed_careful {sign : Token} (hs : Located P sign) (left : Expr) (isMutable : Bool) :
    Careful P (signed left sign isMutable) := by
  unfold signed
  split
  · exact declaration_careful hs left isMutable
  · exact Careful.ite (refuse_careful hs .untyped _) (assignment_careful hs left)
  · exact Careful.ite (refuse_careful hs .untyped _) (assignment_careful hs left)
  · exact refuse_careful hs .unrecognised []

/-- The sign is taken whatever it is, so there must be a place behind the stream. -/
theorem plainStatement_fine (h : Guarded P ends ts) (hends : ∃ s ∈ ends, P s) (isMutable : Bool) :
    Fine P ends (plainStatement isMutable ends ts) := by
  refine (expression_careful h).bind fun left mid _ hmid => ?_
  rw [bind_of_ok current_apply]
  cases mid with
  | nil => exact Careful.ite (fail_careful (.expected .declaredType) []) (pure_careful _) hmid
  | cons sign mid =>
    have hsign := hmid.tokens sign List.mem_cons_self
    have hrest := hmid.tail_of_placed hends
    refine Fine.bind (p := advance) hrest fun t later ht hlater => ?_
    cases ht
    refine (signed_careful hsign left isMutable hlater).bind fun s last _ hlast => ?_
    exact statementEnd_careful.bind (fun _ => pure_careful s) hlast

theorem simpleStatement_fine (h : Guarded P ends ts) (hends : ∃ s ∈ ends, P s) :
    Fine P ends (simpleStatement ends ts) := by
  refine (skip_careful (by simp) h).bind fun returned mid _ hmid => ?_
  split
  · exact result_careful hmid
  · refine (skip_careful (by simp) hmid).bind fun isMutable later _ hlater => ?_
    exact plainStatement_fine hlater hends isMutable

/-- What is cut out for a statement has a place behind it. -/
theorem endOf_placed (hts : ts ≠ [])
    (h : ∀ t ∈ ts, Located P t ∧ t.lexeme ≠ .newline ∧ t.lexeme ≠ .endOfInput) :
    ∃ s ∈ Token.endOf ts, P s := by
  obtain ⟨hlast, hnew, hend⟩ := h _ (List.getLast_mem hts)
  obtain ⟨s, hs, hafter⟩ := hlast.after hnew hend
  refine ⟨s.after, ?_, hafter⟩
  have hsplit := List.dropLast_concat_getLast hts
  rw [← hsplit, Token.endOf]
  simp [Option.mem_def.1 hs]

theorem Guarded.cut {run : List Token} (h : Guarded P ends ts) (hcut : CutAt ts run rest) :
    Guarded P ends rest ∧
      ∀ t ∈ run, Located P t ∧ t.lexeme ≠ .newline ∧ t.lexeme ≠ .endOfInput := by
  obtain ⟨read, after, rfl, rfl, hread, hend⟩ := hcut
  have hafter : Guarded P ends after := by
    refine ⟨fun t ht => h.tokens t (List.mem_append_right _ ht), ?_⟩
    rcases h.stop with hends | ⟨t, ht, htl⟩
    · exact .inl hends
    · rcases List.mem_append.1 ht with ht | ht
      · exact absurd htl (hread t ht)
      · exact .inr ⟨t, ht, htl⟩
  constructor
  · rcases hend with ⟨t, ht, rfl⟩ | ⟨rfl, -⟩
    · exact hafter.tail (by simp [ht])
    · exact hafter
  · intro t ht
    obtain ⟨hmem, hnew⟩ := List.mem_filter.1 ht
    exact ⟨h.tokens t (List.mem_append_left _ hmem), by simpa using hnew, hread t hmem⟩

def Unended (ts : List Token) : Prop :=
  ∀ t ∈ ts.head?, t.lexeme ≠ .newline ∧ t.lexeme ≠ .symbol .rbrace ∧ t.lexeme ≠ .endOfInput

/-- A statement does not start where it would end, so that its slice has a token. -/
theorem statement_fine (h : Guarded P ends ts) (hfirst : Unended ts) :
    Fine P ends (statement ends ts) := by
  cases hcut : cutStatement 0 ts with
  | none =>
    have hends : ∃ s ∈ ends, P s := by
      rcases h.stop with hends | hend
      · exact hends
      · exact absurd hcut (cutStatement_ne_none 0 hend)
    have htokens : statementTokens ends ts =
        .error (.syntactic (.expected .statementEnd) ends none) [] := by
      simp [statementTokens, hcut]
    rw [statement, bind_apply, htokens]
    exact ⟨rfl, hends, fun t ht => nomatch ht⟩
  | some p =>
    obtain ⟨run, rest⟩ := p
    have htokens : statementTokens ends ts = .ok run rest := by simp [statementTokens, hcut]
    obtain ⟨hrest, hrun⟩ := h.cut (cutStatement_some hcut)
    have hsome : run ≠ [] := by
      cases ts with
      | nil => cases hcut
      | cons t ts =>
        obtain ⟨hnew, hbrace, hinput⟩ := hfirst t rfl
        exact cutStatement_first hnew hbrace hinput hcut
    have hends := endOf_placed hsome hrun
    have hslice : Guarded P (Token.endOf run) run := ⟨fun t ht => (hrun t ht).1, .inl hends⟩
    have hfine := simpleStatement_fine hslice hends
    rw [statement, bind_of_ok htokens]
    unfold Parser.run
    cases hs : simpleStatement (Token.endOf run) run with
    | ok s left => exact hrest
    | error e left =>
      rw [hs] at hfine
      exact hfine

end Slices

section Blocks

variable {block : Parser (List Statement)}

theorem loopOver_careful (hb : Careful P block) : Careful P (loopOver block) := by
  refine (expect_careful (by simp) .loopKeyword).bind fun _ => ?_
  exact expression_careful.bind fun _ => hb.bind fun _ => pure_careful _

theorem branchOver_careful (hb : Careful P block) (n : Nat) : Careful P (branchOver block n) := by
  induction n with
  | zero => exact fail_careful (.expected .branchKeyword) []
  | succ n ih =>
    refine (expect_careful (by simp) .branchKeyword).bind fun _ => ?_
    refine expression_careful.bind fun condition => hb.bind fun body => ?_
    intro ends ts h
    have hfollows : Fine P ends (elseFollows ends ts) := h
    refine hfollows.bind fun follows mid hmid hguard => ?_
    cases follows with
    | false => exact pure_careful _ hguard
    | true =>
      obtain ⟨rfl, t, us, hdrop, ht⟩ := elseFollows_eq_true hmid
      refine (skipNewlines_careful hguard).bind fun _ left hleft hstart => ?_
      cases hleft
      rw [hdrop] at hstart ⊢
      refine (advance_fine hstart (by simp [ht])).bind fun _ left _ hleft => ?_
      refine (sees_careful (.keyword .branch) hleft).bind fun inner left _ hleft => ?_
      exact Careful.ite (ih.bind fun _ => pure_careful _) (hb.bind fun _ => pure_careful _) hleft

theorem itemOver_fine (hb : Careful P block) (n : Nat) (h : Guarded P ends ts)
    (hfirst : Unended ts) : Fine P ends (itemOver block n ends ts) := by
  rw [itemOver, bind_of_ok sees_apply]
  split
  · exact branchOver_careful hb n h
  · rw [bind_of_ok sees_apply]
    split
    · exact loopOver_careful hb h
    · exact statement_fine h hfirst

/-- An item is asked for only where none of its ends stands. -/
theorem blockItems_careful (hb : Careful P block) (m n : Nat) :
    Careful P (blockItems (itemOver block m) n) := by
  induction n with
  | zero => exact fail_careful (.expected .blockClose) []
  | succ n ih =>
    intro ends ts h
    refine (skipNewlines_careful h).bind fun _ mid hmid hguard => ?_
    cases hmid
    refine (skip_careful (by simp) hguard).bind fun closed left hleft hguard => ?_
    cases closed with
    | true => exact pure_careful [] hguard
    | false =>
      obtain ⟨rfl, hbrace⟩ := skip_eq_false.1 hleft
      rw [if_neg Bool.false_ne_true, bind_of_ok atEnd_apply]
      split
      · exact fail_careful (.expected .blockClose) [] hguard
      · rename_i hend
        have hfirst : Unended (ts.dropWhile Token.isNewline) := by
          intro t ht
          have hnew := List.head?_dropWhile_not Token.isNewline ts
          rw [ht] at hnew hend
          exact ⟨by simpa using hnew, by simpa using hbrace t ht, by simpa using hend⟩
        refine (itemOver_fine hb m hguard hfirst).bind fun s left _ hleft => ?_
        exact ih.bind (fun _ => pure_careful _) hleft

theorem blockWithin_careful (n : Nat) : Careful P (blockWithin n) := by
  induction n with
  | zero => exact fail_careful (.expected .blockOpen) []
  | succ n ih => exact (expect_careful (by simp) .blockOpen).bind fun _ => blockItems_careful ih n n

theorem block_careful : Careful P Grammar.block := fun _ ts h => blockWithin_careful ts.length h

end Blocks

section Modules

theorem parameter_careful : Careful P parameter := by
  refine (identifier_careful .parameter).bind fun _ => ?_
  refine (expect_careful (by simp) .parameterColon).bind fun _ => ?_
  exact (identifier_careful .parameterType).bind fun _ => pure_careful _

theorem parameters_careful : Careful P parameters := by
  refine (expect_careful (by simp) .parametersOpen).bind fun _ => ?_
  intro ends ts h
  exact listItems_careful parameter_careful .rparen .parametersClose ts.length h

theorem resultType_careful : Careful P resultType := by
  refine (skip_careful (by simp)).bind fun _ => Careful.ite ?_ (pure_careful none)
  exact (identifier_careful .resultType).bind fun _ => pure_careful _

theorem function_careful : Careful P function := by
  refine (identifier_careful .functionName).bind fun _ => parameters_careful.bind fun _ => ?_
  exact resultType_careful.bind fun _ => block_careful.bind fun _ => pure_careful _

theorem importedName_careful : Careful P importedName := by
  refine (identifier_careful .importedName).bind fun _ => (skip_careful (by simp)).bind fun _ => ?_
  refine Careful.ite ?_ (pure_careful _)
  exact (identifier_careful .localName).bind fun _ => pure_careful _

theorem importedNames_careful (n : Nat) : Careful P (importedNames n) := by
  induction n with
  | zero => exact fail_careful (.expected .importedName) []
  | succ n ih =>
    refine importedName_careful.bind fun _ => (skip_careful (by simp)).bind fun _ => ?_
    exact Careful.ite (ih.bind fun _ => pure_careful _) (pure_careful _)

theorem importEntry_careful (n : Nat) : Careful P (importEntry n) := by
  refine (importedNames_careful n).bind fun _ => (skip_careful (by simp)).bind fun _ => ?_
  refine Careful.ite ?_ (pure_careful _)
  exact (identifier_careful .origin).bind fun _ => pure_careful _

theorem importEntries_careful (n : Nat) : Careful P (importEntries n) := by
  induction n with
  | zero => exact fail_careful (.expected .importedName) []
  | succ n ih =>
    refine skipNewlines_careful.bind fun _ => (skip_careful (by simp)).bind fun _ => ?_
    refine Careful.ite (pure_careful _) ((importEntry_careful (n + 1)).bind fun entry => ?_)
    have onward : Careful P (do return entry ++ (← importEntries n)) :=
      ih.bind fun _ => pure_careful _
    refine (skip_careful (by simp)).bind fun _ => Careful.ite onward ?_
    refine (sees_careful _).bind fun _ => Careful.ite onward ?_
    exact fail_careful (.expected .importEnd) []

theorem imports_careful : Careful P imports := by
  refine (expect_careful (by simp) .importsOpen).bind fun _ => ?_
  intro ends ts h
  exact importEntries_careful ts.length h

/-- An error has a place. What a success leaves is not told: a module takes the end of the input. -/
def Blames {α : Type} (P : Span → Prop) (result : EStateM.Result ParseError (List Token) α) :
    Prop :=
  ∀ e left, result = .error e left → Blamed P e

theorem Fine.blames {result : EStateM.Result ParseError (List Token) α}
    (h : Fine P ends result) : Blames P result := by
  rintro e left rfl
  exact h

theorem Fine.bind_blames {p : Parser α} {f : α → Parser β} (hp : Fine P ends (p ends ts))
    (hf : ∀ a mid, Guarded P ends mid → Blames P (f a ends mid)) :
    Blames P ((p >>= f) ends ts) := by
  rw [bind_apply]
  cases hr : p ends ts with
  | ok a mid =>
    rw [hr] at hp
    exact hf a mid hp
  | error e mid =>
    rw [hr] at hp
    rintro _ _ ⟨⟩
    exact hp

theorem Blames.bind_pure {p : Parser α} {f : α → β} (hp : Blames P (p ends ts)) :
    Blames P ((p >>= fun a => pure (f a)) ends ts) := by
  rw [bind_apply]
  cases hr : p ends ts with
  | ok a mid => exact fun _ _ h => nomatch h
  | error e mid =>
    rw [hr] at hp
    rintro _ _ ⟨⟩
    exact hp e mid rfl

/-- By induction on the bound; each entry of the module leaves the end of the input in place. -/
theorem contents_blames (n : Nat) (stage : Stage) (h : Guarded P ends ts) :
    Blames P (contents n stage ends ts) := by
  induction n generalizing stage ts with
  | zero => exact Fine.blames (fail_careful (.expected .moduleEnd) [] h)
  | succ n ih =>
    rw [contents, bind_of_ok current_apply]
    cases ts with
    | nil => exact Fine.blames (fail_careful (.expected .moduleEnd) [] h)
    | cons t ts =>
      have taken : t.lexeme ≠ .endOfInput → Fine P ends (advance ends (t :: ts)) :=
        fun ht => advance_fine h (by simpa using ht)
      simp only [List.head?_cons, Option.map_some]
      have entry : t.lexeme ≠ .newline → t.lexeme ≠ .symbol .rbrace → t.lexeme ≠ .endOfInput →
          Blames P ((do
            let s ← item
            let rest ← contents n .statements
            return { rest with statements := s :: rest.statements } : Parser Contents)
              ends (t :: ts)) := by
        intro hnew hbrace hend
        refine Fine.bind_blames (p := item) ?_ fun _ mid hmid => (ih .statements hmid).bind_pure
        exact itemOver_fine block_careful _ h (by simp [Unended, hnew, hbrace, hend])
      cases ht : t.lexeme with
      | newline =>
        refine (taken (by simp [ht])).bind_blames fun _ mid hmid => ?_
        exact ih stage hmid
      | endOfInput => exact fun _ _ h => nomatch h
      | keyword k =>
        cases k with
        | importing =>
          by_cases hstage : stage = .opening
          · rw [if_pos hstage]
            refine (taken (by simp [ht])).bind_blames fun _ mid hmid => ?_
            refine (imports_careful hmid).bind_blames fun _ mid hmid => ?_
            exact (ih .definitions hmid).bind_pure
          · rw [if_neg hstage]
            exact Fine.blames (fail_careful .misplacedImports [] h)
        | function =>
          by_cases hstage : stage = .statements
          · rw [if_pos hstage]
            exact Fine.blames (fail_careful .misplacedFunction [] h)
          · rw [if_neg hstage]
            refine (taken (by simp [ht])).bind_blames fun _ mid hmid => ?_
            refine (function_careful hmid).bind_blames fun _ mid hmid => ?_
            exact (ih .definitions hmid).bind_pure
        | _ => exact entry (by simp [ht]) (by simp [ht]) (by simp [ht])
      | symbol b =>
        cases b with
        | rbrace => exact Fine.blames (fail_careful (.expected .statement) [] h)
        | _ => exact entry (by simp [ht]) (by simp [ht]) (by simp [ht])
      | _ => exact entry (by simp [ht]) (by simp [ht]) (by simp [ht])

/-- A module that is refused is refused at a place. -/
theorem moduleNamed_blames (name : String) (h : Guarded P ends ts) :
    Blames P (moduleNamed name ends ts) :=
  (contents_blames ts.length .opening h).bind_pure

end Modules

end Pasture.Grammar
