import Pasture.Proofs.Grammar.ExpressionSound

/-! # Expressions are found

A stream that starts with what an expression spells is read as that expression, if what follows
cannot go on with it. A row that groups to the left is read by a loop, so that its statement is
about what is left for the loop to do: behind the tokens of a tree it goes on from that tree.
-/
namespace Pasture

/-- The rows can be told apart by the operator that follows an operand, and at most one of them
holds prefix operators. -/
def Orderly (rows : List PrecedenceRow) : Prop :=
  rows.Pairwise fun a b =>
    (b.fixity ≠ .pre → ∀ op ∈ a.operators, op ∉ b.operators) ∧ (a.fixity = .pre → b.fixity ≠ .pre)

instance (rows : List PrecedenceRow) : Decidable (Orderly rows) :=
  inferInstanceAs (Decidable (rows.Pairwise _))

theorem precedence_orderly : Orderly precedence := by decide

def Stops (rows : List PrecedenceRow) (rest : List Token) : Prop :=
  ∀ t ∈ rest.head?, t.lexeme ≠ .symbol .lparen ∧ t.lexeme ≠ .symbol .lbracket ∧
    ∀ row ∈ rows, row.fixity ≠ .pre → ∀ op ∈ row.operators, t.lexeme ≠ .operator op

def Place.Ended : Place → List Token → Prop
  | .whole, rest => Stops precedence rest ∧ ∀ t ∈ rest.head?, t.lexeme ≠ .symbol .question
  | .rows table, rest => Stops table rest

def Lexeme.endsExpression : Lexeme → Bool
  | .operator _ | .symbol .question | .symbol .lparen | .symbol .lbracket => false
  | _ => true

theorem whole_ended {rest : List Token} (h : ∀ t ∈ rest.head?, t.lexeme.endsExpression) :
    Place.whole.Ended rest := by
  refine ⟨fun t ht => ⟨?_, ?_, ?_⟩, fun t ht => ?_⟩
  · rintro heq
    simpa [heq, Lexeme.endsExpression] using h t ht
  · rintro heq
    simpa [heq, Lexeme.endsExpression] using h t ht
  · intro row _ _ op _ heq
    simpa [heq, Lexeme.endsExpression] using h t ht
  · rintro heq
    simpa [heq, Lexeme.endsExpression] using h t ht

theorem whole_ended_cons {t : Token} (h : t.lexeme.endsExpression) (rest : List Token) :
    Place.whole.Ended (t :: rest) := by
  apply whole_ended
  simpa using h

theorem Stops.tail {row : PrecedenceRow} {rows : List PrecedenceRow} {rest : List Token}
    (h : Stops (row :: rows) rest) : Stops rows rest := by
  intro t ht
  obtain ⟨hp, hb, hops⟩ := h t ht
  exact ⟨hp, hb, fun r hr => hops r (List.mem_cons_of_mem row hr)⟩

/-- An operator of a row ends every operand of the rows behind it. -/
theorem Orderly.stops {row : PrecedenceRow} {rows : List PrecedenceRow} {op : Operator}
    (h : Orderly (row :: rows)) (hop : op ∈ row.operators) {t : Token}
    (ht : t.lexeme = .operator op) (rest : List Token) : Stops rows (t :: rest) := by
  intro u hu
  cases hu
  refine ⟨by simp [ht], by simp [ht], ?_⟩
  intro r hr hpre o ho heq
  rw [ht] at heq
  cases heq
  exact ((List.pairwise_cons.1 h).1 r hr).1 hpre op hop ho

/-- Without prefix operators the first lexeme of an operand is no operator. -/
theorem Expr.Stands.first_not_operator {rows : List PrecedenceRow} {e : Expr} {ls : List Lexeme}
    (h : e.Stands (.rows rows)) (hrows : ∀ row ∈ rows, row.fixity ≠ .pre) (hs : e.Spelled ls) :
    ∃ l ks, ls = l :: ks ∧ ∀ op, l ≠ .operator op := by
  generalize hp : Place.rows rows = place at h
  induction h generalizing rows ls with
  | ternary | operand => cases hp
  | tighter _ ih =>
    cases hp
    exact ih (fun r hr => hrows r (List.mem_cons_of_mem _ hr)) hs rfl
  | left _ _ _ _ ih =>
    cases hp
    cases hs with
    | binary hl hr =>
      obtain ⟨l, ks, rfl, hop⟩ := ih hrows hl rfl
      exact ⟨l, _, rfl, hop⟩
  | right _ _ _ _ ih =>
    cases hp
    cases hs with
    | binary hl hr =>
      obtain ⟨l, ks, rfl, hop⟩ := ih (fun r hr => hrows r (List.mem_cons_of_mem _ hr)) hl rfl
      exact ⟨l, _, rfl, hop⟩
  | unary hf =>
    cases hp
    exact absurd hf (hrows _ List.mem_cons_self)
  | literal | name | call | group | array =>
    cases hs
    exact ⟨_, _, rfl, by simp⟩
  | single _ _ ih =>
    cases hp
    cases hs with
    | single hb _ =>
      obtain ⟨l, ks, rfl, hop⟩ := ih hrows hb rfl
      exact ⟨l, _, rfl, hop⟩
  | slice _ _ _ ih =>
    cases hp
    cases hs with
    | slice hb =>
      obtain ⟨l, ks, rfl, hop⟩ := ih hrows hb rfl
      exact ⟨l, _, rfl, hop⟩

end Pasture

namespace Pasture.Grammar

open Pasture.Parser

variable {n m : Nat} {ends : Option Span} {ts rest : List Token} {ls : List Lexeme}

/-- The parser finds every tree that stands at the place and spells at most `n` lexemes. -/
def Finds (n : Nat) (place : Place) (p : Parser Expr) : Prop :=
  ∀ ⦃ends ts e ls rest⦄, e.Stands place → e.Spelled ls → ts.map Token.lexeme = ls →
    ts.length ≤ n → place.Ended rest → p ends (ts ++ rest) = .ok e rest

section Rows

variable {row : PrecedenceRow} {rows : List PrecedenceRow} {operand : Parser Expr} {e : Expr}

/-- Behind the tokens of a tree, the loop of a row that groups to the left goes on from that tree
and has enough rounds left for the rest of `n` tokens. -/
theorem leftChain_goes_on (hf : row.fixity = .left) (hrows : Orderly (row :: rows))
    (ho : Finds n (.rows rows) operand) (he : e.Stands (.rows (row :: rows))) (hs : e.Spelled ls)
    (ht : ts.map Token.lexeme = ls) (hn : ts.length ≤ n) (hrest : Stops rows rest) :
    ∃ m, n ≤ m + ts.length ∧
      (operand >>= leftChain row.operators operand n) ends (ts ++ rest) =
        leftChain row.operators operand m e ends rest := by
  generalize hp : Place.rows (row :: rows) = place at he
  induction he generalizing ts ls rest with
  | tighter he =>
    cases hp
    refine ⟨n, by omega, ?_⟩
    rw [bind_of_ok (ho he hs ht hn hrest)]
  | @left _ _ left op right _ hop _ hr ih =>
    cases hp
    cases hs with
    | @binary _ _ _ ks rs hls hrs =>
      obtain ⟨ls, rs', rfl, hls', hrs'⟩ := List.map_eq_append_iff.1 ht
      obtain ⟨t, rs', rfl, htop, hrs'⟩ := List.map_eq_cons_iff.1 hrs'
      simp only [List.length_append, List.length_cons] at hn ⊢
      obtain ⟨m, hm, hrun⟩ := ih hls hls' (by omega) (hrows.stops hop htop (rs' ++ rest)) rfl
      obtain ⟨m, rfl⟩ : ∃ k, m = k + 1 := ⟨m - 1, by omega⟩
      refine ⟨m, by omega, ?_⟩
      rw [List.append_assoc, List.cons_append, hrun, leftChain,
        bind_of_ok (operatorIn_eq_some.2 ⟨hop, t, htop, rfl⟩)]
      exact bind_of_ok (ho hr hrs hrs' (by omega) hrest)
  | right hf' =>
    cases hp
    rw [hf] at hf'
    cases hf'
  | unary hf' =>
    cases hp
    rw [hf] at hf'
    cases hf'
  | _ => cases hp

theorem leftChain_stops (hf : row.fixity ≠ .pre) (h : Stops (row :: rows) rest) :
    leftChain row.operators operand m e ends rest = .ok e rest := by
  cases m with
  | zero => rfl
  | succ m =>
    have hnone : operatorIn row.operators ends rest = .ok none rest :=
      operatorIn_eq_none.2 ⟨rfl, fun t ht => (h t ht).2.2 row List.mem_cons_self hf⟩
    rw [leftChain, bind_of_ok hnone]
    rfl

theorem rightChain_finds (hf : row.fixity = .right) (hrows : Orderly (row :: rows))
    (ho : Finds n (.rows rows) operand) (he : e.Stands (.rows (row :: rows))) (hs : e.Spelled ls)
    (ht : ts.map Token.lexeme = ls) (hn : ts.length ≤ n) (hm : ts.length ≤ m)
    (hrest : Stops (row :: rows) rest) :
    rightChain row.operators operand m ends (ts ++ rest) = .ok e rest := by
  generalize hp : Place.rows (row :: rows) = place at he
  induction he generalizing ts ls m with
  | tighter he =>
    cases hp
    have hnone : operatorIn row.operators ends rest = .ok none rest :=
      operatorIn_eq_none.2 ⟨rfl, fun t ht => (hrest t ht).2.2 row List.mem_cons_self (by simp [hf])⟩
    have hfound : operand ends (ts ++ rest) = .ok _ rest := ho he hs ht hn hrest.tail
    cases m with
    | zero => exact hfound
    | succ m =>
      rw [rightChain, bind_of_ok hfound, bind_of_ok hnone]
      rfl
  | @right _ _ left op right _ hop hl _ _ ih =>
    cases hp
    cases hs with
    | @binary _ _ _ ks rs hls hrs =>
      obtain ⟨ls, rs', rfl, hls', hrs'⟩ := List.map_eq_append_iff.1 ht
      obtain ⟨t, rs', rfl, htop, hrs'⟩ := List.map_eq_cons_iff.1 hrs'
      simp only [List.length_append, List.length_cons] at hn hm
      obtain ⟨m, rfl⟩ : ∃ k, m = k + 1 := ⟨m - 1, by omega⟩
      rw [rightChain, List.append_assoc, List.cons_append,
        bind_of_ok (ho hl hls hls' (by omega) (hrows.stops hop htop _)),
        bind_of_ok (operatorIn_eq_some.2 ⟨hop, t, htop, rfl⟩)]
      exact bind_of_ok (ih hrs hrs' (by omega) (by omega) rfl)
  | left hf' =>
    cases hp
    rw [hf] at hf'
    cases hf'
  | unary hf' =>
    cases hp
    rw [hf] at hf'
    cases hf'
  | _ => cases hp

theorem prefixChain_finds (hf : row.fixity = .pre) (hrows : Orderly (row :: rows))
    (ho : Finds n (.rows rows) operand) (he : e.Stands (.rows (row :: rows))) (hs : e.Spelled ls)
    (ht : ts.map Token.lexeme = ls) (hn : ts.length ≤ n) (hm : ts.length ≤ m)
    (hrest : Stops (row :: rows) rest) :
    prefixChain row.operators operand m ends (ts ++ rest) = .ok e rest := by
  generalize hp : Place.rows (row :: rows) = place at he
  induction he generalizing ts ls m with
  | tighter he =>
    cases hp
    have hfound : operand ends (ts ++ rest) = .ok _ rest := ho he hs ht hn hrest.tail
    cases m with
    | zero => exact hfound
    | succ m =>
      -- no other row has prefix operators, so that the operand does not start with an operator
      obtain ⟨l, ks, hl, hop⟩ := he.first_not_operator
        (fun r hr => ((List.pairwise_cons.1 hrows).1 r hr).2 hf) hs
      obtain ⟨t, ts, rfl, htl, -⟩ := List.map_eq_cons_iff.1 (ht.trans hl)
      have hsees : sees .operator ends (t :: ts ++ rest) = .ok false (t :: ts ++ rest) := by
        simp [htl, hop]
      rw [prefixChain, bind_of_ok hsees]
      exact hfound
  | @unary _ _ op operand' _ hop _ ih =>
    cases hp
    cases hs with
    | unary hls =>
      obtain ⟨t, ts, rfl, htop, hts⟩ := List.map_eq_cons_iff.1 ht
      simp only [List.length_cons] at hn hm
      obtain ⟨m, rfl⟩ : ∃ k, m = k + 1 := ⟨m - 1, by omega⟩
      have hsees : sees .operator ends (t :: ts ++ rest) = .ok true (t :: ts ++ rest) := by
        simp [htop]
      rw [prefixChain, bind_of_ok hsees, if_pos rfl, List.cons_append,
        bind_of_ok (operatorIn_eq_some.2 ⟨hop, t, htop, rfl⟩)]
      exact bind_of_ok (ih hls hts (by omega) (by omega) rfl)
  | left hf' =>
    cases hp
    rw [hf] at hf'
    cases hf'
  | right hf' =>
    cases hp
    rw [hf] at hf'
    cases hf'
  | _ => cases hp

theorem climb_finds {atom : Parser Expr} (ha : Finds n (.rows []) atom)
    (hrows : Orderly rows) : Finds n (.rows rows) (climb atom n rows) := by
  induction rows with
  | nil => exact ha
  | cons row rows ih =>
    have ho := ih (List.pairwise_cons.1 hrows).2
    intro ends ts e ls rest he hs ht hn hrest
    cases hf : row.fixity with
    | left =>
      obtain ⟨m, -, hrun⟩ := leftChain_goes_on hf hrows ho he hs ht hn (Stops.tail hrest)
      simp only [climb, hf]
      rw [hrun]
      exact leftChain_stops (by simp [hf]) hrest
    | right =>
      simp only [climb, hf]
      exact rightChain_finds hf hrows ho he hs ht hn hn hrest
    | pre =>
      simp only [climb, hf]
      exact prefixChain_finds hf hrows ho he hs ht hn hn hrest

end Rows

section Lists

theorem dropWhile_breaks {bs : List Token} (hb : Breaks (bs.map Token.lexeme))
    (hrest : ∀ t ∈ rest.head?, t.lexeme ≠ .newline) :
    (bs ++ rest).dropWhile Token.isNewline = rest := by
  rw [List.dropWhile_append_of_pos]
  · cases rest with
    | nil => rfl
    | cons t rest => exact List.dropWhile_cons_of_neg (by simpa using hrest t rfl)
  · intro t ht
    simpa using hb t.lexeme (List.mem_map_of_mem ht)

variable {α : Type} {P : α → List Lexeme → Prop} {close : Symbol} {what : Expectation}
  {item : Parser α}

def FindsItems (n : Nat) (close : Symbol) (P : α → List Lexeme → Prop) (item : Parser α) : Prop :=
  ∀ ⦃ends ts a ls rest⦄, P a ls → ts.map Token.lexeme = ls → ts.length ≤ n →
    (∃ t ∈ rest.head?, t.lexeme = .newline ∨ t.lexeme = .symbol .comma ∨ t.lexeme = .symbol close) →
    item ends (ts ++ rest) = .ok a rest

/-- One round of a list, up to the comma or the closing bracket `c` behind the item. -/
theorem listRound_finds (hfirst : ∀ a ls, P a ls → ∃ l ks, ls = l :: ks ∧ l ≠ .newline)
    (hi : FindsItems n close P item) {a : α} {bs ps cs later : List Token} {c : Token}
    (hbs : Breaks (bs.map Token.lexeme)) (hps : P a (ps.map Token.lexeme))
    (hcs : Breaks (cs.map Token.lexeme))
    (hc : c.lexeme = .symbol .comma ∨ c.lexeme = .symbol close) (hn : ps.length ≤ n)
    (next : α → Parser (List α)) :
    (do skipNewlines; let x ← item; skipNewlines; next x : Parser (List α)) ends
        (bs ++ (ps ++ (cs ++ c :: later))) = next a ends (c :: later) := by
  have hbefore : skipNewlines ends (bs ++ (ps ++ (cs ++ c :: later))) =
      .ok () (ps ++ (cs ++ c :: later)) := by
    obtain ⟨l, ks, hl, hnew⟩ := hfirst a _ hps
    obtain ⟨t, ps, rfl, htl, -⟩ := List.map_eq_cons_iff.1 hl
    rw [skipNewlines_apply, dropWhile_breaks hbs (by simp [htl, hnew])]
  have hitem : item ends (ps ++ (cs ++ c :: later)) = .ok a (cs ++ c :: later) := by
    refine hi hps rfl hn ?_
    cases cs with
    | nil => exact ⟨c, rfl, .inr hc⟩
    | cons t cs => exact ⟨t, rfl, .inl (hcs _ List.mem_cons_self)⟩
  have hafter : skipNewlines ends (cs ++ c :: later) = .ok () (c :: later) := by
    rw [skipNewlines_apply, dropWhile_breaks hcs]
    rcases hc with hc | hc <;> simp [hc]
  rw [bind_of_ok hbefore, bind_of_ok hitem, bind_of_ok hafter]

theorem commaList_finds (hfirst : ∀ a ls, P a ls → ∃ l ks, ls = l :: ks ∧ l ≠ .newline)
    (hclose : close ≠ .comma) (hi : FindsItems n close P item) {as : List α}
    {parts : List (List Lexeme)} (hb : Broken parts ls) (hsome : parts ≠ [])
    (hlen : as.length = parts.length) (hparts : ∀ p ∈ as.zip parts, P p.1 p.2)
    (ht : ts.map Token.lexeme = ls ++ [.symbol close]) (hn : ts.length ≤ n) (hm : ts.length ≤ m) :
    commaList close what item m ends (ts ++ rest) = .ok as rest := by
  induction hb generalizing ts as m with
  | none => exact absurd rfl hsome
  | @last before part after hbefore hafter =>
    obtain ⟨a, rfl⟩ := List.length_eq_one_iff.1 hlen
    have hp : P a part := hparts (a, part) (by simp)
    obtain ⟨ts₁, cs, rfl, hts, hcs⟩ := List.map_eq_append_iff.1 ht
    obtain ⟨ts₂, as, rfl, hts₂, rfl⟩ := List.map_eq_append_iff.1 hts
    obtain ⟨bs, ps, rfl, rfl, rfl⟩ := List.map_eq_append_iff.1 hts₂
    obtain ⟨c, rfl, hc⟩ := List.map_eq_singleton_iff.1 hcs
    simp only [List.length_append, List.length_cons] at hn hm
    obtain ⟨m, rfl⟩ : ∃ k, m = k + 1 := ⟨m - 1, by omega⟩
    have hcomma : skip (.symbol .comma) ends (c :: rest) = .ok false (c :: rest) :=
      skip_eq_false.2 ⟨rfl, by simp [hc, hclose]⟩
    have hend : expect (.symbol close) what ends (c :: rest) = .ok () rest :=
      expect_eq_ok.2 ⟨c, by simpa using hc, rfl⟩
    simp only [List.append_assoc, List.cons_append, List.nil_append]
    rw [commaList, listRound_finds hfirst hi hbefore hp hafter (.inr hc) (by omega),
      bind_of_ok hcomma]
    exact bind_of_ok hend
  | @more before part after next parts ls hbefore hafter hmore ih =>
    obtain ⟨a, as, rfl⟩ := List.exists_cons_of_length_eq_add_one hlen
    have hp : P a part := hparts (a, part) (by simp)
    obtain ⟨ts₁, cs, rfl, hts, hcs⟩ := List.map_eq_append_iff.1 (ht.trans (List.append_assoc ..))
    obtain ⟨ts₂, as', rfl, hts₂, rfl⟩ := List.map_eq_append_iff.1 hts
    obtain ⟨bs, ps, rfl, rfl, rfl⟩ := List.map_eq_append_iff.1 hts₂
    obtain ⟨c, cs, rfl, hc, hcs⟩ := List.map_eq_cons_iff.1 hcs
    simp only [List.length_append, List.length_cons] at hn hm
    obtain ⟨m, rfl⟩ : ∃ k, m = k + 1 := ⟨m - 1, by omega⟩
    have hcomma : skip (.symbol .comma) ends (c :: (cs ++ rest)) = .ok true (cs ++ rest) :=
      skip_eq_true.2 ⟨c, by simpa using hc, rfl⟩
    have hmore' : commaList close what item m ends (cs ++ rest) = .ok as rest := by
      refine ih (by simp) (by simpa using hlen) ?_ hcs (by omega) (by omega)
      intro p hp
      exact hparts p (by simp [hp])
    simp only [List.append_assoc, List.cons_append]
    rw [commaList, listRound_finds hfirst hi hbefore hp hafter (.inl hc) (by omega),
      bind_of_ok hcomma]
    exact bind_of_ok hmore'

theorem listItems_finds (hfirst : ∀ a ls, P a ls →
      ∃ l ks, ls = l :: ks ∧ l ≠ .newline ∧ l ≠ .symbol close)
    (hclose : close ≠ .comma) (hi : FindsItems n close P item) {as : List α}
    {parts : List (List Lexeme)} (hb : Broken parts ls)
    (hlen : as.length = parts.length) (hparts : ∀ p ∈ as.zip parts, P p.1 p.2)
    (ht : ts.map Token.lexeme = ls ++ [.symbol close]) (hn : ts.length ≤ n) (hm : ts.length ≤ m) :
    listItems close what item m ends (ts ++ rest) = .ok as rest := by
  cases parts with
  | nil =>
    cases hb with
    | none hbreaks =>
      obtain rfl := List.length_eq_zero_iff.1 hlen
      obtain ⟨bs, cs, rfl, rfl, hcs⟩ := List.map_eq_append_iff.1 ht
      obtain ⟨c, rfl, hc⟩ := List.map_eq_singleton_iff.1 hcs
      have hskip : skipNewlines ends (bs ++ c :: rest) = .ok () (c :: rest) := by
        rw [skipNewlines_apply, dropWhile_breaks hbreaks (by simp [hc])]
      have hend : skip (.symbol close) ends (c :: rest) = .ok true rest :=
        skip_eq_true.2 ⟨c, by simpa using hc, rfl⟩
      simp only [List.append_assoc, List.cons_append, List.nil_append]
      rw [listItems, bind_of_ok hskip, bind_of_ok hend]
      rfl
  | cons part parts =>
    -- the breaks in front of the first item are dropped before the list is seen not to be empty
    obtain ⟨bs, ks, rfl, hbs, hcut⟩ := hb.cut_before
    obtain ⟨a, as, rfl⟩ := List.exists_cons_of_length_eq_add_one hlen
    obtain ⟨l, ps, rfl, hnew, hnot⟩ := hfirst a part (hparts (a, part) (by simp))
    obtain ⟨bs, ts, rfl, rfl, hts⟩ := List.map_eq_append_iff.1 (ht.trans (List.append_assoc ..))
    obtain ⟨t, us, rfl, htl, -⟩ := List.map_eq_cons_iff.1 hts
    have hskip : skipNewlines ends (bs ++ (t :: us ++ rest)) = .ok () (t :: us ++ rest) := by
      rw [skipNewlines_apply, dropWhile_breaks hbs (by simp [htl, hnew])]
    have hopen : skip (.symbol close) ends (t :: us ++ rest) = .ok false (t :: us ++ rest) :=
      skip_eq_false.2 ⟨rfl, by simp [htl, hnot]⟩
    rw [List.length_append] at hn hm
    rw [listItems, List.append_assoc, bind_of_ok hskip, bind_of_ok hopen]
    refine commaList_finds (fun a ls h => ?_) hclose hi hcut (by simp) hlen hparts hts
      (by omega) (by omega)
    obtain ⟨l, ks, hl, hnew, -⟩ := hfirst a ls h
    exact ⟨l, ks, hl, hnew⟩

end Lists

section Atoms

variable {nested : Parser Expr}

theorem listItem_finds (hf : Finds n .whole nested) {close : Symbol} (what : Expectation)
    (hclose : close = .rparen ∨ close = .rbracket) :
    FindsItems n close (fun e ls => e.Stands .whole ∧ e.Spelled ls)
      (listItem nested close what) := by
  rintro ends ts e ls rest ⟨he, hs⟩ ht hn ⟨u, hu, hrest⟩
  have hended : Place.whole.Ended rest := by
    refine whole_ended fun t htr => ?_
    cases hu.symm.trans htr
    rcases hrest with h | h | h
    · simp [h, Lexeme.endsExpression]
    · simp [h, Lexeme.endsExpression]
    · rcases hclose with rfl | rfl <;> simp [h, Lexeme.endsExpression]
  have hsees : seesAny [.symbol .comma, .symbol close] ends (ts ++ rest) =
      .ok false (ts ++ rest) := by
    obtain ⟨l, ks, rfl, hl⟩ := hs.first
    obtain ⟨t, ts, rfl, rfl, -⟩ := List.map_eq_cons_iff.1 ht
    have hcomma : t.lexeme ≠ .symbol .comma := by
      intro h
      simp [h, Lexeme.opensExpression] at hl
    have hnot : t.lexeme ≠ .symbol close := by
      intro h
      rcases hclose with rfl | rfl <;> simp [h, Lexeme.opensExpression] at hl
    simp [hcomma, hnot]
  rw [listItem, bind_of_ok hsees]
  exact hf he hs ht hn hended

theorem bound_given (hf : Finds n .whole nested) {next : Symbol} {e : Expr}
    (hnext : (Lexeme.symbol next).opensExpression = false) (he : e.Stands .whole)
    (hs : e.Spelled ls) (ht : ts.map Token.lexeme = ls) (hn : ts.length ≤ n)
    (hrest : Place.whole.Ended rest) :
    bound nested next ends (ts ++ rest) = .ok (some e) rest := by
  have hfound : nested ends (ts ++ rest) = .ok e rest := hf he hs ht hn hrest
  have hsees : sees (.symbol next) ends (ts ++ rest) = .ok false (ts ++ rest) := by
    obtain ⟨l, ks, rfl, hl⟩ := hs.first
    obtain ⟨t, ts, rfl, rfl, -⟩ := List.map_eq_cons_iff.1 ht
    have hnot : t.lexeme ≠ .symbol next := by
      intro h
      simp [h, hnext] at hl
    simp [hnot]
  rw [bound, bind_of_ok hsees]
  exact bind_of_ok hfound

theorem bound_finds (hf : Finds n .whole nested) {next : Symbol} {limit : Option Expr} {c : Token}
    (hnext : next = .colon ∨ next = .rbracket) (hstands : ∀ e ∈ limit, e.Stands .whole)
    (hnone : limit = none → ls = []) (hsome : ∀ e ∈ limit, e.Spelled ls)
    (ht : ts.map Token.lexeme = ls) (hn : ts.length ≤ n) (hc : c.lexeme = .symbol next) :
    bound nested next ends (ts ++ c :: rest) = .ok limit (c :: rest) := by
  cases limit with
  | none =>
    obtain rfl := hnone rfl
    obtain rfl := List.map_eq_nil_iff.1 ht
    have hsees : sees (.symbol next) ends (c :: rest) = .ok true (c :: rest) := by simp [hc]
    rw [bound, List.nil_append, bind_of_ok hsees]
    rfl
  | some e =>
    refine bound_given hf ?_ (hstands e rfl) (hsome e rfl) ht hn (whole_ended_cons ?_ rest)
    · rcases hnext with rfl | rfl <;> rfl
    · rcases hnext with rfl | rfl <;> simp [hc, Lexeme.endsExpression]

theorem index_single (hf : Finds n .whole nested) {value : Expr} {c : Token}
    (hv : value.Stands .whole) (hs : value.Spelled ls) (ht : ts.map Token.lexeme = ls)
    (hn : ts.length ≤ n) (hc : c.lexeme = .symbol .rbracket) :
    index nested ends (ts ++ c :: rest) = .ok (.single value) rest := by
  have hended : Place.whole.Ended (c :: rest) :=
    whole_ended_cons (by simp [hc, Lexeme.endsExpression]) rest
  have hbound : bound nested .colon ends (ts ++ c :: rest) = .ok (some value) (c :: rest) :=
    bound_given hf rfl hv hs ht hn hended
  have hcolon : skip (.symbol .colon) ends (c :: rest) = .ok false (c :: rest) :=
    skip_eq_false.2 ⟨rfl, by simp [hc]⟩
  have hclose : expect (.symbol .rbracket) .indexClose ends (c :: rest) = .ok () rest :=
    expect_eq_ok.2 ⟨c, by simpa using hc, rfl⟩
  rw [index, bind_of_ok hbound, bind_of_ok hcolon]
  exact bind_of_ok hclose

theorem index_slice (hf : Finds n .whole nested) {start stop : Option Expr} {rs : List Lexeme}
    {us : List Token} {c d : Token} (hstart : ∀ e ∈ start, e.Stands .whole)
    (hnone : start = none → ls = []) (hsome : ∀ e ∈ start, e.Spelled ls)
    (hstop : ∀ e ∈ stop, e.Stands .whole) (hnone' : stop = none → rs = [])
    (hsome' : ∀ e ∈ stop, e.Spelled rs) (ht : ts.map Token.lexeme = ls)
    (hu : us.map Token.lexeme = rs) (hn : ts.length ≤ n) (hn' : us.length ≤ n)
    (hc : c.lexeme = .symbol .colon) (hd : d.lexeme = .symbol .rbracket) :
    index nested ends (ts ++ c :: (us ++ d :: rest)) = .ok (.slice start stop) rest := by
  have hbound : bound nested .colon ends (ts ++ c :: (us ++ d :: rest)) =
      .ok start (c :: (us ++ d :: rest)) :=
    bound_finds hf (.inl rfl) hstart hnone hsome ht hn hc
  have hcolon : skip (.symbol .colon) ends (c :: (us ++ d :: rest)) = .ok true (us ++ d :: rest) :=
    skip_eq_true.2 ⟨c, by simpa using hc, rfl⟩
  have hbound' : bound nested .rbracket ends (us ++ d :: rest) = .ok stop (d :: rest) :=
    bound_finds hf (.inr rfl) hstop hnone' hsome' hu hn' hd
  have hclose : expect (.symbol .rbracket) .sliceClose ends (d :: rest) = .ok () rest :=
    expect_eq_ok.2 ⟨d, by simpa using hd, rfl⟩
  rw [index, bind_of_ok hbound, bind_of_ok hcolon]
  cases start <;> exact (bind_of_ok hbound').trans (bind_of_ok hclose)

/-- The items of a call or an array, up to the closing bracket. -/
theorem items_found (hf : Finds n .whole nested) {close : Symbol} {what item : Expectation}
    (hclose : close = .rparen ∨ close = .rbracket) {es : List Expr} {parts : List (List Lexeme)}
    (hes : ∀ e ∈ es, e.Stands .whole) (hlen : es.length = parts.length)
    (hparts : ∀ p ∈ es.zip parts, p.1.Spelled p.2) (hb : Broken parts ls)
    (ht : ts.map Token.lexeme = ls ++ [.symbol close]) (hn : ts.length ≤ n) (hm : ts.length ≤ m) :
    listItems close what (listItem nested close item) m ends (ts ++ rest) = .ok es rest := by
  refine listItems_finds ?_ ?_ (listItem_finds hf item hclose) hb hlen ?_ ht hn hm
  · rintro e ls ⟨-, hs⟩
    obtain ⟨l, ks, rfl, hl⟩ := hs.first
    refine ⟨l, ks, rfl, ?_, ?_⟩
    · rintro rfl
      cases hl
    · rintro rfl
      rcases hclose with rfl | rfl <;> cases hl
  · rcases hclose with rfl | rfl <;> simp
  · intro p hp
    exact ⟨hes p.1 (List.of_mem_zip hp).1, hparts p hp⟩

theorem primary_literal {t : Token} {value : Literal} (ht : t.lexeme = .literal value) :
    primary nested m ends (t :: rest) = .ok (.literal value) rest := by
  rw [primary, bind_of_ok current_apply]
  simp only [List.head?_cons, Option.map_some, ht]
  rfl

theorem primary_name {t : Token} {i : Identifier} (ht : t.lexeme = .identifier i)
    (hrest : ∀ u ∈ rest.head?, u.lexeme ≠ .symbol .lparen) :
    primary nested m ends (t :: rest) = .ok (.name i) rest := by
  have hskip : skip (.symbol .lparen) ends rest = .ok false rest :=
    skip_eq_false.2 ⟨rfl, by simpa using hrest⟩
  rw [primary, bind_of_ok current_apply]
  simp only [List.head?_cons, Option.map_some, ht]
  exact (bind_of_ok (advance_eq_ok.2 rfl)).trans (bind_of_ok hskip)

theorem primary_call {t p : Token} {i : Identifier} {es : List Expr} (ht : t.lexeme = .identifier i)
    (hp : p.lexeme = .symbol .lparen) (hargs : arguments nested m ends ts = .ok es rest) :
    primary nested m ends (t :: p :: ts) = .ok (.call i es) rest := by
  have hskip : skip (.symbol .lparen) ends (p :: ts) = .ok true ts :=
    skip_eq_true.2 ⟨p, by simpa using hp, rfl⟩
  rw [primary, bind_of_ok current_apply]
  simp only [List.head?_cons, Option.map_some, ht]
  rw [bind_of_ok (advance_eq_ok.2 rfl), bind_of_ok hskip]
  exact bind_of_ok hargs

theorem primary_group {t c : Token} {inner : Expr} (ht : t.lexeme = .symbol .lparen)
    (hinner : nested ends ts = .ok inner (c :: rest)) (hc : c.lexeme = .symbol .rparen) :
    primary nested m ends (t :: ts) = .ok (.group inner) rest := by
  have hclose : expect (.symbol .rparen) .groupClose ends (c :: rest) = .ok () rest :=
    expect_eq_ok.2 ⟨c, by simpa using hc, rfl⟩
  rw [primary, bind_of_ok current_apply]
  simp only [List.head?_cons, Option.map_some, ht]
  rw [bind_of_ok (advance_eq_ok.2 rfl), bind_of_ok hinner]
  exact bind_of_ok hclose

theorem primary_array {t : Token} {es : List Expr} (ht : t.lexeme = .symbol .lbracket)
    (hels : elements nested m ends ts = .ok es rest) :
    primary nested m ends (t :: ts) = .ok (.array es) rest := by
  rw [primary, bind_of_ok current_apply]
  simp only [List.head?_cons, Option.map_some, ht]
  rw [bind_of_ok (advance_eq_ok.2 rfl)]
  exact bind_of_ok hels

/-- Behind the tokens of an atom, its indices so far included, the loop of the indices goes on from
that atom. -/
theorem atomOver_goes_on (hf : Finds n .whole nested) {e : Expr} (he : e.Stands (.rows []))
    (hs : e.Spelled ls) (ht : ts.map Token.lexeme = ls) (hn : ts.length ≤ n + 1)
    (hrest : ∀ t ∈ rest.head?, t.lexeme ≠ .symbol .lparen) :
    ∃ m, n + 1 ≤ m + ts.length ∧
      atomOver nested (n + 1) ends (ts ++ rest) = indices nested m e ends rest := by
  generalize hp : Place.rows [] = place at he
  induction he generalizing ts ls rest with
  | literal value =>
    cases hs
    obtain ⟨t, rfl, htl⟩ := List.map_eq_singleton_iff.1 ht
    exact ⟨n + 1, by omega, bind_of_ok (primary_literal htl)⟩
  | name i =>
    cases hs
    obtain ⟨t, rfl, htl⟩ := List.map_eq_singleton_iff.1 ht
    exact ⟨n + 1, by omega, bind_of_ok (primary_name htl hrest)⟩
  | call hargs =>
    cases hs with
    | call hlen hparts hb =>
      obtain ⟨t, us, rfl, htl, hus⟩ := List.map_eq_cons_iff.1 ht
      obtain ⟨p, us, rfl, hpl, hus⟩ := List.map_eq_cons_iff.1 hus
      simp only [List.length_cons] at hn
      exact ⟨n + 1, by omega, bind_of_ok (primary_call htl hpl
        (items_found hf (.inl rfl) hargs hlen hparts hb hus (by omega) (by omega)))⟩
  | group hinner =>
    cases hs with
    | group hs =>
      obtain ⟨ts, cs, rfl, hts, hcs⟩ := List.map_eq_append_iff.1 ht
      obtain ⟨t, us, rfl, htl, hus⟩ := List.map_eq_cons_iff.1 hts
      obtain ⟨c, rfl, hc⟩ := List.map_eq_singleton_iff.1 hcs
      simp only [List.length_cons, List.length_append] at hn
      simp only [List.append_assoc, List.cons_append, List.nil_append]
      have hended : Place.whole.Ended (c :: rest) :=
        whole_ended_cons (by simp [hc, Lexeme.endsExpression]) rest
      exact ⟨n + 1, by omega,
        bind_of_ok (primary_group htl (hf hinner hs hus (by omega) hended) hc)⟩
  | array hels =>
    cases hs with
    | array hlen hparts hb =>
      obtain ⟨t, us, rfl, htl, hus⟩ := List.map_eq_cons_iff.1 ht
      simp only [List.length_cons] at hn
      exact ⟨n + 1, by omega, bind_of_ok (primary_array htl
        (items_found hf (.inr rfl) hels hlen hparts hb hus (by omega) (by omega)))⟩
  | single _ hv ih =>
    cases hs with
    | single hbs hvs =>
      obtain ⟨ts₁, cs, rfl, hts, hcs⟩ := List.map_eq_append_iff.1 ht
      obtain ⟨bs, vs, rfl, hbs', hvs'⟩ := List.map_eq_append_iff.1 hts
      obtain ⟨o, vs, rfl, ho, hvs'⟩ := List.map_eq_cons_iff.1 hvs'
      obtain ⟨c, rfl, hc⟩ := List.map_eq_singleton_iff.1 hcs
      simp only [List.length_append, List.length_cons] at hn ⊢
      simp only [List.append_assoc, List.cons_append, List.nil_append]
      have hopen : ∀ t ∈ (o :: (vs ++ c :: rest)).head?, t.lexeme ≠ .symbol .lparen := by simp [ho]
      obtain ⟨m, hm, hrun⟩ := ih hbs hbs' (by omega) hopen hp
      obtain ⟨m, rfl⟩ : ∃ k, m = k + 1 := ⟨m - 1, by omega⟩
      refine ⟨m, by omega, ?_⟩
      rw [hrun, indices, bind_of_ok (skip_eq_true.2 ⟨o, by simpa using ho, rfl⟩)]
      exact bind_of_ok (index_single hf hv hvs hvs' (by omega) hc)
  | slice _ hstart hstop ih =>
    cases hs with
    | slice hbs hnone hsome hnone' hsome' =>
      obtain ⟨ts₁, ds, rfl, hts, hds⟩ := List.map_eq_append_iff.1 ht
      obtain ⟨ts₂, us, rfl, hts₂, hus⟩ := List.map_eq_append_iff.1 hts
      obtain ⟨bs, vs, rfl, hbs', hvs⟩ := List.map_eq_append_iff.1 hts₂
      obtain ⟨o, vs, rfl, ho, hvs⟩ := List.map_eq_cons_iff.1 hvs
      obtain ⟨c, us, rfl, hc, hus⟩ := List.map_eq_cons_iff.1 hus
      obtain ⟨d, rfl, hd⟩ := List.map_eq_singleton_iff.1 hds
      simp only [List.length_append, List.length_cons] at hn ⊢
      simp only [List.append_assoc, List.cons_append, List.nil_append]
      have hopen : ∀ t ∈ (o :: (vs ++ c :: (us ++ d :: rest))).head?,
          t.lexeme ≠ .symbol .lparen := by simp [ho]
      obtain ⟨m, hm, hrun⟩ := ih hbs hbs' (by omega) hopen hp
      obtain ⟨m, rfl⟩ : ∃ k, m = k + 1 := ⟨m - 1, by omega⟩
      refine ⟨m, by omega, ?_⟩
      rw [hrun, indices, bind_of_ok (skip_eq_true.2 ⟨o, by simpa using ho, rfl⟩)]
      exact bind_of_ok (index_slice hf hstart hnone hsome hstop hnone' hsome' hvs hus
        (by omega) (by omega) hc hd)
  | _ => cases hp

theorem atomOver_finds (hf : Finds n .whole nested) :
    Finds (n + 1) (.rows []) (atomOver nested (n + 1)) := by
  intro ends ts e ls rest he hs ht hn hrest
  obtain ⟨m, -, hrun⟩ := atomOver_goes_on hf he hs ht hn fun t h => (hrest t h).1
  rw [hrun]
  cases m with
  | zero => rfl
  | succ m =>
    have hskip : skip (.symbol .lbracket) ends rest = .ok false rest :=
      skip_eq_false.2 ⟨rfl, fun t h => by simpa using (hrest t h).2.1⟩
    rw [indices, bind_of_ok hskip]
    rfl

theorem expressionOver_finds (hf : Finds n .whole nested) :
    Finds (n + 1) .whole (expressionOver nested (n + 1)) := by
  have hclimb := climb_finds (atomOver_finds hf) precedence_orderly
  intro ends ts e ls rest he hs ht hn hrest
  cases he with
  | operand he =>
    have hskip : skip (.symbol .question) ends rest = .ok false rest :=
      skip_eq_false.2 ⟨rfl, fun t h => by simpa using hrest.2 t h⟩
    rw [expressionOver, bind_of_ok (hclimb he hs ht hn hrest.1)]
    exact bind_of_ok hskip
  | ternary hc htrue hfalse =>
    cases hs with
    | ternary hcs hts hfs =>
      obtain ⟨ts₁, fs, rfl, hts₁, hfs'⟩ := List.map_eq_append_iff.1 ht
      obtain ⟨cs, us, rfl, hcs', hus⟩ := List.map_eq_append_iff.1 hts₁
      obtain ⟨q, us, rfl, hq, hus⟩ := List.map_eq_cons_iff.1 hus
      obtain ⟨c, fs, rfl, hcolon, hfs'⟩ := List.map_eq_cons_iff.1 hfs'
      simp only [List.length_append, List.length_cons] at hn
      have hasked : Stops precedence (q :: (us ++ c :: (fs ++ rest))) := by
        intro t h
        cases h
        simp [hq]
      have hended : Place.whole.Ended (c :: (fs ++ rest)) :=
        whole_ended_cons (by simp [hcolon, Lexeme.endsExpression]) _
      have hmid : expect (.symbol .colon) .ternaryColon ends (c :: (fs ++ rest)) =
          .ok () (fs ++ rest) := expect_eq_ok.2 ⟨c, by simpa using hcolon, rfl⟩
      simp only [List.append_assoc, List.cons_append]
      rw [expressionOver, bind_of_ok (hclimb hc hcs hcs' (by omega) hasked),
        bind_of_ok (skip_eq_true.2 ⟨q, by simpa using hq, rfl⟩), if_pos rfl,
        bind_of_ok (hf htrue hts hus (by omega) hended), bind_of_ok hmid]
      exact bind_of_ok (hf hfalse hfs hfs' (by omega) hrest)

end Atoms

theorem expressionWithin_finds (n : Nat) : Finds n .whole (expressionWithin n) := by
  induction n with
  | zero =>
    intro ends ts e ls rest _ hs ht hn _
    obtain rfl := List.length_eq_zero_iff.1 (Nat.le_zero.1 hn)
    exact absurd ht.symm hs.ne_nil
  | succ n ih => exact expressionOver_finds ih

theorem expression_finds {e : Expr} (he : e.Stands .whole) (hs : e.Spelled (ts.map Token.lexeme))
    (hrest : Place.whole.Ended rest) : expression ends (ts ++ rest) = .ok e rest := by
  refine expressionWithin_finds _ he hs rfl ?_ hrest
  simp

/-- Two expressions that are written alike are the same. -/
theorem Stands.eq_of_yield_eq {e f : Expr} (he : e.Stands .whole) (hf : f.Stands .whole)
    (h : e.yield = f.yield) : e = f := by
  have found : ∀ {g : Expr}, g.Stands .whole → g.yield = e.yield →
      expression none (e.yield.map (Token.plain · none) ++ []) = .ok g [] := by
    intro g hg hy
    refine expression_finds hg ?_ (whole_ended (by simp))
    simpa [Function.comp_def, Token.plain, ← hy] using hg.spelled_yield
  have := (found he rfl).symm.trans (found hf h.symm)
  simpa using this

end Pasture.Grammar
