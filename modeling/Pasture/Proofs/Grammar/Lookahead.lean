import Pasture.Proofs.Grammar.Items
import Pasture.Proofs.Grammar.Walk

/-! # How far parsers look ahead

An expression looks at one token behind those it takes, and a simple statement does. Where a brace
is closed at the end, nothing behind it is seen. So a parse that has succeeded in one stream
succeeds alike in every other that has the same tokens there.
-/
namespace Pasture

namespace Grammar

open Pasture.Parser

variable {α β ι : Type} {c d m n : Nat} {p : Parser α}

/-- What the parser gives for fewer than `n` tokens that it takes depends on them and on the first
token behind them. -/
structure Glances {α : Type} (d n : Nat) (p : Parser α) : Prop extends Advances d p where
  carries : ∀ {ends ends' read rest rest' a}, p ends (read ++ rest) = .ok a rest →
    read.length < n → SameHead rest rest' → p ends' (read ++ rest') = .ok a rest'

namespace Glances

theorem mono (hm : m ≤ n) (h : Glances d n p) : Glances d m p :=
  ⟨h.toAdvances, fun hp hread => h.carries hp (Nat.lt_of_lt_of_le hread hm)⟩

theorem weaken (hc : c ≤ d) (h : Glances d n p) : Glances c n p :=
  ⟨h.toAdvances.weaken hc, h.carries⟩

theorem eased (h : Glances 1 n p) : Glances 0 n p := h.weaken (Nat.zero_le 1)

theorem of_local {R : List Token → List Token → Prop} (hp : Advances d p)
    (hR : ∀ {rest rest'}, SameHead rest rest' → R rest rest') (h : Local c n R p p) :
    Glances d n p :=
  ⟨hp, fun hok hread hrest => h.carries hok (Nat.le_of_lt hread) (hR hrest)⟩

/-- One parser after another. What is left to take depends on what the first has taken. -/
theorem follow {f : α → Parser β} (hp : Glances 0 n p)
    (h : ∀ {ends ts a mid}, p ends ts = .ok a mid → ∃ read, ts = read ++ mid ∧
      Glances (d - read.length) (n - read.length) (f a)) : Glances d n (p >>= f) := by
  have hadvances : Coincides d 0 (p >>= f) (p >>= f) := by
    refine hp.coincides.follow fun {ends ts a mid} hpa => ?_
    obtain ⟨read, hts, hf⟩ := h hpa
    exact ⟨read, hts, hf.coincides⟩
  refine ⟨hadvances.toAdvances, fun {ends ends' read rest rest' b} hb hread hrest => ?_⟩
  obtain ⟨a, mid, hpa, hfa⟩ := bind_eq_ok.1 hb
  obtain ⟨us, hus, hf⟩ := h hpa
  obtain ⟨vs, rfl, -⟩ := hf.takes hfa
  rw [← List.append_assoc] at hus
  obtain rfl := List.append_cancel_right hus
  rw [List.length_append] at hread
  rw [List.append_assoc] at hpa ⊢
  have hsame : SameHead (vs ++ rest) (vs ++ rest') := bears_same (Nat.zero_le _) hrest
  rw [bind_of_ok (hp.carries hpa (by omega) hsame)]
  exact hf.carries hfa (by omega) hrest

theorem bind_of {f : α → Parser β} (hp : Glances c n p) (hf : ∀ a, Glances d (n - c) (f a)) :
    Glances (c + d) n (p >>= f) := by
  refine (hp.weaken (Nat.zero_le c)).follow fun {ends ts a mid} hpa => ?_
  obtain ⟨read, hts, hread⟩ := hp.takes hpa
  exact ⟨read, hts, ((hf a).weaken (by omega)).mono (by omega)⟩

theorem bind {f : α → Parser β} (hp : Glances 0 n p) (hf : ∀ a, Glances d n (f a)) :
    Glances d n (p >>= f) :=
  (hp.bind_of hf).weaken (Nat.le_add_left d 0)

theorem next {f : α → Parser β} (hp : Glances 1 n p) (hf : ∀ a, Glances 0 (n - 1) (f a)) :
    Glances 1 n (p >>= f) :=
  hp.bind_of hf

theorem ite {q : Parser α} {b : Prop} [Decidable b] (hp : Glances d n p) (hq : Glances d n q) :
    Glances d n (if b then p else q) := by
  split
  · exact hp
  · exact hq

/-- A loop that goes on behind a token glances as far as its rounds do. -/
theorem of_rounds {round : (ι → Parser α) → ι → Parser α} {p : ι → Parser α}
    (hends : Terminates d round p)
    (hround : ∀ {m}, m ≤ n → (∀ i, Glances d (m - 1) (p i)) → ∀ i, Glances d m (round p i))
    (i : ι) : Glances d n (p i) := by
  have all : ∀ {m}, m ≤ n → ∀ i, Glances d m (p i) := by
    intro m
    induction m with
    | zero => exact fun _ i => ⟨hends.advances i, fun _ hread => absurd hread (Nat.not_lt_zero _)⟩
    | succ m ih =>
      intro hm i
      rw [hends.unfolds]
      exact hround hm (ih (Nat.le_of_succ_le hm)) i
  exact all (Nat.le_refl n) i

end Glances

section Steps

theorem pure_glances (a : α) : Glances 0 n (pure a : Parser α) :=
  .of_local (pure_advances a) id (pure_local a)

theorem fail_glances (complaint : Complaint) (suggestions : List Suggestion) :
    Glances d n (fail complaint suggestions : Parser α) :=
  .of_local (R := SameHead) (c := d) (fail_advances complaint suggestions) id
    (fail_local complaint suggestions)

theorem look_glances (f : Option Token → α) :
    Glances 0 n (fun _ ts => .ok (f ts.head?) ts : Parser α) :=
  .of_local (look_advances fun ts => f ts.head?) id (look_local f)

theorem current_glances : Glances 0 n current := look_glances id

theorem sees_glances (k : Kind) : Glances 0 n (sees k) := look_glances _

theorem seesAny_glances (ks : List Kind) : Glances 0 n (seesAny ks) := look_glances _

theorem advance_glances : Glances 1 n advance := by
  refine ⟨advance_advances, fun {ends ends' read rest rest' t} h _ _ => ?_⟩
  have hread : read ++ rest = [t] ++ rest := advance_eq_ok.1 h
  obtain rfl := List.append_cancel_right hread
  exact advance_eq_ok.2 rfl

theorem expect_glances {k : Kind} (hk : k ≠ .newline ∧ k ≠ .endOfInput) (what : Expectation) :
    Glances 1 n (expect k what) :=
  .of_local (expect_advances k what) (fun _ => trivial) (expect_local hk what)

theorem skipNewlines_glances : Glances 0 n skipNewlines :=
  .of_local skipNewlines_advances id skipNewlines_local

theorem skip_glances {k : Kind} (hk : k ≠ .endOfInput) : Glances 0 n (skip k) :=
  .of_local (skip_advances k) id (skip_local hk)

theorem operatorIn_glances (ops : List Operator) : Glances 0 n (operatorIn ops) := by
  refine ⟨operatorIn_advances ops, fun {ends ends' read rest rest' o} h _ hrest => ?_⟩
  cases o with
  | some op =>
    obtain ⟨hop, t, ht, hts⟩ := operatorIn_eq_some.1 h
    have hread : read ++ rest = [t] ++ rest := hts
    obtain rfl := List.append_cancel_right hread
    exact operatorIn_eq_some.2 ⟨hop, t, ht, rfl⟩
  | none =>
    obtain ⟨hts, hnone⟩ := operatorIn_eq_none.1 h
    obtain rfl := List.self_eq_append_left.1 hts
    exact operatorIn_eq_none.2 ⟨rfl, by rwa [List.nil_append, ← hrest]⟩

theorem skip_glances_next {k : Kind} {f : Bool → Parser β} (hk : k ≠ .endOfInput)
    (htrue : Glances (d - 1) (n - 1) (f true)) (hfalse : Glances d n (f false)) :
    Glances d n (skip k >>= f) := by
  refine (skip_glances hk).follow fun {ends ts b mid} hb => ?_
  cases b with
  | true =>
    obtain ⟨t, -, rfl⟩ := skip_eq_true.1 hb
    exact ⟨[t], rfl, htrue⟩
  | false =>
    obtain ⟨rfl, -⟩ := skip_eq_false.1 hb
    exact ⟨[], rfl, hfalse⟩

theorem operatorIn_glances_next {ops : List Operator} {f : Option Operator → Parser β}
    (hsome : ∀ op, Glances (d - 1) (n - 1) (f (some op))) (hnone : Glances d n (f none)) :
    Glances d n (operatorIn ops >>= f) := by
  refine (operatorIn_glances ops).follow fun {ends ts o mid} ho => ?_
  cases o with
  | some op =>
    obtain ⟨-, t, -, rfl⟩ := operatorIn_eq_some.1 ho
    exact ⟨[t], rfl, hsome op⟩
  | none =>
    obtain ⟨rfl, -⟩ := operatorIn_eq_none.1 ho
    exact ⟨[], rfl, hnone⟩

end Steps

/-! ## Expressions -/

section Expressions

variable {operand nested : Parser Expr}

theorem leftRow_glances (ops : List Operator) (ho : Glances 1 n operand) (left : Expr) :
    Glances 0 n (leftRow ops operand left) := by
  refine .of_rounds (leftRow_terminates ops ho.toAdvances) (fun hm ih left => ?_) left
  refine operatorIn_glances_next (fun op => ?_) (pure_glances left)
  exact (ho.mono (by omega)).eased.bind fun right => ih _

theorem rightRow_glances (ops : List Operator) (ho : Glances 1 n operand) :
    Glances 1 n (rightRow ops operand) := by
  refine Glances.of_rounds (rightRow_terminates ops ho.toAdvances) (fun hm ih _ => ?_) ()
  refine (ho.mono hm).next fun left => operatorIn_glances_next (fun op => ?_) (pure_glances left)
  exact ((ih ()).mono (Nat.sub_le _ 1)).eased.bind fun right => pure_glances _

theorem prefixRow_glances (ops : List Operator) (ho : Glances 1 n operand) :
    Glances 1 n (prefixRow ops operand) := by
  refine Glances.of_rounds (prefixRow_terminates ops ho.toAdvances) (fun hm ih _ => ?_) ()
  refine (sees_glances _).bind fun seen => .ite ?_ (ho.mono hm)
  refine operatorIn_glances_next (fun op => ?_) (fail_glances .notUnary [])
  exact (ih ()).eased.bind fun inner => pure_glances _

theorem level_glances (ho : Glances 1 n operand) (rows : List PrecedenceRow) :
    Glances 1 n (level operand rows) := by
  induction rows with
  | nil => rwa [level_nil]
  | cons row rows ih =>
    rw [level_cons ho.toAdvances]
    split
    · exact ih.next fun first => (leftRow_glances row.operators ih first).mono (Nat.sub_le n 1)
    · exact rightRow_glances row.operators ih
    · exact prefixRow_glances row.operators ih

theorem commaItems_glances {item : Parser α} {close : Symbol} {what : Expectation}
    (hi : Glances 1 n item) : Glances 1 n (commaItems close what item) := by
  refine Glances.of_rounds (commaItems_terminates close what hi.toAdvances) (fun hm ih _ => ?_) ()
  refine skipNewlines_glances.bind fun _ => (hi.mono hm).next fun x => ?_
  refine skipNewlines_glances.bind fun _ => skip_glances_next (by simp) ?_ ?_
  · exact ((ih ()).mono (Nat.sub_le _ 1)).eased.bind fun xs => pure_glances _
  · exact (expect_glances (by simp) what).eased.bind fun _ => pure_glances _

theorem listOver_glances {items : Parser (List α)} {close : Symbol} (h : Glances 1 n items) :
    Glances 0 n (listOver close items) :=
  skipNewlines_glances.bind fun _ => (skip_glances (by simp)).bind fun _ =>
    .ite (pure_glances []) h.eased

theorem listItem_glances (hn : Glances 1 n nested) (close : Symbol) (what : Expectation) :
    Glances 1 n (listItem nested close what) :=
  (seesAny_glances _).bind fun _ => .ite (fail_glances _ []) hn

theorem bound_glances (hn : Glances 1 n nested) (next : Symbol) :
    Glances 0 n (bound nested next) :=
  (sees_glances _).bind fun _ => .ite (pure_glances none) (hn.eased.bind fun _ => pure_glances _)

theorem index_glances (hn : Glances 1 n nested) : Glances 0 n (index nested) := by
  refine (bound_glances hn .colon).bind fun start => ?_
  refine (skip_glances (by simp)).bind fun colon => ?_
  have hclose : ∀ (what : Expectation) (i : Index Expr), Glances 0 n (do
      expect (.symbol .rbracket) what
      return i) :=
    fun what i => (expect_glances (by simp) what).eased.bind fun _ => pure_glances i
  have hslice := (bound_glances hn .rbracket).bind fun stop =>
    hclose .sliceClose (.slice start stop)
  cases start with
  | none => exact hslice
  | some value =>
    cases colon with
    | true => exact hslice
    | false => exact hclose .indexClose (.single value)

theorem indexed_glances (hn : Glances 1 (n - 1) nested) (base : Expr) :
    Glances 0 n (indexed nested base) := by
  refine .of_rounds (indexed_terminates hn.toAdvances) (fun hm ih base => ?_) base
  refine skip_glances_next (by simp) ?_ (pure_glances base)
  exact (index_glances (hn.mono (Nat.sub_le_sub_right hm 1))).bind fun i => ih _

theorem primaryOver_glances {arguments elements : Parser (List Expr)}
    (hn : Glances 1 (n - 1) nested) (ha : Glances 0 (n - 1) arguments)
    (he : Glances 0 (n - 1) elements) : Glances 1 n (primaryOver nested arguments elements) := by
  have hother : Glances 1 n (fail (.expected .expression) : Parser Expr) := fail_glances _ []
  refine current_glances.bind fun t => ?_
  cases t.map Token.lexeme with
  | none => exact hother
  | some l =>
    cases l with
    | literal value => exact advance_glances.next fun _ => pure_glances _
    | identifier i =>
      refine advance_glances.next fun _ => (skip_glances (by simp)).bind fun called => ?_
      exact .ite (ha.bind fun es => pure_glances _) (pure_glances _)
    | symbol b =>
      cases b with
      | lparen =>
        refine advance_glances.next fun _ => hn.eased.bind fun inner => ?_
        exact (expect_glances (by simp) .groupClose).eased.bind fun _ => pure_glances _
      | lbracket => exact advance_glances.next fun _ => he.bind fun es => pure_glances _
      | _ => exact hother
    | _ => exact hother

theorem atomAround_glances (hn : Glances 1 (n - 1) nested) : Glances 1 n (atomAround nested) := by
  have hitems : ∀ close what closed, Glances 1 (n - 1)
      (commaItems close closed (listItem nested close what)) :=
    fun close what closed => commaItems_glances (listItem_glances hn close what)
  refine (primaryOver_glances hn (listOver_glances (hitems ..)) (listOver_glances (hitems ..))).next
    fun base => ?_
  exact (indexed_glances hn base).mono (Nat.sub_le n 1)

theorem ternaryOver_glances (hn : Glances 1 (n - 1) nested) (ho : Glances 1 n operand) :
    Glances 1 n (ternaryOver nested operand) := by
  refine ho.next fun condition => ?_
  refine (skip_glances (by simp)).bind fun asked => .ite ?_ (pure_glances condition)
  refine hn.eased.bind fun whenTrue => ?_
  refine (expect_glances (by simp) .ternaryColon).eased.bind fun _ => ?_
  exact hn.eased.bind fun whenFalse => pure_glances _

theorem expression_glances : Glances 1 n expression :=
  Glances.of_rounds expression_terminates
    (fun _ ih _ =>
      ternaryOver_glances (ih ()) (level_glances (atomAround_glances (ih ())) precedence)) ()

theorem atom_glances : Glances 1 n atom := by
  rw [atom_eq]
  exact atomAround_glances expression_glances

end Expressions

/-- What ends a statement is the first token behind it, if it is not a newline that is taken. -/
theorem statement_glances : Glances 1 n statement := by
  refine ⟨statement_advances, fun {ends ends' read rest rest' s} h _ hrest => ?_⟩
  obtain ⟨us, hus, -, -, hsame, -⟩ := statement_behind h
  obtain rfl := List.append_cancel_right hus
  refine hsame ends' rest' fun hhalts => ?_
  unfold Halts at hhalts ⊢
  rwa [← hrest]

def LooksAhead (n : Nat) (p : Parser α) : Prop :=
  ∀ ends ends' read seen rest rest' a, seen.length = n →
    p ends (read ++ (seen ++ rest)) = .ok a (seen ++ rest) →
    p ends' (read ++ (seen ++ rest')) = .ok a (seen ++ rest')

theorem LooksAhead.of_glances (h : ∀ {n}, Glances d n p) : LooksAhead 1 p := by
  intro ends ends' read seen rest rest' a hseen hp
  obtain ⟨t, rfl⟩ := List.length_eq_one_iff.1 hseen
  exact h.carries hp (Nat.lt_succ_self _) rfl

theorem LooksAhead.of_local (h : ∀ {n}, Local d n Unseen p p) : LooksAhead 0 p :=
  fun _ _ _ _ _ _ _ _ hp => h.carries hp (Nat.le_refl _) trivial

end Grammar

namespace Entry

/-- How far ahead a parser looks. A branch may look over any number of line breaks for `else`. -/
def lookahead? : Entry → Option Nat
  | atom | expression | statement => some 1
  | block | loop | function | imports => some 0
  | _ => none

theorem parser_looksAhead {e : Entry} {n : Nat} (h : e.lookahead? = some n) :
    Grammar.LooksAhead n e.parser := by
  cases e with
  | atom =>
    cases h
    exact Grammar.LooksAhead.of_glances Grammar.atom_glances
  | expression =>
    cases h
    exact Grammar.LooksAhead.of_glances Grammar.expression_glances
  | statement =>
    cases h
    exact Grammar.LooksAhead.of_glances Grammar.statement_glances
  | block =>
    cases h
    exact Grammar.LooksAhead.of_local Grammar.block_local
  | loop =>
    cases h
    exact Grammar.LooksAhead.of_local
      (Grammar.loopOver_local Grammar.block_opens Grammar.block_local)
  | function =>
    cases h
    exact Grammar.LooksAhead.of_local Grammar.function_local
  | imports =>
    cases h
    exact Grammar.LooksAhead.of_local Grammar.imports_local
  | item | branch | moduleNamed _ | statementTokens => cases h

theorem least_of_lookahead {e : Entry} {n : Nat} (h : e.lookahead? = some n) : e.least = 1 := by
  cases e <;> first | rfl | cases h

end Entry

namespace Cursor

variable {α : Type} {p : Parser α} {a : α} {c c' : Cursor}

/-- What a successful run takes is between the two places of the cursor. -/
theorem run_taken (hp : Grammar.Advances 1 p) (h : c.run p = (.ok a, c')) :
    ∃ read left, c.rest = read ++ left ∧ read ≠ [] ∧ c' = c.forward read.length ∧
      p (Token.endOf c.tokens) (read ++ left) = .ok a left := by
  obtain ⟨left, hok⟩ := ok_of_run h
  obtain ⟨read, hrest, hread⟩ := hp.takes hok
  have hne : read ≠ [] := List.ne_nil_of_length_pos hread
  have hrun := run_of_ok hrest hne hok
  rw [h] at hrun
  exact ⟨read, left, hrest, hne, congrArg Prod.snd hrun, hrest ▸ hok⟩

def transplanted (c c' : Cursor) (n : Nat) (front back : List Token) : Cursor where
  tokens := front ++ (c.tokens.extract c.position (c'.position + n) ++ back)
  position := front.length

theorem rest_transplanted (c c' : Cursor) (n : Nat) (front back : List Token) :
    (c.transplanted c' n front back).rest =
      c.tokens.extract c.position (c'.position + n) ++ back :=
  List.drop_left

theorem extract_forward {read left : List Token} (h : c.rest = read ++ left) (n : Nat) :
    c.tokens.extract c.position (c.position + read.length + n) = read ++ left.take n := by
  rw [List.extract_eq_take_drop, ← rest, h, List.take_append]
  have hlen : c.position + read.length + n - c.position = read.length + n := by omega
  rw [hlen, List.take_of_length_le (Nat.le_add_right _ n), Nat.add_sub_cancel_left]

/-- What a parser that looks `n` tokens ahead has found is found wherever the tokens that it took
and `n` more stand, whatever is in front of them and behind. -/
theorem parse_transplanted {e : Entry} {n : Nat} {a : e.Result} (hn : e.lookahead? = some n)
    (h : c.run e.parser = (.ok a, c')) (hinside : c'.position + n ≤ c.tokens.length)
    (front back : List Token) :
    c.position < c'.position ∧
      (c.transplanted c' n front back).run e.parser =
        (.ok a, (c.transplanted c' n front back).forward (c'.position - c.position)) := by
  have hp : Grammar.Advances 1 e.parser := Entry.least_of_lookahead hn ▸ e.parser_advances
  obtain ⟨read, left, hrest, hne, rfl, hok⟩ := run_taken hp h
  have hlength := length_of_rest hrest hne
  have hpos := List.length_pos_iff.2 hne
  rw [forward_position] at hinside
  have hseen : (left.take n).length = n := by
    rw [List.length_take]
    omega
  let d := c.transplanted (c.forward read.length) n front back
  have hd : d.rest = read ++ (left.take n ++ back) := by
    rw [rest_transplanted, forward_position, extract_forward hrest, List.append_assoc]
  have hfound : e.parser (Token.endOf d.tokens) d.rest = .ok a (left.take n ++ back) := by
    rw [hd]
    refine Entry.parser_looksAhead hn (Token.endOf c.tokens) _ read _ (left.drop n) back a hseen ?_
    rw [List.take_append_drop]
    exact hok
  refine ⟨Nat.lt_add_of_pos_right hpos, ?_⟩
  rw [forward_position, Nat.add_sub_cancel_left]
  exact run_of_ok hd hne hfound

def brokenElse : Cursor where
  tokens := [.symbol .comma, .symbol .lbrace, .keyword .branch, .identifier (.simple "a"),
    .symbol .lbrace, .symbol .rbrace, .newline, .newline, .keyword .otherwise, .symbol .lbrace,
    .symbol .rbrace, .newline, .symbol .rbrace].map (Token.plain · none)
  position := 1

theorem brokenElse_transplanted :
    let e := Entry.block
    let found := [Statement.branch (.name (.simple "a")) [] (some [])]
    let d := brokenElse.transplanted (brokenElse.forward 12) 0 []
      [.plain (.keyword .otherwise) none, .plain .newline none]
    e.lookahead? = some 0 ∧ brokenElse.run e.parser = (.ok found, brokenElse.forward 12) ∧
      (brokenElse.forward 12).position + 0 ≤ brokenElse.tokens.length ∧
      d.tokens.length = 14 ∧ d.position = 0 ∧ d.run e.parser = (.ok found, d.forward 12) := by
  intro e found d
  have hrun : brokenElse.run e.parser = (.ok found, brokenElse.forward 12) := rfl
  have hinside : (brokenElse.forward 12).position + 0 ≤ brokenElse.tokens.length := by decide
  exact ⟨rfl, hrun, hinside, rfl, rfl, (parse_transplanted rfl hrun hinside [] _).2⟩

end Cursor
end Pasture
