import Pasture.Proofs.Grammar.Progress

/-! # The recursion of expressions

The loops and recursions of the grammar of expressions are told by one round each, without the
bounds that the parsers carry. A round goes on behind a token, so that the parsers solve the
equations that their rounds make.
-/
namespace Pasture.Grammar

open Pasture.Parser

variable {α : Type} {d j k m n : Nat} {operand operand' nested nested' : Parser Expr}

/-! ## Rows of operators -/

section Rows

variable {next next' : Expr → Parser Expr} {last last' : Unit → Parser Expr}

def leftRound (ops : List Operator) (operand : Parser Expr) (next : Expr → Parser Expr)
    (left : Expr) : Parser Expr := do
  match ← operatorIn ops with
  | some op =>
    let right ← operand
    next (.binary left op right)
  | none => return left

def rightRound (ops : List Operator) (operand : Parser Expr) (next : Unit → Parser Expr)
    (_ : Unit) : Parser Expr := do
  let left ← operand
  match ← operatorIn ops with
  | some op => return .binary left op (← next ())
  | none => return left

def prefixRound (ops : List Operator) (operand : Parser Expr) (next : Unit → Parser Expr)
    (_ : Unit) : Parser Expr := do
  if ← sees .operator then
    match ← operatorIn ops with
    | some op => return .unary op (← next ())
    | none => fail .notUnary
  else operand

theorem leftRound_coincides (ops : List Operator) (ho : Coincides 1 n operand operand')
    (h : ∀ left, Coincides 0 (n - 1) (next left) (next' left)) (left : Expr) :
    Coincides 0 n (leftRound ops operand next left) (leftRound ops operand' next' left) := by
  refine operatorIn_next (fun op => ?_) (pure_advances left).coincides
  exact (ho.mono (Nat.sub_le n 1)).eased.bind fun right => h _

theorem leftChain_coincides (ops : List Operator) (ho : Coincides 1 n operand operand')
    (hk : n ≤ k + 1) (hm : n ≤ m + 1) (left : Expr) :
    Coincides 0 n (leftChain ops operand k left) (leftChain ops operand' m left) := by
  refine Coincides.rounds (P := leftChain ops operand) (Q := leftChain ops operand')
    (fun left => pure_advances left) (fun _ k m left ends => ?_)
    (fun hj _ _ ih => leftRound_coincides ops (ho.mono hj) ih) hk hm left
  cases k <;> cases m <;> rfl

theorem rightRound_coincides (ops : List Operator) (ho : Coincides 1 n operand operand')
    (h : ∀ i, Coincides 1 (n - 1) (last i) (last' i)) (i : Unit) :
    Coincides 1 n (rightRound ops operand last i) (rightRound ops operand' last' i) := by
  refine ho.next fun left => operatorIn_next (fun op => ?_) (pure_advances left).coincides
  exact ((h ()).mono (Nat.sub_le (n - 1) 1)).eased.bind fun right => (pure_advances _).coincides

theorem rightChain_coincides (ops : List Operator) (ho : Coincides 1 n operand operand')
    (hk : n ≤ k + 1) (hm : n ≤ m + 1) :
    Coincides 1 n (rightChain ops operand k) (rightChain ops operand' m) := by
  refine Coincides.rounds (P := fun k _ => rightChain ops operand k)
    (Q := fun m _ => rightChain ops operand' m) (fun _ => ho.toAdvances) (fun hn k m _ ends => ?_)
    (fun hj _ _ ih => rightRound_coincides ops (ho.mono hj) ih) hk hm ()
  -- a bound may be none only where there is no token, and there no operand either
  obtain ⟨e, hq⟩ := ho.toAdvances.fails_empty ends
  have hsame : operand ends [] = operand' ends [] := ho.same hn
  cases k <;> cases m <;> simp [rightChain, bind_apply, hsame, hq]

theorem prefixRound_coincides (ops : List Operator) (ho : Coincides 1 n operand operand')
    (h : ∀ i, Coincides 1 (n - 1) (last i) (last' i)) (i : Unit) :
    Coincides 1 n (prefixRound ops operand last i) (prefixRound ops operand' last' i) := by
  refine (sees_advances _).coincides.bind fun seen => .ite ?_ ho
  refine operatorIn_next (fun op => ?_) (fail_advances .notUnary []).coincides
  exact (h ()).eased.bind fun inner => (pure_advances _).coincides

theorem prefixChain_coincides (ops : List Operator) (ho : Coincides 1 n operand operand')
    (hk : n ≤ k + 1) (hm : n ≤ m + 1) :
    Coincides 1 n (prefixChain ops operand k) (prefixChain ops operand' m) := by
  refine Coincides.rounds (P := fun k _ => prefixChain ops operand k)
    (Q := fun m _ => prefixChain ops operand' m) (fun _ => ho.toAdvances) (fun hn k m _ ends => ?_)
    (fun hj _ _ ih => prefixRound_coincides ops (ho.mono hj) ih) hk hm ()
  have hsame : operand ends [] = operand' ends [] := ho.same hn
  cases k <;> cases m <;> simp [prefixChain, bind_apply, hsame]

theorem climb_coincides (ho : Coincides 1 n operand operand') (hk : n ≤ k + 1) (hm : n ≤ m + 1)
    (rows : List PrecedenceRow) : Coincides 1 n (climb operand k rows) (climb operand' m rows) := by
  induction rows with
  | nil => exact ho
  | cons row rows ih =>
    unfold climb
    split
    · refine ih.next fun first => ?_
      exact (leftChain_coincides row.operators ih hk hm first).mono (Nat.sub_le n 1)
    · exact rightChain_coincides row.operators ih hk hm
    · exact prefixChain_coincides row.operators ih hk hm

end Rows

/-! ## Lists and indices -/

section Lists

variable {item item' : Parser α} {close : Symbol} {what : Expectation}

def commaRound (close : Symbol) (what : Expectation) (item : Parser α)
    (next : Unit → Parser (List α)) (_ : Unit) : Parser (List α) := do
  skipNewlines
  let x ← item
  skipNewlines
  if ← skip (.symbol .comma) then return x :: (← next ())
  else
    expect (.symbol close) what
    return [x]

theorem commaList_succ (close : Symbol) (what : Expectation) (item : Parser α) (n : Nat) :
    commaList close what item (n + 1) =
      commaRound close what item (fun _ => commaList close what item n) () := rfl

theorem commaRound_coincides {next next' : Unit → Parser (List α)} (hi : Coincides 1 n item item')
    (h : ∀ i, Coincides 1 (n - 1) (next i) (next' i)) (i : Unit) :
    Coincides 1 n (commaRound close what item next i) (commaRound close what item' next' i) := by
  refine skipNewlines_advances.coincides.bind fun _ => hi.next fun x => ?_
  refine skipNewlines_advances.coincides.bind fun _ => skip_next ?_ ?_
  · exact ((h ()).mono (Nat.sub_le (n - 1) 1)).eased.bind fun xs => (pure_advances _).coincides
  · exact ((expect_advances _ what).andThen fun _ => pure_advances _).eased.coincides

theorem commaList_coincides (hi : Coincides 1 n item item') (hk : n ≤ k + 1) (hm : n ≤ m + 1) :
    Coincides 1 n (commaList close what item k) (commaList close what item' m) := by
  refine Coincides.rounds (P := fun k _ => commaList close what item k)
    (Q := fun m _ => commaList close what item' m)
    (fun _ => hi.toAdvances.andThen fun x => pure_advances [x]) (fun hn k m _ ends => ?_)
    (fun hj _ _ ih _ => ?_) hk hm ()
  · obtain ⟨e, hq⟩ := hi.toAdvances.fails_empty ends
    have hsame : item ends [] = item' ends [] := hi.same hn
    cases k <;> cases m <;> simp [commaList, bind_apply, hsame, hq]
  · rw [commaList_succ, commaList_succ]
    exact commaRound_coincides (hi.mono hj) ih ()

def listOver (close : Symbol) (items : Parser (List α)) : Parser (List α) := do
  skipNewlines
  if ← skip (.symbol close) then return []
  else items

theorem listOver_coincides {items items' : Parser (List α)} (h : Coincides 1 n items items') :
    Coincides 0 n (listOver close items) (listOver close items') :=
  skipNewlines_advances.coincides.bind fun _ => (skip_advances _).coincides.bind fun _ =>
    .ite (pure_advances []).coincides h.eased

theorem listItems_coincides (hi : Coincides 1 n item item') (hk : n ≤ k + 1) (hm : n ≤ m + 1) :
    Coincides 0 n (listItems close what item k) (listItems close what item' m) :=
  listOver_coincides (commaList_coincides hi hk hm)

theorem listItem_coincides (hn : Coincides 1 n nested nested') (close : Symbol)
    (what : Expectation) :
    Coincides 1 n (listItem nested close what) (listItem nested' close what) :=
  (seesAny_advances _).coincides.bind fun _ => .ite (fail_advances _ []).coincides hn

theorem bound_coincides (hn : Coincides 1 n nested nested') (next : Symbol) :
    Coincides 0 n (bound nested next) (bound nested' next) :=
  (sees_advances _).coincides.bind fun _ => .ite (pure_advances none).coincides
    (hn.eased.bind fun _ => (pure_advances _).coincides)

theorem index_coincides (hn : Coincides 1 n nested nested') :
    Coincides 0 n (index nested) (index nested') := by
  refine (bound_coincides hn .colon).bind fun start => ?_
  refine (skip_advances _).coincides.bind fun colon => ?_
  have hclose : ∀ (what : Expectation) (i : Index Expr), Advances 0 (do
      expect (.symbol .rbracket) what
      return i) :=
    fun what i => ((expect_advances _ what).andThen fun _ => pure_advances i).eased
  have hslice := (bound_coincides hn .rbracket).bind fun stop =>
    (hclose .sliceClose (.slice start stop)).coincides
  cases start with
  | none => exact hslice
  | some value =>
    cases colon with
    | true => exact hslice
    | false => exact (hclose .indexClose (.single value)).coincides

def indexRound (nested : Parser Expr) (next : Expr → Parser Expr) (base : Expr) : Parser Expr := do
  if ← skip (.symbol .lbracket) then
    let i ← index nested
    next (.element base i)
  else return base

theorem indices_succ (nested : Parser Expr) (n : Nat) (base : Expr) :
    indices nested (n + 1) base = indexRound nested (indices nested n) base := rfl

theorem indexRound_coincides {next next' : Expr → Parser Expr}
    (hn : Coincides 1 (n - 1) nested nested')
    (h : ∀ base, Coincides 0 (n - 1) (next base) (next' base)) (base : Expr) :
    Coincides 0 n (indexRound nested next base) (indexRound nested' next' base) :=
  skip_next ((index_coincides hn).bind fun _ => h _) (pure_advances base).coincides

theorem indices_empty (nested : Parser Expr) (n : Nat) (base : Expr) (ends : Option Span) :
    indices nested n base ends [] = .ok base [] := by
  cases n <;> rfl

theorem indices_coincides (hn : Coincides 1 (n - 1) nested nested') (hk : n ≤ k + 1)
    (hm : n ≤ m + 1) (base : Expr) :
    Coincides 0 n (indices nested k base) (indices nested' m base) := by
  refine Coincides.rounds (P := indices nested) (Q := indices nested')
    (fun base => pure_advances base) (fun _ k m base ends => ?_) (fun hj _ _ ih base => ?_)
    hk hm base
  · rw [indices_empty, indices_empty]
  · rw [indices_succ, indices_succ]
    exact indexRound_coincides (hn.mono (Nat.sub_le_sub_right hj 1)) ih base

end Lists

/-! ## Expressions -/

def primaryOver (nested : Parser Expr) (arguments elements : Parser (List Expr)) : Parser Expr := do
  match (← current).map Token.lexeme with
  | some (.literal value) =>
    let _ ← advance
    return .literal value
  | some (.symbol .lparen) =>
    let _ ← advance
    let inner ← nested
    expect (.symbol .rparen) .groupClose
    return .group inner
  | some (.symbol .lbracket) =>
    let _ ← advance
    return .array (← elements)
  | some (.identifier i) =>
    let _ ← advance
    if ← skip (.symbol .lparen) then return .call i (← arguments)
    else return .name i
  | _ => fail (.expected .expression)

theorem primaryOver_coincides {arguments arguments' elements elements' : Parser (List Expr)}
    (hn : Coincides 1 (n - 1) nested nested') (ha : Coincides 0 (n - 1) arguments arguments')
    (he : Coincides 0 (n - 1) elements elements') :
    Coincides 1 n (primaryOver nested arguments elements)
      (primaryOver nested' arguments' elements') := by
  have hother : Coincides 1 n (fail (.expected .expression) : Parser Expr)
      (fail (.expected .expression)) := (fail_advances _ []).coincides
  refine current_advances.coincides.bind fun t => ?_
  cases t.map Token.lexeme with
  | none => exact hother
  | some l =>
    cases l with
    | literal value => exact (advance_advances.andThen fun _ => pure_advances _).coincides
    | identifier i =>
      refine advance_advances.coincides.next fun _ => ?_
      refine (skip_advances _).coincides.bind fun called => ?_
      exact .ite (ha.bind fun es => (pure_advances _).coincides) (pure_advances _).coincides
    | symbol b =>
      cases b with
      | lparen =>
        refine advance_advances.coincides.next fun _ => hn.eased.bind fun inner => ?_
        exact ((expect_advances _ .groupClose).andThen fun _ => pure_advances _).eased.coincides
      | lbracket =>
        exact advance_advances.coincides.next fun _ => he.bind fun es => (pure_advances _).coincides
      | _ => exact hother
    | _ => exact hother

theorem primary_coincides (hn : Coincides 1 (n - 1) nested nested') (hk : n ≤ k + 1)
    (hm : n ≤ m + 1) : Coincides 1 n (primary nested k) (primary nested' m) :=
  primaryOver_coincides hn
    (listItems_coincides (listItem_coincides hn _ _) (by omega) (by omega))
    (listItems_coincides (listItem_coincides hn _ _) (by omega) (by omega))

theorem atomOver_coincides (hn : Coincides 1 (n - 1) nested nested') (hk : n ≤ k + 1)
    (hm : n ≤ m + 1) : Coincides 1 n (atomOver nested k) (atomOver nested' m) :=
  (primary_coincides hn hk hm).next fun base =>
    (indices_coincides hn hk hm base).mono (Nat.sub_le n 1)

def ternaryOver (nested condition : Parser Expr) : Parser Expr := do
  let condition ← condition
  if ← skip (.symbol .question) then
    let whenTrue ← nested
    expect (.symbol .colon) .ternaryColon
    let whenFalse ← nested
    return .ternary condition whenTrue whenFalse
  else return condition

theorem ternaryOver_coincides (hn : Coincides 1 (n - 1) nested nested')
    (ho : Coincides 1 n operand operand') :
    Coincides 1 n (ternaryOver nested operand) (ternaryOver nested' operand') := by
  refine ho.next fun condition => ?_
  refine (skip_advances _).coincides.bind fun asked => .ite ?_ (pure_advances condition).coincides
  refine hn.eased.bind fun whenTrue => ?_
  refine (expect_advances _ .ternaryColon).coincides.eased.bind fun _ => ?_
  exact hn.eased.bind fun whenFalse => (pure_advances _).coincides

theorem expressionOver_coincides (hn : Coincides 1 (n - 1) nested nested') (hk : n ≤ k + 1)
    (hm : n ≤ m + 1) : Coincides 1 n (expressionOver nested k) (expressionOver nested' m) :=
  ternaryOver_coincides hn (climb_coincides (atomOver_coincides hn hk hm) hk hm precedence)

/-- Without a token there is no atom, whatever the rows over it. -/
theorem climb_empty {ends : Option Span} {e : ParseError} (ho : operand ends [] = .error e [])
    (rows : List PrecedenceRow) : climb operand n rows ends [] = .error e [] := by
  induction rows with
  | nil => exact ho
  | cons row rows ih =>
    cases hf : row.fixity with
    | left => simp only [climb, hf, bind_apply, ih]
    | right => cases n <;> simp [climb, hf, rightChain, bind_apply, ih]
    | pre => cases n <;> simp [climb, hf, prefixChain, bind_apply, ih]

theorem expressionOver_empty (nested : Parser Expr) (n : Nat) (ends : Option Span) :
    expressionOver nested n ends [] =
      .error (.syntactic (.expected .expression) ends none) [] := by
  have hatom : atomOver nested n ends [] =
      .error (.syntactic (.expected .expression) ends none) [] := rfl
  rw [expressionOver, bind_apply, climb_empty hatom]

theorem expressionWithin_empty (n : Nat) (ends : Option Span) :
    expressionWithin n ends [] = .error (.syntactic (.expected .expression) ends none) [] := by
  cases n with
  | zero => rfl
  | succ n => exact expressionOver_empty (expressionWithin n) (n + 1) ends

theorem expressionWithin_coincides (hk : n ≤ k + 1) (hm : n ≤ m + 1) :
    Coincides 1 n (expressionWithin k) (expressionWithin m) := by
  refine Coincides.rounds (P := fun k _ => expressionWithin k) (Q := fun m _ => expressionWithin m)
    (fun _ => fail_advances _ []) (fun _ k m _ ends => ?_)
    (fun _ hk hm ih _ => expressionOver_coincides (ih ()) hk hm) hk hm ()
  rw [expressionWithin_empty, expressionWithin_empty]

/-! ## Without bounds

Every bound is the length of the stream in the end, and a longer one changes nothing.
-/

section Unbounded

def leftRow (ops : List Operator) (operand : Parser Expr) (left : Expr) : Parser Expr :=
  sized (leftChain ops operand · left)

def rightRow (ops : List Operator) (operand : Parser Expr) : Parser Expr :=
  sized (rightChain ops operand)

def prefixRow (ops : List Operator) (operand : Parser Expr) : Parser Expr :=
  sized (prefixChain ops operand)

def commaItems (close : Symbol) (what : Expectation) (item : Parser α) : Parser (List α) :=
  sized (commaList close what item)

def indexed (nested : Parser Expr) (base : Expr) : Parser Expr :=
  sized (indices nested · base)

def level (operand : Parser Expr) (rows : List PrecedenceRow) : Parser Expr :=
  sized (climb operand · rows)

def atomAround (nested : Parser Expr) : Parser Expr := do
  let base ← primaryOver nested
    (listOver .rparen (commaItems .rparen .argumentsClose (listItem nested .rparen .argument)))
    (listOver .rbracket (commaItems .rbracket .elementsClose (listItem nested .rbracket .element)))
  indexed nested base

def expressionAround (nested : Parser Expr) : Parser Expr :=
  ternaryOver nested (level (atomAround nested) precedence)

theorem leftChain_bounded (ops : List Operator) (ho : Coincides 1 n operand operand')
    (hk : n ≤ k + 1) (left : Expr) :
    Coincides 0 n (leftChain ops operand k left) (leftRow ops operand' left) :=
  .sized_right fun hj hm => leftChain_coincides ops (ho.mono hj) (Nat.le_trans hj hk) hm left

theorem rightChain_bounded (ops : List Operator) (ho : Coincides 1 n operand operand')
    (hk : n ≤ k + 1) : Coincides 1 n (rightChain ops operand k) (rightRow ops operand') :=
  .sized_right fun hj hm => rightChain_coincides ops (ho.mono hj) (Nat.le_trans hj hk) hm

theorem prefixChain_bounded (ops : List Operator) (ho : Coincides 1 n operand operand')
    (hk : n ≤ k + 1) : Coincides 1 n (prefixChain ops operand k) (prefixRow ops operand') :=
  .sized_right fun hj hm => prefixChain_coincides ops (ho.mono hj) (Nat.le_trans hj hk) hm

theorem climb_bounded (ho : Coincides 1 n operand operand') (hk : n ≤ k + 1)
    (rows : List PrecedenceRow) : Coincides 1 n (climb operand k rows) (level operand' rows) :=
  .sized_right fun hj hm => climb_coincides (ho.mono hj) (Nat.le_trans hj hk) hm rows

theorem commaList_bounded {item item' : Parser α} {close : Symbol} {what : Expectation}
    (hi : Coincides 1 n item item') (hk : n ≤ k + 1) :
    Coincides 1 n (commaList close what item k) (commaItems close what item') :=
  .sized_right fun hj hm => commaList_coincides (hi.mono hj) (Nat.le_trans hj hk) hm

theorem sized_listItems {item : Parser α} (close : Symbol) (what : Expectation)
    (hi : Advances 1 item) :
    sized (listItems close what item) = listOver close (commaItems close what item) :=
  Coincides.eq_of_forall fun _ => .sized_left fun _ hk =>
    listOver_coincides (commaList_bounded hi.coincides hk)

theorem indices_bounded (hn : Coincides 1 (n - 1) nested nested') (hk : n ≤ k + 1) (base : Expr) :
    Coincides 0 n (indices nested k base) (indexed nested' base) :=
  .sized_right fun hj hm =>
    indices_coincides (hn.mono (Nat.sub_le_sub_right hj 1)) (Nat.le_trans hj hk) hm base

theorem atomOver_bounded (hn : Coincides 1 (n - 1) nested nested') (hk : n ≤ k + 1) :
    Coincides 1 n (atomOver nested k) (atomAround nested') := by
  refine Coincides.next ?_ fun base => (indices_bounded hn hk base).mono (Nat.sub_le n 1)
  exact primaryOver_coincides hn
    (listOver_coincides (commaList_bounded (listItem_coincides hn _ _) (by omega)))
    (listOver_coincides (commaList_bounded (listItem_coincides hn _ _) (by omega)))

theorem expressionOver_bounded (hn : Coincides 1 (n - 1) nested nested') (hk : n ≤ k + 1) :
    Coincides 1 n (expressionOver nested k) (expressionAround nested') :=
  ternaryOver_coincides hn (climb_bounded (atomOver_bounded hn hk) hk precedence)

theorem expressionWithin_bounded (hk : n ≤ k + 1) : Coincides 1 n (expressionWithin k) expression :=
  .sized_right fun hj hm => expressionWithin_coincides (Nat.le_trans hj hk) hm

theorem expression_advances : Advances 1 expression :=
  (expressionWithin_bounded (n := 0) (k := 0) (Nat.zero_le _)).toAdvances

theorem level_advances (ho : Advances 1 operand) (rows : List PrecedenceRow) :
    Advances 1 (level operand rows) :=
  (climb_bounded (n := 0) (k := 0) ho.coincides (Nat.zero_le _) rows).toAdvances

theorem level_nil (operand : Parser Expr) : level operand [] = operand := rfl

/-- A row of operators stands over the rows that bind tighter. -/
theorem level_cons (ho : Advances 1 operand) (row : PrecedenceRow) (rows : List PrecedenceRow) :
    level operand (row :: rows) =
      match row.fixity with
      | .left => level operand rows >>= leftRow row.operators (level operand rows)
      | .right => rightRow row.operators (level operand rows)
      | .pre => prefixRow row.operators (level operand rows) := by
  refine Coincides.eq_of_forall (d := 1) fun n => .sized_left fun {j k} _ hk => ?_
  -- the bound of the row is the bound of the rows below it too, and neither of them is met
  have hrows : Coincides 1 j (climb operand k rows) (level operand rows) :=
    climb_bounded ho.coincides hk rows
  cases hf : row.fixity with
  | left =>
    simp only [climb, hf]
    exact hrows.next fun first =>
      (leftChain_bounded row.operators hrows hk first).mono (Nat.sub_le j 1)
  | right =>
    simp only [climb, hf]
    exact rightChain_bounded row.operators hrows hk
  | pre =>
    simp only [climb, hf]
    exact prefixChain_bounded row.operators hrows hk

theorem atom_eq : atom = atomAround expression := by
  refine Coincides.eq_of_forall (d := 1) fun n => ?_
  refine .sized_left (P := fun k => atomOver (expressionWithin (k - 1)) k) fun {j k} _ hk => ?_
  exact atomOver_bounded (expressionWithin_bounded (by omega)) hk

theorem atom_advances : Advances 1 atom := by
  rw [atom_eq]
  exact (atomOver_bounded (n := 0) (k := 0) expression_advances.coincides
    (Nat.zero_le _)).toAdvances

theorem expression_eq : expression = expressionAround expression :=
  Coincides.sized_eq expressionWithin_coincides fun _ =>
    expressionOver_bounded (expressionWithin_bounded (by omega)) (by omega)

end Unbounded

/-! ## Every loop ends -/

theorem leftRow_terminates (ops : List Operator) (ho : Advances 1 operand) :
    Terminates 0 (leftRound ops operand) (leftRow ops operand) :=
  .of_rounds (P := leftChain ops operand) (fun _ _ => rfl)
    (fun hk hm left => leftChain_coincides ops ho.coincides hk hm left)
    (fun h left => leftRound_coincides ops ho.coincides h left)

theorem rightRow_terminates (ops : List Operator) (ho : Advances 1 operand) :
    Terminates 1 (rightRound ops operand) fun _ => rightRow ops operand :=
  .of_rounds (P := fun k _ => rightChain ops operand k) (fun _ _ => rfl)
    (fun hk hm _ => rightChain_coincides ops ho.coincides hk hm)
    (fun h i => rightRound_coincides ops ho.coincides h i)

theorem prefixRow_terminates (ops : List Operator) (ho : Advances 1 operand) :
    Terminates 1 (prefixRound ops operand) fun _ => prefixRow ops operand :=
  .of_rounds (P := fun k _ => prefixChain ops operand k) (fun _ _ => rfl)
    (fun hk hm _ => prefixChain_coincides ops ho.coincides hk hm)
    (fun h i => prefixRound_coincides ops ho.coincides h i)

theorem commaItems_terminates {item : Parser α} (close : Symbol) (what : Expectation)
    (hi : Advances 1 item) :
    Terminates 1 (commaRound close what item) fun _ => commaItems close what item :=
  .of_rounds (P := fun k _ => commaList close what item k)
    (fun k _ => commaList_succ close what item k)
    (fun hk hm _ => commaList_coincides hi.coincides hk hm)
    (fun h i => commaRound_coincides hi.coincides h i)

theorem indexed_terminates (hn : Advances 1 nested) :
    Terminates 0 (indexRound nested) (indexed nested) :=
  .of_rounds (P := indices nested) (indices_succ nested)
    (fun hk hm base => indices_coincides hn.coincides hk hm base)
    (fun h base => indexRound_coincides hn.coincides h base)

theorem atomAround_coincides (hn : Coincides 1 (n - 1) nested nested') :
    Coincides 1 n (atomAround nested) (atomAround nested') := by
  have hitems : ∀ close what closed, Coincides 1 (n - 1)
      (commaItems close closed (listItem nested close what))
      (commaItems close closed (listItem nested' close what)) :=
    fun close what closed => .sized_left fun hj hk =>
      commaList_bounded ((listItem_coincides hn close what).mono hj) hk
  refine Coincides.next ?_ fun base => ?_
  · exact primaryOver_coincides hn (listOver_coincides (hitems ..)) (listOver_coincides (hitems ..))
  · exact .sized_left fun hj hk =>
      indices_bounded (hn.mono (Nat.le_trans (Nat.sub_le _ 1) hj)) hk base

theorem expressionAround_coincides (hn : Coincides 1 (n - 1) nested nested') :
    Coincides 1 n (expressionAround nested) (expressionAround nested') :=
  ternaryOver_coincides hn <|
    .sized_left fun hj hk => climb_bounded ((atomAround_coincides hn).mono hj) hk precedence

theorem expression_terminates :
    Terminates 1 (fun next (_ : Unit) => expressionAround (next ())) fun _ => expression :=
  .of_unfolds (fun _ => expression_advances) (fun _ => expression_eq)
    fun h _ => expressionAround_coincides (h ())

end Pasture.Grammar
