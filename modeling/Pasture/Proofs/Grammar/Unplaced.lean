import Pasture.Proofs.Token.Unplaced

/-! # Parsers do not see places

What a parser makes of a stream does not depend on the places of its tokens, and it copies these
places only into errors and into the tokens that it hands on. So on a stream without places it does
as it does on the stream, without places.
-/
namespace Pasture.Grammar

open Pasture.Parser Pasture.Lexing

def outcome {α : Type} (v : α → α) :
    EStateM.Result ParseError (List Token) α → EStateM.Result ParseError (List Token) α
  | .ok a rest => .ok (v a) (rest.map unplaced)
  | .error e rest => .error e.unplaced (rest.map unplaced)

/-- On the stream without places `q` does what `p` does on the stream, without places. -/
def Mirrors {α : Type} (v : α → α) (p q : Parser α) : Prop :=
  ∀ ends ts, q none (ts.map unplaced) = outcome v (p ends ts)

abbrev Blind {α : Type} (p : Parser α) : Prop := Mirrors id p p

variable {α β : Type}

section Combinators

theorem Mirrors.bind {p q : Parser α} {f g : α → Parser β} {v : α → α} {w : β → β}
    (hp : Mirrors v p q) (hf : ∀ a, Mirrors w (f a) (g (v a))) :
    Mirrors w (p >>= f) (q >>= g) := by
  intro ends ts
  rw [bind_apply, bind_apply, hp ends ts]
  cases p ends ts with
  | ok a mid => exact hf a ends mid
  | error e mid => rfl

theorem Blind.bind {p : Parser α} {f : α → Parser β} (hp : Blind p) (hf : ∀ a, Blind (f a)) :
    Blind (p >>= f) :=
  Mirrors.bind hp hf

theorem Blind.ite {p q : Parser α} {c : Prop} [Decidable c] (hp : Blind p) (hq : Blind q) :
    Blind (if c then p else q) := by
  split
  · exact hp
  · exact hq

theorem pure_blind (a : α) : Blind (pure a : Parser α) := fun _ _ => rfl

/-- A parser that is handed the length of its stream. -/
theorem Blind.sized {p : Nat → Parser α} (hp : ∀ n, Blind (p n)) :
    Blind (fun ends ts => p ts.length ends ts) := by
  intro ends ts
  change p (ts.map unplaced).length none (ts.map unplaced) = _
  rw [List.length_map]
  exact hp ts.length ends ts

end Combinators

section Steps

theorem fail_blind (complaint : Complaint) (suggestions : List Suggestion) :
    Blind (fail complaint suggestions : Parser α) := by
  intro ends ts
  cases ts <;> rfl

theorem refuse_mirrors (t : Token) (complaint : Complaint) (suggestions : List Suggestion)
    (v : α → α) :
    Mirrors v (refuse (some t) complaint suggestions)
      (refuse (some (unplaced t)) complaint suggestions) :=
  fun _ _ => rfl

theorem current_mirrors : Mirrors (Option.map unplaced) current current := by
  intro ends ts
  cases ts <;> rfl

theorem lexeme_unplaced (t : Option Token) :
    (t.map unplaced).map Token.lexeme = t.map Token.lexeme := by
  cases t <;> rfl

theorem advance_mirrors : Mirrors unplaced advance advance := by
  intro ends ts
  cases ts <;> rfl

theorem take_mirrors (k : Kind) (complaint : Complaint) :
    Mirrors unplaced (take k complaint) (take k complaint) := by
  intro ends ts
  cases ts with
  | nil => rfl
  | cons t ts =>
    by_cases ht : t.kind = k
    · simp only [take, List.map_cons, unplaced_kind, ht, if_true]
      rfl
    · simp only [take, List.map_cons, unplaced_kind, ht, if_false]
      rfl

theorem expect_blind (k : Kind) (what : Expectation) : Blind (expect k what) :=
  (take_mirrors k _).bind fun _ => pure_blind ()

theorem sees_blind (k : Kind) : Blind (sees k) := by
  intro ends ts
  cases ts <;> rfl

theorem seesAny_blind (ks : List Kind) : Blind (seesAny ks) := by
  intro ends ts
  cases ts <;> rfl

theorem atEnd_blind : Blind atEnd := by
  intro ends ts
  cases ts <;> rfl

theorem exhausted_blind : Blind exhausted := by
  intro ends ts
  cases ts <;> rfl

theorem identifier_blind (what : Expectation) : Blind (identifier what) := by
  intro ends ts
  cases ts with
  | nil => rfl
  | cons t ts =>
    simp only [identifier, List.map_cons, unplaced_lexeme]
    split <;> rfl

theorem operatorIn_blind (ops : List Operator) : Blind (operatorIn ops) := by
  intro ends ts
  cases ts with
  | nil => rfl
  | cons t ts =>
    simp only [operatorIn, List.map_cons, unplaced_lexeme]
    split
    · split <;> rfl
    · rfl

theorem skip_blind (k : Kind) : Blind (skip k) := by
  intro ends ts
  cases ts with
  | nil => rfl
  | cons t ts =>
    by_cases ht : t.kind = k
    · simp only [skip, List.map_cons, unplaced_kind, ht, if_true]
      rfl
    · simp only [skip, List.map_cons, unplaced_kind, ht, if_false]
      rfl

theorem dropWhile_unplaced (ts : List Token) :
    (ts.map unplaced).dropWhile Token.isNewline = (ts.dropWhile Token.isNewline).map unplaced :=
  List.dropWhile_map ..

theorem skipNewlines_blind : Blind skipNewlines := by
  intro ends ts
  simp only [skipNewlines, dropWhile_unplaced]
  rfl

theorem elseFollows_blind : Blind elseFollows := by
  intro ends ts
  simp only [elseFollows, dropWhile_unplaced]
  cases ts.dropWhile Token.isNewline <;> rfl

end Steps

section Lists

variable {item : Parser α}

theorem commaList_blind (hi : Blind item) (close : Symbol) (what : Expectation) (n : Nat) :
    Blind (commaList close what item n) := by
  induction n with
  | zero => exact hi.bind fun x => pure_blind _
  | succ n ih =>
    apply skipNewlines_blind.bind
    intro _
    apply hi.bind
    intro x
    apply skipNewlines_blind.bind
    intro _
    apply (skip_blind _).bind
    intro more
    apply Blind.ite
    · exact ih.bind fun xs => pure_blind _
    · exact (expect_blind _ what).bind fun _ => pure_blind _

theorem listItems_blind (hi : Blind item) (close : Symbol) (what : Expectation) (n : Nat) :
    Blind (listItems close what item n) := by
  apply skipNewlines_blind.bind
  intro _
  apply (skip_blind _).bind
  intro closed
  exact Blind.ite (pure_blind []) (commaList_blind hi close what n)

end Lists

section Expressions

variable {operand nested : Parser Expr}

theorem leftChain_blind (ops : List Operator) (ho : Blind operand) (n : Nat) (left : Expr) :
    Blind (leftChain ops operand n left) := by
  induction n generalizing left with
  | zero => exact pure_blind left
  | succ n ih =>
    apply (operatorIn_blind ops).bind
    intro o
    cases o with
    | none => exact pure_blind left
    | some op => exact ho.bind fun right => ih (.binary left op right)

theorem rightChain_blind (ops : List Operator) (ho : Blind operand) (n : Nat) :
    Blind (rightChain ops operand n) := by
  induction n with
  | zero => exact ho
  | succ n ih =>
    apply ho.bind
    intro left
    apply (operatorIn_blind ops).bind
    intro o
    cases o with
    | none => exact pure_blind left
    | some op => exact ih.bind fun right => pure_blind _

theorem prefixChain_blind (ops : List Operator) (ho : Blind operand) (n : Nat) :
    Blind (prefixChain ops operand n) := by
  induction n with
  | zero => exact ho
  | succ n ih =>
    apply (sees_blind .operator).bind
    intro seen
    apply Blind.ite
    · apply (operatorIn_blind ops).bind
      intro o
      cases o with
      | none => exact fail_blind .notUnary []
      | some op => exact ih.bind fun inner => pure_blind _
    · exact ho

theorem climb_blind (ho : Blind operand) (n : Nat) (rows : List PrecedenceRow) :
    Blind (climb operand n rows) := by
  induction rows with
  | nil => exact ho
  | cons row rows ih =>
    unfold climb
    split
    · exact ih.bind fun first => leftChain_blind row.operators ih n first
    · exact rightChain_blind row.operators ih n
    · exact prefixChain_blind row.operators ih n

theorem listItem_blind (hn : Blind nested) (close : Symbol) (what : Expectation) :
    Blind (listItem nested close what) :=
  (seesAny_blind _).bind fun _ => Blind.ite (fail_blind (.expected what) []) hn

theorem bound_blind (hn : Blind nested) (next : Symbol) : Blind (bound nested next) :=
  (sees_blind _).bind fun _ => Blind.ite (pure_blind none) (hn.bind fun _ => pure_blind _)

theorem index_blind (hn : Blind nested) : Blind (index nested) := by
  apply (bound_blind hn .colon).bind
  intro start
  apply (skip_blind _).bind
  intro colon
  have slice : Blind (do
      let stop ← bound nested .rbracket
      expect (.symbol .rbracket) .sliceClose
      return .slice start stop : Parser (Index Expr)) :=
    (bound_blind hn .rbracket).bind fun stop =>
      (expect_blind _ .sliceClose).bind fun _ => pure_blind _
  cases start with
  | none => exact slice
  | some value =>
    cases colon with
    | true => exact slice
    | false => exact (expect_blind _ .indexClose).bind fun _ => pure_blind _

theorem indices_blind (hn : Blind nested) (n : Nat) (base : Expr) :
    Blind (indices nested n base) := by
  induction n generalizing base with
  | zero => exact pure_blind base
  | succ n ih =>
    apply (skip_blind _).bind
    intro opened
    apply Blind.ite
    · exact (index_blind hn).bind fun i => ih (.element base i)
    · exact pure_blind base

theorem primary_blind (hn : Blind nested) (n : Nat) : Blind (primary nested n) := by
  apply Mirrors.bind current_mirrors
  intro t
  rw [lexeme_unplaced]
  split
  · exact advance_mirrors.bind fun _ => pure_blind _
  · apply advance_mirrors.bind
    intro _
    apply hn.bind
    intro inner
    exact (expect_blind _ .groupClose).bind fun _ => pure_blind _
  · apply advance_mirrors.bind
    intro _
    have hitems := listItems_blind (listItem_blind hn .rbracket .element) .rbracket .elementsClose n
    exact hitems.bind fun es => pure_blind _
  · apply advance_mirrors.bind
    intro _
    apply (skip_blind _).bind
    intro called
    have hitems := listItems_blind (listItem_blind hn .rparen .argument) .rparen .argumentsClose n
    apply Blind.ite
    · exact hitems.bind fun es => pure_blind _
    · exact pure_blind _
  · exact fail_blind (.expected .expression) []

theorem atomOver_blind (hn : Blind nested) (n : Nat) : Blind (atomOver nested n) :=
  (primary_blind hn n).bind fun base => indices_blind hn n base

theorem expressionOver_blind (hn : Blind nested) (n : Nat) : Blind (expressionOver nested n) := by
  apply (climb_blind (atomOver_blind hn n) n precedence).bind
  intro condition
  apply (skip_blind _).bind
  intro asked
  apply Blind.ite
  · apply hn.bind
    intro whenTrue
    apply (expect_blind _ .ternaryColon).bind
    intro _
    exact hn.bind fun whenFalse => pure_blind _
  · exact pure_blind condition

theorem expressionWithin_blind (n : Nat) : Blind (expressionWithin n) := by
  induction n with
  | zero => exact fail_blind (.expected .expression) []
  | succ n ih => exact expressionOver_blind ih (n + 1)

theorem expression_blind : Blind expression := .sized expressionWithin_blind

end Expressions

section Statements

theorem cutStatement_unplaced (depth : Nat) (ts : List Token) :
    cutStatement depth (ts.map unplaced) =
      (cutStatement depth ts).map fun (run, rest) => (run.map unplaced, rest.map unplaced) := by
  fun_induction cutStatement depth ts with
  | case1 => rfl
  | case2 _ t ts ht | case3 _ t ts ht => simp [cutStatement, ht]
  | case4 t ts ht => simp [cutStatement, ht]
  | case5 depth t ts ht hdepth ih => simpa [cutStatement, ht, hdepth] using ih
  | case6 depth t ts ht ih | case7 depth t ts ht ih | case8 depth t ts ht ih
  | case9 depth t ts ht ih =>
    simp only [List.map_cons, cutStatement, unplaced_lexeme, ht, ih, Option.map_map]
    rfl
  | case10 => simp [cutStatement, Function.comp_def, *]

theorem statementTokens_mirrors :
    Mirrors (List.map unplaced) statementTokens statementTokens := by
  intro ends ts
  simp only [statementTokens, cutStatement_unplaced]
  cases cutStatement 0 ts <;> rfl

theorem statementEnd_blind : Blind statementEnd := by
  apply exhausted_blind.bind
  intro done
  exact Blind.ite (pure_blind ()) (fail_blind .unrecognised [])

theorem result_blind : Blind result := by
  apply exhausted_blind.bind
  intro done
  apply Blind.ite
  · exact pure_blind _
  · exact expression_blind.bind fun value => statementEnd_blind.bind fun _ => pure_blind _

theorem declaration_mirrors (left : Expr) (colon : Token) (isMutable : Bool) :
    Mirrors id (declaration left colon isMutable) (declaration left (unplaced colon) isMutable) := by
  unfold declaration
  split
  · apply (identifier_blind .typeName).bind
    intro type
    apply (expect_blind _ .initialiser).bind
    intro _
    exact expression_blind.bind fun value => pure_blind _
  · exact refuse_mirrors colon _ _ id

theorem assignment_mirrors (left : Expr) (sign : Token) :
    Mirrors id (assignment left sign) (assignment left (unplaced sign)) := by
  unfold assignment
  split
  · exact refuse_mirrors sign _ _ id
  · apply expression_blind.bind
    intro right
    split <;> exact pure_blind _

theorem signed_mirrors (left : Expr) (sign : Token) (isMutable : Bool) :
    Mirrors id (signed left sign isMutable) (signed left (unplaced sign) isMutable) := by
  unfold signed
  rw [unplaced_lexeme]
  split
  · exact declaration_mirrors left sign isMutable
  · split
    · exact refuse_mirrors sign _ _ id
    · exact assignment_mirrors left sign
  · split
    · exact refuse_mirrors sign _ _ id
    · exact assignment_mirrors left sign
  · exact refuse_mirrors sign _ _ id

theorem plainStatement_blind (isMutable : Bool) : Blind (plainStatement isMutable) := by
  apply expression_blind.bind
  intro left
  apply Mirrors.bind current_mirrors
  intro t
  cases t with
  | none => exact Blind.ite (fail_blind (.expected .declaredType) []) (pure_blind _)
  | some t =>
    apply advance_mirrors.bind
    intro _
    apply (signed_mirrors left t isMutable).bind
    intro s
    exact statementEnd_blind.bind fun _ => pure_blind s

theorem simpleStatement_blind : Blind simpleStatement := by
  apply (skip_blind _).bind
  intro returns
  apply Blind.ite
  · exact result_blind
  · exact (skip_blind _).bind fun isMutable => plainStatement_blind isMutable

theorem endOf_unplaced (ts : List Token) : Token.endOf (ts.map unplaced) = none := by
  simp [Token.endOf, unplaced]

theorem statement_blind : Blind statement := by
  apply Mirrors.bind statementTokens_mirrors
  intro ts
  have hrun : simpleStatement.run (ts.map unplaced) = outcome id (simpleStatement.run ts) := by
    rw [Parser.run, endOf_unplaced]
    exact simpleStatement_blind _ ts
  rw [hrun]
  cases simpleStatement.run ts with
  | ok s rest => exact pure_blind s
  | error e rest => exact fun _ _ => rfl

end Statements

section Blocks

variable {block : Parser (List Statement)} {item : Parser Statement}

theorem branchOver_blind (hb : Blind block) (n : Nat) : Blind (branchOver block n) := by
  induction n with
  | zero => exact fail_blind (.expected .branchKeyword) []
  | succ n ih =>
    apply (expect_blind _ .branchKeyword).bind
    intro _
    apply expression_blind.bind
    intro condition
    apply hb.bind
    intro body
    apply elseFollows_blind.bind
    intro otherwise
    apply Blind.ite
    · apply skipNewlines_blind.bind
      intro _
      apply advance_mirrors.bind
      intro _
      apply (sees_blind _).bind
      intro again
      apply Blind.ite
      · exact ih.bind fun inner => pure_blind _
      · exact hb.bind fun last => pure_blind _
    · exact pure_blind _

theorem loopOver_blind (hb : Blind block) : Blind (loopOver block) := by
  apply (expect_blind _ .loopKeyword).bind
  intro _
  apply expression_blind.bind
  intro condition
  exact hb.bind fun body => pure_blind _

theorem itemOver_blind (hb : Blind block) (n : Nat) : Blind (itemOver block n) := by
  apply (sees_blind _).bind
  intro branches
  apply Blind.ite
  · exact branchOver_blind hb n
  · exact (sees_blind _).bind fun loops => Blind.ite (loopOver_blind hb) statement_blind

theorem blockItems_blind (hi : Blind item) (n : Nat) : Blind (blockItems item n) := by
  induction n with
  | zero => exact fail_blind (.expected .blockClose) []
  | succ n ih =>
    apply skipNewlines_blind.bind
    intro _
    apply (skip_blind _).bind
    intro closed
    apply Blind.ite
    · exact pure_blind []
    · apply atEnd_blind.bind
      intro ended
      apply Blind.ite
      · exact fail_blind (.expected .blockClose) []
      · exact hi.bind fun s => ih.bind fun ss => pure_blind _

theorem blockWithin_blind (n : Nat) : Blind (blockWithin n) := by
  induction n with
  | zero => exact fail_blind (.expected .blockOpen) []
  | succ n ih =>
    exact (expect_blind _ .blockOpen).bind fun _ => blockItems_blind (itemOver_blind ih n) n

theorem block_blind : Blind Grammar.block := .sized blockWithin_blind

theorem item_blind : Blind Grammar.item := .sized fun n => itemOver_blind block_blind n

end Blocks

section Modules

theorem parameter_blind : Blind parameter := by
  apply (identifier_blind .parameter).bind
  intro name
  apply (expect_blind _ .parameterColon).bind
  intro _
  exact (identifier_blind .parameterType).bind fun type => pure_blind _

theorem parameters_blind : Blind parameters := by
  apply (expect_blind _ .parametersOpen).bind
  intro _
  refine Blind.sized fun n => ?_
  exact listItems_blind parameter_blind .rparen .parametersClose n

theorem resultType_blind : Blind resultType := by
  apply (skip_blind _).bind
  intro typed
  apply Blind.ite
  · exact (identifier_blind .resultType).bind fun type => pure_blind _
  · exact pure_blind none

theorem function_blind : Blind function := by
  apply (identifier_blind .functionName).bind
  intro name
  apply parameters_blind.bind
  intro ps
  exact resultType_blind.bind fun type => block_blind.bind fun body => pure_blind _

theorem importedName_blind : Blind importedName := by
  apply (identifier_blind .importedName).bind
  intro name
  apply (skip_blind _).bind
  intro named
  apply Blind.ite
  · exact (identifier_blind .localName).bind fun localName => pure_blind _
  · exact pure_blind _

theorem importedNames_blind (n : Nat) : Blind (importedNames n) := by
  induction n with
  | zero => exact fail_blind (.expected .importedName) []
  | succ n ih =>
    apply importedName_blind.bind
    intro name
    apply (skip_blind _).bind
    intro more
    exact Blind.ite (ih.bind fun names => pure_blind _) (pure_blind _)

theorem importEntry_blind (n : Nat) : Blind (importEntry n) := by
  apply (importedNames_blind n).bind
  intro names
  apply (skip_blind _).bind
  intro placed
  apply Blind.ite
  · exact (identifier_blind .origin).bind fun origin => pure_blind _
  · exact pure_blind _

theorem importEntries_blind (n : Nat) : Blind (importEntries n) := by
  induction n with
  | zero => exact fail_blind (.expected .importedName) []
  | succ n ih =>
    have more : ∀ entry : List Import, Blind (do return entry ++ (← importEntries n)) :=
      fun entry => ih.bind fun entries => pure_blind _
    apply skipNewlines_blind.bind
    intro _
    apply (skip_blind _).bind
    intro closed
    apply Blind.ite
    · exact pure_blind []
    · apply (importEntry_blind (n + 1)).bind
      intro entry
      apply (skip_blind _).bind
      intro broken
      apply Blind.ite
      · exact more entry
      · apply (sees_blind _).bind
        intro last
        apply Blind.ite
        · exact more entry
        · exact fail_blind (.expected .importEnd) []

theorem imports_blind : Blind imports :=
  (expect_blind _ .importsOpen).bind fun _ => Blind.sized importEntries_blind

theorem contents_blind (n : Nat) (stage : Stage) : Blind (contents n stage) := by
  induction n generalizing stage with
  | zero => exact fail_blind (.expected .moduleEnd) []
  | succ n ih =>
    apply Mirrors.bind current_mirrors
    intro t
    rw [lexeme_unplaced]
    split
    · exact fail_blind (.expected .moduleEnd) []
    · exact advance_mirrors.bind fun _ => ih stage
    · exact advance_mirrors.bind fun _ => pure_blind _
    · apply Blind.ite
      · apply advance_mirrors.bind
        intro _
        apply imports_blind.bind
        intro found
        exact (ih .definitions).bind fun rest => pure_blind _
      · exact fail_blind .misplacedImports []
    · apply Blind.ite
      · exact fail_blind .misplacedFunction []
      · apply advance_mirrors.bind
        intro _
        apply function_blind.bind
        intro f
        exact (ih .definitions).bind fun rest => pure_blind _
    · exact fail_blind (.expected .statement) []
    · exact item_blind.bind fun s => (ih .statements).bind fun rest => pure_blind _

theorem moduleNamed_blind (name : String) : Blind (moduleNamed name) :=
  .sized fun n => (contents_blind n .opening).bind fun _ => pure_blind _

end Modules

end Pasture.Grammar

namespace Pasture

open Lexing

/-- A stream without places spells out the same module, or is rejected in the same way. -/
theorem parseTokens_unplaced (ts : List Token) (name : String) :
    parseTokens (ts.map unplaced) name = (parseTokens ts name).mapError ParseError.unplaced := by
  have hrun : (Grammar.moduleNamed name).run (ts.map unplaced) =
      Grammar.outcome id ((Grammar.moduleNamed name).run ts) := by
    rw [Parser.run, Grammar.endOf_unplaced]
    exact Grammar.moduleNamed_blind name _ ts
  rw [parseTokens, parseTokens, hrun]
  cases (Grammar.moduleNamed name).run ts <;> rfl

end Pasture
