import Pasture.Proofs.Grammar.Balance
import Pasture.Proofs.Grammar.ExpressionRecursion

/-! # The recursion of statements and modules

A simple statement takes a token, though the cut in front of it may keep none: there is no statement
without a token. So every round of a block takes a token, or else it is the last one. The same holds
of the chain of branches, of the names and entries of an import block and of the parts of a module.
-/
namespace Pasture.Grammar

open Pasture.Parser

variable {k m n : Nat} {each each' : Parser Statement} {nested nested' : Parser (List Statement)}

/-! ## Simple statements -/

def cut (depth : Nat) : Parser (List Token) := fun ends ts =>
  match cutStatement depth ts with
  | some (run, rest) => .ok run rest
  | none => .error (.syntactic (.expected .statementEnd) ends none) []

def cutRound (next : Nat → Parser (List Token)) (depth : Nat) : Parser (List Token) := do
  match ← current with
  | none => fail (.expected .statementEnd)
  | some t =>
    match t.lexeme with
    | .symbol .rbrace | .endOfInput => return []
    | .newline =>
      let _ ← advance
      if depth = 0 then return [] else next depth
    | .symbol .lparen | .symbol .lbracket =>
      let _ ← advance
      return t :: (← next (depth + 1))
    | .symbol .rparen | .symbol .rbracket =>
      let _ ← advance
      return t :: (← next (depth - 1))
    | _ =>
      let _ ← advance
      return t :: (← next depth)

theorem cut_advances (depth : Nat) : Advances 0 (cut depth) := by
  refine ⟨fun {ends ts run rest} h => ?_, fun {ends ts e rest} h => ?_⟩
  · simp only [cut] at h
    split at h <;> cases h
    obtain ⟨read, after, rfl, -, -, ⟨t, -, rfl⟩ | ⟨rfl, -⟩⟩ := cutStatement_some ‹_›
    · exact ⟨read ++ [t], by simp, Nat.zero_le _⟩
    · exact ⟨read, rfl, Nat.zero_le _⟩
  · simp only [cut] at h
    split at h <;> cases h
    exact List.nil_suffix

theorem statementTokens_advances : Advances 0 statementTokens := cut_advances 0

theorem cut_eq (depth : Nat) : cut depth = cutRound cut depth := by
  funext ends ts
  cases ts with
  | nil => rfl
  | cons t ts =>
    have kept : ∀ deeper, (match (cutStatement deeper ts).map fun p => (t :: p.1, p.2) with
        | some (run, rest) => .ok run rest
        | none => .error (.syntactic (.expected .statementEnd) ends none) []) =
          (advance >>= fun _ => cut deeper >>= fun run => pure (t :: run) : Parser (List Token))
            ends (t :: ts) := by
      intro deeper
      rw [bind_of_ok (advance_eq_ok.2 rfl), bind_apply, cut]
      cases cutStatement deeper ts <;> rfl
    rw [cutRound, bind_of_ok current_apply, cut, cutStatement]
    cases hl : t.lexeme with
    | newline =>
      simp only [List.head?_cons, hl]
      rw [bind_of_ok (advance_eq_ok.2 rfl)]
      by_cases hdepth : depth = 0
      · rw [if_pos hdepth, if_pos hdepth]
        rfl
      · rw [if_neg hdepth, if_neg hdepth]
        rfl
    | endOfInput =>
      simp only [List.head?_cons, hl]
      rfl
    | symbol b =>
      cases b <;> simp only [List.head?_cons, hl]
      case rbrace => rfl
      all_goals exact kept _
    | _ =>
      simp only [List.head?_cons, hl]
      exact kept depth

theorem cutRound_coincides {next next' : Nat → Parser (List Token)}
    (h : ∀ depth, Coincides 0 (n - 1) (next depth) (next' depth)) (depth : Nat) :
    Coincides 0 n (cutRound next depth) (cutRound next' depth) := by
  have kept : ∀ (t : Token) (deeper : Nat), Coincides 0 n
      (advance >>= fun _ => next deeper >>= fun run => pure (t :: run))
      (advance >>= fun _ => next' deeper >>= fun run => pure (t :: run)) :=
    fun t deeper => (advance_advances.coincides.next fun _ =>
      (h deeper).bind fun run => (pure_advances (t :: run)).coincides).eased
  refine current_advances.coincides.bind fun o => ?_
  cases o with
  | none => exact (fail_advances _ []).coincides
  | some t =>
    cases hl : t.lexeme with
    | newline =>
      simp only [hl]
      exact (advance_advances.coincides.next fun _ =>
        .ite (pure_advances []).coincides (h depth)).eased
    | endOfInput =>
      simp only [hl]
      exact (pure_advances []).coincides
    | symbol b =>
      cases b <;> simp only [hl]
      case rbrace => exact (pure_advances []).coincides
      all_goals exact kept t _
    | _ =>
      simp only [hl]
      exact kept t depth

theorem cut_terminates : Terminates 0 cutRound cut :=
  .of_unfolds cut_advances cut_eq cutRound_coincides

def elseFrom (distance : Nat) : Parser Bool := fun _ ts =>
  .ok (((ts.drop distance).dropWhile Token.isNewline).head?.any fun t =>
    t.kind = .keyword .otherwise) ts

def elseRound (next : Nat → Parser Bool) (distance : Nat) : Parser Bool := fun ends ts =>
  match ts[distance]? with
  | none => .ok false ts
  | some t => if t.isNewline then next (distance + 1) ends ts
      else .ok (t.kind = .keyword .otherwise) ts

theorem elseFrom_advances (distance : Nat) : Advances 0 (elseFrom distance) := look_advances _

theorem elseFrom_past {distance : Nat} {ends : Option Span} {ts : List Token}
    (h : ts.length ≤ distance) : elseFrom distance ends ts = .ok false ts := by
  simp [elseFrom, List.drop_eq_nil_of_le h]

theorem elseFrom_eq (distance : Nat) : elseFrom distance = elseRound elseFrom distance := by
  funext ends ts
  by_cases h : distance < ts.length
  · simp only [elseRound, List.getElem?_eq_getElem h, elseFrom, List.drop_eq_getElem_cons h,
      List.dropWhile_cons]
    split <;> rfl
  · rw [elseFrom_past (Nat.le_of_not_lt h), elseRound, List.getElem?_eq_none (Nat.le_of_not_lt h)]

/-- No token is taken, but the distance grows. -/
theorem elseFrom_terminates : Terminates 0 elseRound elseFrom := by
  have all : ∀ base k {distance ends ts}, ts.length ≤ distance + k →
      elseRound^[k + 1] base distance ends ts = elseFrom distance ends ts := by
    intro base k
    induction k with
    | zero =>
      intro distance ends ts h
      have hpast : ts.length ≤ distance := h
      rw [elseFrom_past hpast]
      simp [elseRound, List.getElem?_eq_none hpast]
    | succ k ih =>
      intro distance ends ts h
      rw [Function.iterate_succ_apply', elseFrom_eq]
      unfold elseRound
      split
      · rfl
      · split
        · exact ih (by omega)
        · rfl
  refine ⟨elseFrom_advances, elseFrom_eq, fun base {k distance ends ts} hk => ?_⟩
  obtain ⟨j, rfl⟩ := Nat.exists_eq_succ_of_ne_zero (Nat.ne_of_gt (Nat.zero_lt_of_lt hk))
  exact all base j (by omega)

theorem statement_advances : Advances 1 statement := by
  refine ⟨fun {ends ts s rest} h => ?_, fun {ends ts e rest} h => ?_⟩
  · obtain ⟨read, hts, hsolid, -⟩ := statement_behind h
    exact ⟨read, hts, Nat.le_trans hsolid (solid_length_le read)⟩
  · rw [statement, bind_apply] at h
    cases hcut : statementTokens ends ts with
    | error e' left =>
      rw [hcut] at h
      cases h
      exact statementTokens_advances.leaves hcut
    | ok run left =>
      obtain ⟨read, rfl, -⟩ := statementTokens_advances.takes hcut
      -- the run has a stream of its own, so that its fault does not move this one
      obtain rfl : rest = left := by
        cases hrun : simpleStatement.run run with
        | ok s stop =>
          simp only [hcut, hrun] at h
          cases h
        | error e' stop =>
          simp only [hcut, hrun] at h
          cases h
          rfl
      exact List.suffix_append read rest

/-! ## Blocks -/

def branchRound (nested : Parser (List Statement)) (next : Unit → Parser Statement) (_ : Unit) :
    Parser Statement := do
  expect (.keyword .branch) .branchKeyword
  let condition ← expression
  let body ← nested
  if ← elseFollows then
    skipNewlines
    let _ ← advance
    if ← sees (.keyword .branch) then
      let inner ← next ()
      return .branch condition body (some [inner])
    else return .branch condition body (some (← nested))
  else return .branch condition body none

def itemRound (each : Parser Statement) (next : Unit → Parser (List Statement)) (_ : Unit) :
    Parser (List Statement) := do
  skipNewlines
  if ← skip (.symbol .rbrace) then return []
  else if ← atEnd then fail (.expected .blockClose)
  else
    let s ← each
    return s :: (← next ())

theorem branchOver_succ (nested : Parser (List Statement)) (n : Nat) :
    branchOver nested (n + 1) = branchRound nested (fun _ => branchOver nested n) () := rfl

theorem blockItems_succ (each : Parser Statement) (n : Nat) :
    blockItems each (n + 1) = itemRound each (fun _ => blockItems each n) () := rfl

theorem branchOver_empty (nested : Parser (List Statement)) (n : Nat) (ends : Option Span) :
    branchOver nested n ends [] = .error (.syntactic (.expected .branchKeyword) ends none) [] := by
  cases n <;> rfl

theorem blockItems_empty (each : Parser Statement) (n : Nat) (ends : Option Span) :
    blockItems each n ends [] = .error (.syntactic (.expected .blockClose) ends none) [] := by
  cases n <;> rfl

theorem branchRound_coincides {next next' : Unit → Parser Statement}
    (hb : Coincides 1 (n - 1) nested nested') (h : ∀ i, Coincides 1 (n - 1) (next i) (next' i))
    (i : Unit) : Coincides 1 n (branchRound nested next i) (branchRound nested' next' i) := by
  refine (expect_advances _ .branchKeyword).coincides.next fun _ => ?_
  refine expression_advances.eased.coincides.bind fun condition => hb.eased.bind fun body => ?_
  refine elseFollows_advances.coincides.bind fun more => .ite ?_ (pure_advances _).coincides
  refine skipNewlines_advances.coincides.bind fun _ => ?_
  refine advance_advances.eased.coincides.bind fun _ => ?_
  refine (sees_advances _).coincides.bind fun chained => .ite ?_ ?_
  · exact (h ()).eased.bind fun inner => (pure_advances _).coincides
  · exact hb.eased.bind fun other => (pure_advances _).coincides

theorem branchOver_coincides (hb : Coincides 1 (n - 1) nested nested') (hk : n ≤ k + 1)
    (hm : n ≤ m + 1) : Coincides 1 n (branchOver nested k) (branchOver nested' m) := by
  refine Coincides.rounds (P := fun k _ => branchOver nested k)
    (Q := fun m _ => branchOver nested' m) (fun _ => fail_advances _ [])
    (fun _ k m _ ends => ?_) (fun hj _ _ ih _ => ?_) hk hm ()
  · rw [branchOver_empty, branchOver_empty]
  · rw [branchOver_succ, branchOver_succ]
    exact branchRound_coincides (hb.mono (Nat.sub_le_sub_right hj 1)) ih ()

theorem loopOver_coincides (hb : Coincides 1 (n - 1) nested nested') :
    Coincides 1 n (loopOver nested) (loopOver nested') := by
  refine (expect_advances _ .loopKeyword).coincides.next fun _ => ?_
  refine expression_advances.eased.coincides.bind fun condition => ?_
  exact hb.eased.bind fun body => (pure_advances _).coincides

theorem itemOver_coincides (hb : Coincides 1 (n - 1) nested nested') (hk : n ≤ k + 1)
    (hm : n ≤ m + 1) : Coincides 1 n (itemOver nested k) (itemOver nested' m) :=
  (sees_advances _).coincides.bind fun _ => .ite (branchOver_coincides hb hk hm) <|
    (sees_advances _).coincides.bind fun _ =>
      .ite (loopOver_coincides hb) statement_advances.coincides

theorem itemRound_coincides {next next' : Unit → Parser (List Statement)}
    (hi : Coincides 1 n each each') (h : ∀ i, Coincides 1 (n - 1) (next i) (next' i)) (i : Unit) :
    Coincides 1 n (itemRound each next i) (itemRound each' next' i) := by
  refine skipNewlines_advances.coincides.bind fun _ => skip_next (pure_advances []).coincides ?_
  refine atEnd_advances.coincides.bind fun ended => .ite (fail_advances _ []).coincides ?_
  exact hi.next fun s => (h ()).eased.bind fun body => (pure_advances _).coincides

theorem blockItems_coincides (hi : Coincides 1 n each each') (hk : n ≤ k + 1) (hm : n ≤ m + 1) :
    Coincides 1 n (blockItems each k) (blockItems each' m) := by
  refine Coincides.rounds (P := fun k _ => blockItems each k) (Q := fun m _ => blockItems each' m)
    (fun _ => fail_advances _ []) (fun _ k m _ ends => ?_) (fun hj _ _ ih _ => ?_) hk hm ()
  · rw [blockItems_empty, blockItems_empty]
  · rw [blockItems_succ, blockItems_succ]
    exact itemRound_coincides (hi.mono hj) ih ()

def blockOver (items : Parser (List Statement)) : Parser (List Statement) := do
  expect (.symbol .lbrace) .blockOpen
  items

theorem blockOver_coincides {items items' : Parser (List Statement)}
    (h : Coincides 1 (n - 1) items items') : Coincides 1 n (blockOver items) (blockOver items') :=
  (expect_advances _ .blockOpen).coincides.next fun _ => h.eased

theorem blockWithin_succ (n : Nat) :
    blockWithin (n + 1) = blockOver (blockItems (itemOver (blockWithin n) n) n) := rfl

theorem blockWithin_empty (n : Nat) (ends : Option Span) :
    blockWithin n ends [] = .error (.syntactic (.expected .blockOpen) ends none) [] := by
  cases n <;> rfl

theorem blockWithin_coincides (hk : n ≤ k + 1) (hm : n ≤ m + 1) :
    Coincides 1 n (blockWithin k) (blockWithin m) := by
  refine Coincides.rounds (P := fun k _ => blockWithin k) (Q := fun m _ => blockWithin m)
    (fun _ => fail_advances _ []) (fun _ k m _ ends => ?_) (fun {j k m} _ hk hm ih _ => ?_) hk hm ()
  · rw [blockWithin_empty, blockWithin_empty]
  · rw [blockWithin_succ, blockWithin_succ]
    have hitem : Coincides 1 (j - 1) (itemOver (blockWithin k) k) (itemOver (blockWithin m) m) :=
      itemOver_coincides ((ih ()).mono (Nat.sub_le (j - 1) 1)) (by omega) (by omega)
    exact blockOver_coincides (blockItems_coincides hitem (by omega) (by omega))

def itemsOf (each : Parser Statement) : Parser (List Statement) := sized (blockItems each)

def branchAround (nested : Parser (List Statement)) : Parser Statement := sized (branchOver nested)

def itemAround (nested : Parser (List Statement)) : Parser Statement := sized (itemOver nested)

def blockAround (nested : Parser (List Statement)) : Parser (List Statement) :=
  blockOver (itemsOf (itemAround nested))

theorem blockItems_bounded (hi : Coincides 1 n each each') (hk : n ≤ k + 1) :
    Coincides 1 n (blockItems each k) (itemsOf each') :=
  .sized_right fun hj hm => blockItems_coincides (hi.mono hj) (Nat.le_trans hj hk) hm

theorem itemOver_bounded (hb : Coincides 1 (n - 1) nested nested') (hk : n ≤ k + 1) :
    Coincides 1 n (itemOver nested k) (itemAround nested') :=
  .sized_right fun hj hm =>
    itemOver_coincides (hb.mono (Nat.sub_le_sub_right hj 1)) (Nat.le_trans hj hk) hm

theorem blockWithin_bounded (hk : n ≤ k + 1) : Coincides 1 n (blockWithin k) block :=
  .sized_right fun hj hm => blockWithin_coincides (Nat.le_trans hj hk) hm

theorem block_advances : Advances 1 block :=
  (blockWithin_bounded (n := 0) (k := 0) (Nat.zero_le _)).toAdvances

theorem block_eq : block = blockAround block := by
  refine Coincides.sized_eq blockWithin_coincides fun {n k} hk => ?_
  have hitem : Coincides 1 (n - 1) (itemOver (blockWithin k) k) (itemAround block) :=
    itemOver_bounded (blockWithin_bounded (by omega)) (by omega)
  exact blockOver_coincides (blockItems_bounded hitem (by omega))

theorem blockAround_coincides (hb : Coincides 1 (n - 1) nested nested') :
    Coincides 1 n (blockAround nested) (blockAround nested') := by
  have hitem : Coincides 1 (n - 1) (itemAround nested) (itemAround nested') :=
    .sized_left fun hj hk =>
      itemOver_bounded (hb.mono (Nat.le_trans (Nat.sub_le _ 1) hj)) hk
  exact blockOver_coincides (.sized_left fun hj hk => blockItems_bounded (hitem.mono hj) hk)

theorem branchAround_terminates (hb : Advances 1 nested) :
    Terminates 1 (branchRound nested) fun _ => branchAround nested :=
  .of_rounds (P := fun k _ => branchOver nested k) (fun k _ => branchOver_succ nested k)
    (fun hk hm _ => branchOver_coincides hb.coincides hk hm)
    (fun h i => branchRound_coincides hb.coincides h i)

theorem itemsOf_terminates (hi : Advances 1 each) :
    Terminates 1 (itemRound each) fun _ => itemsOf each :=
  .of_rounds (P := fun k _ => blockItems each k) (fun k _ => blockItems_succ each k)
    (fun hk hm _ => blockItems_coincides hi.coincides hk hm)
    (fun h i => itemRound_coincides hi.coincides h i)

theorem block_terminates :
    Terminates 1 (fun next (_ : Unit) => blockAround (next ())) fun _ => block :=
  .of_unfolds (fun _ => block_advances) (fun _ => block_eq) fun h _ => blockAround_coincides (h ())

theorem branch_advances : Advances 1 branch :=
  (branchAround_terminates block_advances).advances ()

theorem loop_advances : Advances 1 loop :=
  (loopOver_coincides (n := 0) block_advances.coincides).toAdvances

theorem item_advances : Advances 1 item :=
  (itemOver_bounded (n := 0) (k := 0) block_advances.coincides (Nat.zero_le _)).toAdvances

/-! ## Definitions -/

theorem parameter_advances : Advances 1 parameter :=
  (identifier_advances _).andThen fun _ => (expect_advances _ .parameterColon).eased.bind fun _ =>
    (identifier_advances _).eased.bind fun _ => pure_advances _

theorem parameters_eq : parameters = (do
    expect (.symbol .lparen) .parametersOpen
    listOver .rparen (commaItems .rparen .parametersClose parameter)) := by
  rw [← sized_listItems .rparen .parametersClose parameter_advances]
  rfl

theorem parameters_advances : Advances 1 parameters := by
  have hitems := commaItems_terminates .rparen .parametersClose parameter_advances
  rw [parameters_eq]
  refine (expect_advances _ .parametersOpen).andThen fun _ => ?_
  exact (listOver_coincides (n := 0) (hitems.advances ()).coincides).toAdvances

theorem resultType_advances : Advances 0 resultType :=
  (skip_advances _).bind fun _ =>
    .ite ((identifier_advances _).eased.bind fun _ => pure_advances _) (pure_advances none)

theorem function_advances : Advances 1 function :=
  (identifier_advances _).andThen fun _ => parameters_advances.eased.bind fun _ =>
    resultType_advances.bind fun _ => block_advances.eased.bind fun _ => pure_advances _

/-! ## Import blocks -/

def nameRound (next : Unit → Parser (List (Identifier × Identifier))) (_ : Unit) :
    Parser (List (Identifier × Identifier)) := do
  let name ← importedName
  if ← skip (.symbol .comma) then return name :: (← next ())
  else return [name]

def entryOver (names : Parser (List (Identifier × Identifier))) : Parser (List Import) := do
  let names ← names
  if ← skip (.keyword .origin) then
    let origin ← identifier .origin
    return names.map fun (name, localName) => ⟨name, localName, origin⟩
  else return names.map fun (name, localName) => ⟨name, localName, name⟩

def entryRound (entry : Parser (List Import)) (next : Unit → Parser (List Import)) (_ : Unit) :
    Parser (List Import) := do
  skipNewlines
  if ← skip (.symbol .rbrace) then return []
  else
    let entry ← entry
    if ← skip .newline then return entry ++ (← next ())
    else if ← sees (.symbol .rbrace) then return entry ++ (← next ())
    else fail (.expected .importEnd)

theorem importedNames_succ (n : Nat) :
    importedNames (n + 1) = nameRound (fun _ => importedNames n) () := rfl

theorem importEntries_succ (n : Nat) :
    importEntries (n + 1) = entryRound (importEntry (n + 1)) (fun _ => importEntries n) () := rfl

theorem importedNames_empty (n : Nat) (ends : Option Span) :
    importedNames n ends [] = .error (.syntactic (.expected .importedName) ends none) [] := by
  cases n <;> rfl

theorem importEntries_empty (n : Nat) (ends : Option Span) :
    importEntries n ends [] = .error (.syntactic (.expected .importedName) ends none) [] := by
  cases n <;> rfl

theorem importedName_advances : Advances 1 importedName :=
  (identifier_advances _).andThen fun _ => (skip_advances _).bind fun _ =>
    .ite ((identifier_advances _).eased.bind fun _ => pure_advances _) (pure_advances _)

theorem nameRound_coincides {next next' : Unit → Parser (List (Identifier × Identifier))}
    (h : ∀ i, Coincides 1 (n - 1) (next i) (next' i)) (i : Unit) :
    Coincides 1 n (nameRound next i) (nameRound next' i) :=
  importedName_advances.coincides.next fun name => (skip_advances _).coincides.bind fun _ =>
    .ite ((h ()).eased.bind fun _ => (pure_advances _).coincides) (pure_advances [name]).coincides

theorem importedNames_coincides (hk : n ≤ k + 1) (hm : n ≤ m + 1) :
    Coincides 1 n (importedNames k) (importedNames m) := by
  refine Coincides.rounds (P := fun k _ => importedNames k) (Q := fun m _ => importedNames m)
    (fun _ => fail_advances _ []) (fun _ k m _ ends => ?_) (fun _ _ _ ih _ => ?_) hk hm ()
  · rw [importedNames_empty, importedNames_empty]
  · rw [importedNames_succ, importedNames_succ]
    exact nameRound_coincides ih ()

theorem entryOver_coincides {names names' : Parser (List (Identifier × Identifier))}
    (h : Coincides 1 n names names') : Coincides 1 n (entryOver names) (entryOver names') := by
  refine h.next fun names => (skip_advances _).coincides.bind fun _ => .ite ?_ ?_
  · exact ((identifier_advances _).eased.bind fun _ => pure_advances _).coincides
  · exact (pure_advances _).coincides

theorem entryRound_coincides {entry entry' : Parser (List Import)}
    {next next' : Unit → Parser (List Import)} (he : Coincides 1 n entry entry')
    (h : ∀ i, Coincides 1 (n - 1) (next i) (next' i)) (i : Unit) :
    Coincides 1 n (entryRound entry next i) (entryRound entry' next' i) := by
  refine skipNewlines_advances.coincides.bind fun _ => skip_next (pure_advances []).coincides ?_
  refine he.next fun found => ?_
  have hmore := (h ()).eased.bind fun more => (pure_advances (found ++ more)).coincides
  refine (skip_advances _).coincides.bind fun _ => .ite hmore ?_
  exact (sees_advances _).coincides.bind fun _ => .ite hmore (fail_advances _ []).coincides

theorem importEntries_coincides (hk : n ≤ k + 1) (hm : n ≤ m + 1) :
    Coincides 1 n (importEntries k) (importEntries m) := by
  refine Coincides.rounds (P := fun k _ => importEntries k) (Q := fun m _ => importEntries m)
    (fun _ => fail_advances _ []) (fun _ k m _ ends => ?_) (fun _ hk hm ih _ => ?_) hk hm ()
  · rw [importEntries_empty, importEntries_empty]
  · rw [importEntries_succ, importEntries_succ]
    exact entryRound_coincides (entryOver_coincides (importedNames_coincides hk hm)) ih ()

def nameItems : Parser (List (Identifier × Identifier)) := sized importedNames

def entryItems : Parser (List Import) := sized importEntries

theorem nameItems_terminates : Terminates 1 nameRound fun _ => nameItems :=
  .of_rounds (P := fun k _ => importedNames k) (fun k _ => importedNames_succ k)
    (fun hk hm _ => importedNames_coincides hk hm) (fun h i => nameRound_coincides h i)

theorem importEntries_bounded (hk : n ≤ k + 1) : Coincides 1 n (importEntries k) entryItems :=
  .sized_right fun hj hm => importEntries_coincides (Nat.le_trans hj hk) hm

theorem importEntry_bounded (hk : n ≤ k + 1) :
    Coincides 1 n (importEntry k) (entryOver nameItems) :=
  entryOver_coincides (.sized_right fun hj hm => importedNames_coincides (Nat.le_trans hj hk) hm)

theorem entryItems_eq : entryItems = entryRound (entryOver nameItems) (fun _ => entryItems) () :=
  Coincides.sized_eq importEntries_coincides fun hk =>
    entryRound_coincides (importEntry_bounded (Nat.le_succ_of_le hk))
      (fun _ => importEntries_bounded (Nat.le_trans (Nat.sub_le _ 1) hk)) ()

theorem entryItems_terminates :
    Terminates 1 (entryRound (entryOver nameItems)) fun _ => entryItems := by
  have hnames : Advances 1 nameItems := nameItems_terminates.advances ()
  exact .of_unfolds (fun _ => (importEntries_bounded (n := 0) (k := 0) (Nat.zero_le _)).toAdvances)
    (fun _ => entryItems_eq) fun h => entryRound_coincides (entryOver_coincides hnames.coincides) h

theorem imports_advances : Advances 1 imports :=
  (expect_advances _ .importsOpen).andThen fun _ => (entryItems_terminates.advances ()).eased

/-! ## Modules -/

def contentsRound (next : Stage → Parser Contents) (stage : Stage) : Parser Contents := do
  match (← current).map Token.lexeme with
  | none => fail (.expected .moduleEnd)
  | some .newline =>
    let _ ← advance
    next stage
  | some .endOfInput =>
    let _ ← advance
    return {}
  | some (.keyword .importing) =>
    if stage = .opening then
      let _ ← advance
      let found ← imports
      let rest ← next .definitions
      return { rest with imports := found ++ rest.imports }
    else fail .misplacedImports
  | some (.keyword .function) =>
    if stage = .statements then fail .misplacedFunction
    else
      let _ ← advance
      let f ← function
      let rest ← next .definitions
      return { rest with functions := f :: rest.functions }
  | some (.symbol .rbrace) => fail (.expected .statement)
  | some _ =>
    let s ← item
    let rest ← next .statements
    return { rest with statements := s :: rest.statements }

theorem contents_succ (n : Nat) (stage : Stage) :
    contents (n + 1) stage = contentsRound (contents n) stage := rfl

theorem contents_empty (n : Nat) (stage : Stage) (ends : Option Span) :
    contents n stage ends [] = .error (.syntactic (.expected .moduleEnd) ends none) [] := by
  cases n <;> rfl

theorem contentsRound_coincides {next next' : Stage → Parser Contents}
    (h : ∀ stage, Coincides 1 (n - 1) (next stage) (next' stage)) (stage : Stage) :
    Coincides 1 n (contentsRound next stage) (contentsRound next' stage) := by
  have refused : ∀ complaint, Coincides 1 n (fail complaint : Parser Contents) (fail complaint) :=
    fun complaint => (fail_advances complaint []).coincides
  have onward : ∀ stage (f : Contents → Contents), Coincides 0 (n - 1)
      (next stage >>= fun rest => pure (f rest)) (next' stage >>= fun rest => pure (f rest)) :=
    fun stage f => (h stage).eased.bind fun rest => (pure_advances (f rest)).coincides
  have hother : Coincides 1 n
      (item >>= fun s => next .statements >>= fun rest =>
        pure { rest with statements := s :: rest.statements })
      (item >>= fun s => next' .statements >>= fun rest =>
        pure { rest with statements := s :: rest.statements }) :=
    item_advances.coincides.next fun s => onward _ _
  refine current_advances.coincides.bind fun t => ?_
  cases t.map Token.lexeme with
  | none => exact refused _
  | some l =>
    cases l with
    | newline => exact advance_advances.coincides.next fun _ => (h stage).eased
    | endOfInput => exact (advance_advances.andThen fun _ => pure_advances _).coincides
    | keyword w =>
      cases w with
      | importing =>
        refine .ite ?_ (refused _)
        exact advance_advances.coincides.next fun _ =>
          imports_advances.eased.coincides.bind fun found => onward _ _
      | function =>
        refine .ite (refused _) ?_
        exact advance_advances.coincides.next fun _ =>
          function_advances.eased.coincides.bind fun f => onward _ _
      | _ => exact hother
    | symbol b =>
      cases b with
      | rbrace => exact refused _
      | _ => exact hother
    | _ => exact hother

theorem contents_coincides (hk : n ≤ k + 1) (hm : n ≤ m + 1) (stage : Stage) :
    Coincides 1 n (contents k stage) (contents m stage) := by
  refine Coincides.rounds (P := contents) (Q := contents)
    (fun _ => fail_advances _ []) (fun _ k m stage ends => ?_) (fun _ _ _ ih stage => ?_)
    hk hm stage
  · rw [contents_empty, contents_empty]
  · rw [contents_succ, contents_succ]
    exact contentsRound_coincides ih stage

def partsFrom (stage : Stage) : Parser Contents := sized (contents · stage)

theorem partsFrom_terminates : Terminates 1 contentsRound partsFrom :=
  .of_rounds contents_succ (fun hk hm stage => contents_coincides hk hm stage)
    (fun h stage => contentsRound_coincides h stage)

theorem moduleNamed_eq (name : String) : moduleNamed name = (do
    let c ← partsFrom .opening
    return {
      name := .simple name
      imports := c.imports
      functions := c.functions
      statements := c.statements }) := rfl

theorem moduleNamed_advances (name : String) : Advances 1 (moduleNamed name) := by
  rw [moduleNamed_eq]
  exact (partsFrom_terminates.advances .opening).andThen fun c => pure_advances _

/-! ## Every loop and recursion ends -/

/-- None of the loops and recursions of the grammar goes on for ever. The rows of an expression come
down to the atoms without a token, but they come to an end, and an atom takes a token. -/
structure GrammarTerminates : Prop where
  newlines : Terminates 0 newlineRound fun _ => skipNewlines
  rows : ∀ row rows, level atom (row :: rows) =
    match row.fixity with
    | .left => level atom rows >>= leftRow row.operators (level atom rows)
    | .right => rightRow row.operators (level atom rows)
    | .pre => prefixRow row.operators (level atom rows)
  leftRows : ∀ ops rows,
    Terminates 0 (leftRound ops (level atom rows)) (leftRow ops (level atom rows))
  rightRows : ∀ ops rows,
    Terminates 1 (rightRound ops (level atom rows)) fun _ => rightRow ops (level atom rows)
  prefixRows : ∀ ops rows,
    Terminates 1 (prefixRound ops (level atom rows)) fun _ => prefixRow ops (level atom rows)
  items : ∀ close closed what, Terminates 1
    (commaRound close closed (listItem expression close what))
    fun _ => commaItems close closed (listItem expression close what)
  atoms : atom = atomAround expression
  indices : Terminates 0 (indexRound expression) (indexed expression)
  expressions : Terminates 1 (fun next (_ : Unit) => expressionAround (next ())) fun _ => expression
  cuts : Terminates 0 cutRound cut
  wholeCut : statementTokens = cut 0
  wholeScan : elseFollows = elseFrom 0
  scans : Terminates 0 elseRound elseFrom
  branches : Terminates 1 (branchRound block) fun _ => branch
  statements : Terminates 1 (itemRound item) fun _ => itemsOf item
  blocks : Terminates 1 (fun next (_ : Unit) => blockAround (next ())) fun _ => block
  parameters : Terminates 1 (commaRound .rparen .parametersClose parameter)
    fun _ => commaItems .rparen .parametersClose parameter
  names : Terminates 1 nameRound fun _ => nameItems
  entries : Terminates 1 (entryRound (entryOver nameItems)) fun _ => entryItems
  contents : Terminates 1 contentsRound partsFrom

theorem grammarTerminates : GrammarTerminates where
  newlines := skipNewlines_terminates
  rows row rows := level_cons atom_advances row rows
  leftRows ops rows := leftRow_terminates ops (level_advances atom_advances rows)
  rightRows ops rows := rightRow_terminates ops (level_advances atom_advances rows)
  prefixRows ops rows := prefixRow_terminates ops (level_advances atom_advances rows)
  items close closed what := commaItems_terminates close closed
    (listItem_coincides (n := 0) expression_advances.coincides close what).toAdvances
  atoms := atom_eq
  indices := indexed_terminates expression_advances
  expressions := expression_terminates
  cuts := cut_terminates
  wholeCut := rfl
  wholeScan := rfl
  scans := elseFrom_terminates
  branches := branchAround_terminates block_advances
  statements := itemsOf_terminates item_advances
  blocks := block_terminates
  parameters := commaItems_terminates .rparen .parametersClose parameter_advances
  names := nameItems_terminates
  entries := entryItems_terminates
  contents := partsFrom_terminates

end Pasture.Grammar
