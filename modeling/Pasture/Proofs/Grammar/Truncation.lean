import Pasture.Proofs.Grammar.Follows
import Pasture.Proofs.Grammar.StatementCut

/-! # Modules that are cut off

If a stream is read as a module, every shorter front of what was read is refused for want of tokens.
-/
namespace Pasture.Grammar

open Pasture.Parser

variable {m n k : Nat} {ends : Option Span} {ts run rest : List Token}

section Statements

/-- What is cut out of a front is cut out of the whole stream. -/
theorem cutStatement_append {depth : Nat} (h : cutStatement depth ts = some (run, rest))
    (cut : List Token) : cutStatement depth (ts ++ cut) = some (run, rest ++ cut) := by
  rw [cutStatement_eq_some] at h ⊢
  induction h with
  | line hnew => exact .line hnew
  | halt hend => exact .halt hend
  | «break» hnew hdepth _ ih => exact .break hnew hdepth ih
  | keep hkept _ ih => exact .keep hkept ih

theorem statement_eq_ok {s : Statement} :
    statement ends ts = .ok s rest ↔
      ∃ run left, cutStatement 0 ts = some (run, rest) ∧ simpleStatement.run run = .ok s left := by
  rw [statement, bind_eq_ok]
  unfold statementTokens
  constructor
  · rintro ⟨run, mid, htokens, hsimple⟩
    cases hcut : cutStatement 0 ts with
    | none =>
      rw [hcut] at htokens
      cases htokens
    | some p =>
      rw [hcut] at htokens
      cases htokens
      cases hrun : simpleStatement.run p.1 with
      | ok s' left =>
        rw [hrun] at hsimple
        cases hsimple
        exact ⟨p.1, left, rfl, hrun⟩
      | error e left =>
        rw [hrun] at hsimple
        cases hsimple
  · rintro ⟨run, left, hcut, hrun⟩
    refine ⟨run, rest, by rw [hcut], ?_⟩
    rw [hrun]
    rfl

/-- There is no statement without a token. -/
theorem cutStatement_takes (hrun : run ≠ []) (h : cutStatement 0 ts = some (run, rest)) :
    ∃ read, ts = read ++ rest ∧ 1 ≤ read.length := by
  obtain ⟨read, after, rfl, rfl, -, hend⟩ := cutStatement_some h
  rcases hend with ⟨t, -, rfl⟩ | ⟨rfl, -⟩
  · exact ⟨read ++ [t], by simp, by simp⟩
  · refine ⟨read, rfl, List.length_pos_iff.2 ?_⟩
    rintro rfl
    exact hrun rfl

/-- A front that ends in the middle of a statement has no end for it. -/
theorem statement_follows : Tracks 1 n statement statement := by
  have hnone : ∀ {ends ts}, cutStatement 0 ts = none → Spends AtEmpty (statement ends ts) := by
    intro ends ts hcut
    have htokens : statementTokens ends ts =
        .error (.syntactic (.expected .statementEnd) ends none) [] := by
      simp [statementTokens, hcut]
    rw [statement, bind_apply, htokens]
    exact starved_syntactic _ ends []
  refine ⟨fun {ends ts s rest} h => ?_, fun {ends ts} _ hts => ?_,
    fun {ends ends' ts cut s rest} _ h => ?_⟩
  · obtain ⟨run, left, hcut, hrun⟩ := statement_eq_ok.1 h
    refine cutStatement_takes ?_ hcut
    rintro rfl
    cases hrun
  · subst hts
    exact hnone rfl
  · cases hcut : cutStatement 0 ts with
    | none => exact .inl (hnone hcut)
    | some p =>
      obtain ⟨run, left, hwhole, hrun⟩ := statement_eq_ok.1 h
      rw [cutStatement_append hcut cut] at hwhole
      cases hwhole
      exact .inr ⟨p.2, statement_eq_ok.2 ⟨p.1, left, hcut, hrun⟩, rfl⟩

/-- The line breaks at the end of the front may be followed by `else`. -/
theorem elseFollows_follows : Follows 0 n AtEmpty AtBreaks elseFollows elseFollows := by
  refine ⟨?_, fun _ hts => hts.atBreaks, ?_⟩
  · rintro ends ts _ _ ⟨⟩
    exact ⟨[], rfl, Nat.le_refl 0⟩
  · rintro ends ends' ts cut _ _ _ ⟨⟩
    cases hdrop : ts.dropWhile Token.isNewline with
    | nil =>
      refine .inl fun t ht => Token.isNewline_iff.1 ?_
      exact List.dropWhile_eq_nil_iff.1 hdrop t ht
    | cons t left =>
      refine .inr ⟨ts, ?_, rfl⟩
      rw [List.dropWhile_append, hdrop, elseFollows, hdrop]
      rfl

variable {block block' : Parser (List Statement)}

theorem loopOver_follows (hb : Tracks 0 (n - 1) block block') :
    Tracks 1 n (loopOver block) (loopOver block') :=
  (expect_follows _ .loopKeyword).next fun _ => expression_follows.bind fun _ =>
    hb.bind fun _ => pure_follows _

/-- A front that ends behind a block leaves line breaks that `else` might have followed. -/
theorem branchOver_follows (hb : Tracks 0 (n - 1) block block') (hm : n ≤ m) (hk : m ≤ k) :
    Follows 1 n AtEmpty AtBreaks (branchOver block k) (branchOver block' m) := by
  induction m generalizing n k with
  | zero =>
    obtain rfl := Nat.le_zero.1 hm
    exact (fail_follows (.expected .branchKeyword) []).at_zero rfl
  | succ m ih =>
    obtain ⟨k, rfl⟩ : ∃ j, k = j + 1 := ⟨k - 1, by omega⟩
    refine (expect_follows _ .branchKeyword).next fun _ => ?_
    refine expression_follows.bind fun condition => ?_
    refine hb.bind fun body => elseFollows_follows.bind fun otherwise => .ite ?_ (pure_follows _)
    refine skipNewlines_follows.bind fun _ =>
      (advance_follows.next fun _ => (sees_follows _).bind fun chained => .ite ?_ ?_).eased
    · have hless := hb.mono (Nat.sub_le (n - 1) 1)
      have hinner := ih (n := n - 1) (k := k) hless (by omega) (by omega)
      exact (hinner.mono (Nat.sub_le (n - 1) 1)).eased.bind fun inner => pure_follows _
    · refine ((hb.mono ?_).bind fun other => pure_follows _).weaken id AtEmpty.atBreaks
      omega

theorem itemOver_follows (hb : Tracks 0 (n - 1) block block') (hm : n ≤ m) (hk : m ≤ k) :
    Follows 1 n AtEmpty AtBreaks (itemOver block k) (itemOver block' m) := by
  refine (sees_follows _).bind fun branches => .ite (branchOver_follows hb hm hk) ?_
  refine (sees_follows _).bind fun loops => .ite ?_ ?_
  · exact (loopOver_follows hb).weaken id AtEmpty.atBreaks
  · exact statement_follows.weaken id AtEmpty.atBreaks

theorem blockItems_follows {item item' : Parser Statement}
    (hi : Follows 1 n AtEmpty AtBreaks item item') (hm : n ≤ m) (hk : m ≤ k) :
    Follows 0 n AtBreaks AtEmpty (blockItems item k) (blockItems item' m) := by
  induction m generalizing n k with
  | zero =>
    obtain rfl := Nat.le_zero.1 hm
    exact (fail_follows (.expected .blockClose) []).at_zero rfl
  | succ m ih =>
    obtain ⟨k, rfl⟩ : ∃ j, k = j + 1 := ⟨k - 1, by omega⟩
    refine skipNewlines_follows.bind fun _ => (skip_follows _).bind fun closed => ?_
    refine .ite (pure_follows []) (atEnd_follows.bind fun ended => ?_)
    refine .ite (fail_follows (.expected .blockClose) []) (hi.next fun s => ?_).eased
    have hless := hi.mono (Nat.sub_le n 1)
    exact (ih hless (by omega) (by omega)).bind fun ss => pure_follows _

theorem blockWithin_follows (hm : n ≤ m) (hk : m ≤ k) :
    Tracks 0 n (blockWithin k) (blockWithin m) := by
  induction m generalizing n k with
  | zero =>
    obtain rfl := Nat.le_zero.1 hm
    exact (fail_follows (.expected .blockOpen) []).at_zero rfl
  | succ m ih =>
    obtain ⟨k, rfl⟩ : ∃ j, k = j + 1 := ⟨k - 1, by omega⟩
    have hblock : Tracks 0 (n - 1 - 1) (blockWithin k) (blockWithin m) := ih (by omega) (by omega)
    have hitem := itemOver_follows hblock (m := m) (k := k) (by omega) (by omega)
    have hitems := (blockItems_follows hitem (m := m) (k := k) (by omega) (by omega)).weaken
      AtEmpty.atBreaks id
    exact ((expect_follows _ .blockOpen).next fun _ => hitems).eased

theorem block_follows : Tracks 0 n Grammar.block Grammar.block := .sized blockWithin_follows

theorem item_follows : Follows 1 n AtEmpty AtBreaks item item :=
  .sized (itemOver_follows block_follows)

end Statements

section Modules

theorem parameter_follows : Tracks 1 n parameter parameter :=
  (identifier_follows .parameter).next fun _ =>
    ((expect_follows _ .parameterColon).next fun _ =>
      ((identifier_follows .parameterType).next fun _ => pure_follows _).eased).eased

theorem parameters_follows : Tracks 1 n parameters parameters := by
  refine (expect_follows _ .parametersOpen).next fun _ => ?_
  exact .sized (listItems_follows parameter_follows.eased .rparen .parametersClose)

theorem resultType_follows : Tracks 0 n resultType resultType := by
  refine (skip_follows _).bind fun given => .ite ?_ (pure_follows none)
  exact ((identifier_follows .resultType).next fun _ => pure_follows _).eased

theorem function_follows : Tracks 0 n function function := by
  refine ((identifier_follows .functionName).next fun _ => ?_).eased
  refine (parameters_follows.next fun _ => ?_).eased
  exact resultType_follows.bind fun _ => block_follows.bind fun _ => pure_follows _

theorem importedName_follows : Tracks 1 n importedName importedName := by
  refine (identifier_follows .importedName).next fun _ => (skip_follows _).bind fun renamed => ?_
  refine .ite ?_ (pure_follows _)
  exact ((identifier_follows .localName).next fun _ => pure_follows _).eased

theorem importedNames_follows (hm : n ≤ m) (hk : m ≤ k) :
    Tracks 1 n (importedNames k) (importedNames m) := by
  induction m generalizing n k with
  | zero =>
    obtain rfl := Nat.le_zero.1 hm
    exact (fail_follows (.expected .importedName) []).at_zero rfl
  | succ m ih =>
    obtain ⟨k, rfl⟩ : ∃ j, k = j + 1 := ⟨k - 1, by omega⟩
    refine importedName_follows.next fun name => (skip_follows _).bind fun more => ?_
    refine .ite ?_ (pure_follows _)
    have hnames := ih (n := n - 1) (k := k) (by omega) (by omega)
    exact hnames.eased.bind fun names => pure_follows _

theorem importEntry_follows (hm : n ≤ m) (hk : m ≤ k) :
    Tracks 1 n (importEntry k) (importEntry m) := by
  refine (importedNames_follows hm hk).next fun names => (skip_follows _).bind fun given => ?_
  refine .ite ?_ (pure_follows _)
  exact ((identifier_follows .origin).next fun _ => pure_follows _).eased

theorem importEntries_follows (hm : n ≤ m) (hk : m ≤ k) :
    Tracks 0 n (importEntries k) (importEntries m) := by
  induction m generalizing n k with
  | zero =>
    obtain rfl := Nat.le_zero.1 hm
    exact (fail_follows (.expected .importedName) []).at_zero rfl
  | succ m ih =>
    obtain ⟨k, rfl⟩ : ∃ j, k = j + 1 := ⟨k - 1, by omega⟩
    refine skipNewlines_tracks.bind fun _ => (skip_follows _).bind fun closed => ?_
    refine .ite (pure_follows _) ?_
    refine ((importEntry_follows hm hk).next fun entry => ?_).eased
    have honward := (ih (n := n - 1) (k := k) (by omega) (by omega)).bind fun more =>
      pure_follows (entry ++ more)
    refine (skip_follows _).bind fun broken => .ite honward ?_
    refine (sees_follows _).bind fun closing => .ite honward ?_
    exact fail_follows (.expected .importEnd) []

theorem imports_follows : Tracks 0 n imports imports := by
  refine ((expect_follows _ .importsOpen).next fun _ => ?_).eased
  exact .sized importEntries_follows

def Nowhere (_ : List Token) : Prop := False

theorem advance_follows_newline : Follows 1 n AtBreaks AtBreaks advance advance := by
  have h : Follows 1 n AtEmpty AtBreaks advance advance := advance_follows
  refine ⟨h.takes, fun {ends ts} hts hbreaks => ?_, h.follows⟩
  cases ts with
  | nil => exact h.spends hts rfl
  | cons t ts => exact fun u hu => hbreaks u (List.mem_cons_of_mem t hu)

/-- By induction on the bound. A module is complete only behind the end of the input, so a front of
its stream that has run out is refused wherever the parser stands. -/
theorem contents_follows (hm : n ≤ m) (hk : m ≤ k) (stage : Stage) :
    Follows 0 n AtBreaks Nowhere (contents k stage) (contents m stage) := by
  induction m generalizing n k stage with
  | zero =>
    obtain rfl := Nat.le_zero.1 hm
    exact (fail_follows (.expected .moduleEnd) []).at_zero rfl
  | succ m ih =>
    obtain ⟨k, rfl⟩ : ∃ j, k = j + 1 := ⟨k - 1, by omega⟩
    refine current_then (fail_follows (.expected .moduleEnd) []) fun t => ?_
    -- what is no newline does not stand in front of line breaks alone
    have solid : ∀ {f g : Parser Contents}, t.lexeme ≠ .newline →
        Follows 0 n AtEmpty Nowhere f g →
        Follows 0 n (fun ts => AtBreaks ts ∧ ts.head? = some t) Nowhere f g := by
      intro f g ht h
      refine h.weaken ?_ id
      rintro ts ⟨hbreaks, hhead⟩
      exact absurd (hbreaks t (List.mem_of_mem_head? hhead)) ht
    have onward : ∀ stage (f : Contents → Contents), Follows 0 (n - 1) AtBreaks Nowhere
        (contents k stage >>= fun c => pure (f c)) (contents m stage >>= fun c => pure (f c)) :=
      fun stage f => (ih (by omega) (by omega) stage).bind fun c => pure_follows _
    have entry : Follows 0 n AtEmpty Nowhere (do
          let s ← item
          let rest ← contents k .statements
          return { rest with statements := s :: rest.statements }) (do
          let s ← item
          let rest ← contents m .statements
          return { rest with statements := s :: rest.statements }) :=
      (item_follows.next fun s => onward .statements _).eased
    simp only [Option.map_some]
    cases ht : t.lexeme with
    | newline =>
      have hrest := ih (n := n - 1) (k := k) (by omega) (by omega) stage
      exact (advance_follows_newline.next fun _ => hrest).eased.weaken And.left id
    | endOfInput =>
      have hlast : Follows 1 n AtEmpty Nowhere advance advance := advance_follows
      exact solid (by simp [ht]) (hlast.next fun _ => pure_follows _).eased
    | keyword w =>
      cases w with
      | importing =>
        refine solid (by simp [ht]) (.ite ?_ (fail_follows .misplacedImports []))
        have hrest : ∀ found, _ := fun found => (onward .definitions fun c =>
          { c with imports := found ++ c.imports }).weaken AtEmpty.atBreaks id
        exact (advance_follows.next fun _ => imports_follows.bind hrest).eased
      | function =>
        refine solid (by simp [ht]) (.ite (fail_follows .misplacedFunction []) ?_)
        have hrest : ∀ f, _ := fun f => (onward .definitions fun c =>
          { c with functions := f :: c.functions }).weaken AtEmpty.atBreaks id
        exact (advance_follows.next fun _ => function_follows.bind hrest).eased
      | _ => exact solid (by simp [ht]) entry
    | symbol b =>
      cases b with
      | rbrace => exact solid (by simp [ht]) (fail_follows (.expected .statement) [])
      | _ => exact solid (by simp [ht]) entry
    | _ => exact solid (by simp [ht]) entry

theorem moduleNamed_follows (name : String) :
    Follows 0 n AtBreaks Nowhere (moduleNamed name) (moduleNamed name) :=
  .sized fun hm hk => (contents_follows hm hk .opening).bind fun _ => pure_follows _

def Finishes {α : Type} (p : Parser α) : Prop :=
  ∀ ⦃ends ts a rest⦄, p ends ts = .ok a rest →
    ∃ read last, ts = read ++ last :: rest ∧ last.lexeme = .endOfInput

theorem Finishes.after {α β : Type} {d : Nat} {D E : List Token → Prop} {p q : Parser α}
    {f : α → Parser β} (hp : Follows d 0 D E p q) (hf : ∀ a, Finishes (f a)) :
    Finishes (q >>= f) := by
  intro ends ts b rest h
  obtain ⟨a, mid, hq, hfa⟩ := bind_eq_ok.1 h
  obtain ⟨read, rfl, -⟩ := hp.takes hq
  obtain ⟨more, last, rfl, hlast⟩ := hf a hfa
  exact ⟨read ++ more, last, by simp, hlast⟩

theorem Finishes.map {α β : Type} {p : Parser α} (hp : Finishes p) (f : α → β) :
    Finishes (p >>= fun a => pure (f a)) := by
  intro ends ts b rest h
  obtain ⟨a, mid, hpa, hpure⟩ := bind_eq_ok.1 h
  cases hpure
  exact hp hpa

theorem contents_finishes (n : Nat) (stage : Stage) : Finishes (contents n stage) := by
  induction n generalizing stage with
  | zero => exact nofun
  | succ n ih =>
    have entry : Finishes (do
        let s ← item
        let rest ← contents n .statements
        return { rest with statements := s :: rest.statements }) :=
      .after item_follows fun s => (ih .statements).map _
    have hfirst : Follows 1 0 AtEmpty AtEmpty advance advance := advance_follows
    intro ends ts c rest h
    rw [contents, bind_of_ok current_apply] at h
    cases ts with
    | nil => cases h
    | cons t ts =>
      simp only [List.head?_cons, Option.map_some] at h
      cases ht : t.lexeme with
      | newline =>
        simp only [ht] at h
        exact Finishes.after hfirst (fun _ => ih stage) h
      | endOfInput =>
        simp only [ht] at h
        cases h
        exact ⟨[], t, rfl, ht⟩
      | keyword w =>
        simp only [ht] at h
        cases w with
        | importing =>
          simp only at h
          split at h
          · refine Finishes.after hfirst (fun _ => ?_) h
            exact .after imports_follows fun found => (ih .definitions).map _
          · cases h
        | function =>
          simp only at h
          split at h
          · cases h
          · refine Finishes.after hfirst (fun _ => ?_) h
            exact .after function_follows fun f => (ih .definitions).map _
        | _ => exact entry h
      | symbol b =>
        simp only [ht] at h
        cases b with
        | rbrace => cases h
        | _ => exact entry h
      | _ =>
        simp only [ht] at h
        exact entry h

theorem moduleNamed_finishes (name : String) : Finishes (moduleNamed name) := by
  intro ends ts m rest h
  exact (contents_finishes ts.length .opening).map _ h

/-- A stream that is read as a module is read up to the end of its input, and every shorter front of
what was read is refused for want of tokens: no token is blamed, and no module is found. -/
theorem truncated_starves {tokens rest : List Token} {name : String} {m : Module}
    (h : (moduleNamed name).run tokens = .ok m rest) :
    ∃ read last, tokens = read ++ last :: rest ∧ last.lexeme = .endOfInput ∧
      ∀ k < (read ++ [last]).length, ∃ e left,
        (moduleNamed name).run (tokens.take k) = .error e left ∧
        e.phase = .syntactic ∧ e.atEnd = true ∧ e.token = none := by
  obtain ⟨read, last, rfl, hlast⟩ := moduleNamed_finishes name h
  refine ⟨read, last, rfl, hlast, fun k hk => ?_⟩
  rw [← List.take_append_drop k (read ++ last :: rest)] at h
  have hfollows := moduleNamed_follows (n := k) name
  have hfront : ((read ++ last :: rest).take k).length ≤ k := List.length_take_le k _
  rcases hfollows.follows hfront h with hspent | ⟨left, -, hrest⟩
  · cases hrun : (moduleNamed name).run ((read ++ last :: rest).take k) with
    | ok found left =>
      rw [Parser.run] at hrun
      rw [hrun] at hspent
      exact hspent.elim
    | error e left =>
      rw [Parser.run] at hrun
      rw [hrun] at hspent
      exact ⟨e, left, rfl, hspent.phase, hspent.atEnd, hspent.token⟩
  · -- what lies behind the front would be left over, but the parser went further
    have hlength := congrArg List.length hrest
    simp only [List.length_append, List.length_drop, List.length_cons] at hlength
    simp only [List.length_append, List.length_singleton] at hk
    omega

def alternative : List Token :=
  [.keyword .branch, .identifier (.simple "x"), .symbol .lbrace, .symbol .rbrace, .newline,
    .keyword .otherwise, .symbol .lbrace, .symbol .rbrace, .newline, .endOfInput].map
    (Token.plain · none)

/-- The first line is a module with an end behind it, but not without. -/
theorem alternative_starves :
    ∃ m, (moduleNamed "main").run alternative = .ok m [] ∧
      ∃ e left, (moduleNamed "main").run (alternative.take 5) = .error e left ∧
        e.phase = .syntactic ∧ e.atEnd = true ∧ e.token = none := by
  have hread : (moduleNamed "main").run alternative =
      .ok ⟨.simple "main", [], [], [.branch (.name (.simple "x")) [] (some [])]⟩ [] := rfl
  obtain ⟨read, last, hsplit, -, hfronts⟩ := truncated_starves hread
  refine ⟨_, hread, hfronts 5 ?_⟩
  rw [← hsplit]
  decide

end Modules

end Pasture.Grammar
