import Pasture.Proofs.Grammar.StatementComplete

/-! # Printed modules are read back

What is printed for a well-formed module is read as that module, whatever spans and texts the
tokens have.
-/
namespace Pasture.Grammar

open Pasture.Parser

variable {n m : Nat} {ends : Option Span} {ts rest : List Token}

theorem parameter_finds (close : Symbol) :
    FindsItems n close (fun p ls => ls = Parameter.print p) parameter := by
  intro ends ts p ls rest hp ht _ _
  subst hp
  obtain ⟨i, ts, rfl, hi, hts⟩ := List.map_eq_cons_iff.1 ht
  obtain ⟨c, ts, rfl, hc, hts⟩ := List.map_eq_cons_iff.1 hts
  obtain ⟨k, ts, rfl, hk, hts⟩ := List.map_eq_cons_iff.1 hts
  obtain rfl := List.map_eq_nil_iff.1 hts
  have hcolon : expect (.symbol .colon) .parameterColon ends (c :: k :: rest) =
      .ok () (k :: rest) := expect_eq_ok.2 ⟨c, by simpa using hc, rfl⟩
  simp only [List.cons_append, List.nil_append]
  rw [parameter, bind_of_ok (identifier_eq_ok.2 ⟨i, hi, rfl⟩), bind_of_ok hcolon]
  exact bind_of_ok (identifier_eq_ok.2 ⟨k, hk, rfl⟩)

theorem parameters_finds {ps : List Parameter}
    (ht : ts.map Token.lexeme =
      .symbol .lparen :: commaJoin (ps.map Parameter.print) ++ [.symbol .rparen]) :
    parameters ends (ts ++ rest) = .ok ps rest := by
  obtain ⟨o, ts, rfl, ho, hts⟩ := List.map_eq_cons_iff.1 ht
  have hopen : expect (.symbol .lparen) .parametersOpen ends (o :: (ts ++ rest)) =
      .ok () (ts ++ rest) := expect_eq_ok.2 ⟨o, by simpa using ho, rfl⟩
  refine (bind_of_ok hopen).trans ?_
  refine listItems_finds ?_ (by simp) (parameter_finds .rparen) (broken_commaJoin _) (by simp) ?_
    hts (Nat.le_refl _) (by simp)
  · rintro p ls rfl
    exact ⟨_, _, rfl, by simp, by simp⟩
  · intro p hp
    have hzip : ps.zip (ps.map Parameter.print) = ps.map fun p => (p, p.print) := by
      simpa using @List.zip_map' _ _ _ id Parameter.print ps
    rw [hzip] at hp
    obtain ⟨q, -, rfl⟩ := List.mem_map.1 hp
    rfl

theorem resultType_finds {type : Option Identifier} {o : Token}
    (ht : ts.map Token.lexeme = Function.printResult type) (ho : o.lexeme = .symbol .lbrace) :
    resultType ends (ts ++ o :: rest) = .ok type (o :: rest) := by
  cases type with
  | none =>
    obtain rfl := List.map_eq_nil_iff.1 ht
    exact bind_of_ok (skip_eq_false.2 ⟨rfl, by simp [ho]⟩)
  | some type =>
    obtain ⟨c, ts, rfl, hc, hts⟩ := List.map_eq_cons_iff.1 ht
    obtain ⟨i, ts, rfl, hi, hts⟩ := List.map_eq_cons_iff.1 hts
    obtain rfl := List.map_eq_nil_iff.1 hts
    refine (bind_of_ok (skip_eq_true.2 ⟨c, by simpa using hc, rfl⟩)).trans ?_
    exact bind_of_ok (identifier_eq_ok.2 ⟨i, hi, rfl⟩)

theorem function_finds {f : Function} {w : Token} (hf : ∀ s ∈ f.body, s.WellFormed)
    (ht : (w :: ts).map Token.lexeme = f.print) :
    function ends (ts ++ rest) = .ok f rest := by
  have hparts : ts.map Token.lexeme = .identifier f.name ::
      ((.symbol .lparen :: commaJoin (f.parameters.map Parameter.print) ++ [.symbol .rparen]) ++
        (Function.printResult f.resultType ++
          (.symbol .lbrace :: Statement.printLines f.body ++ [.symbol .rbrace]))) := by
    simpa [Function.print] using (List.cons.inj ht).2
  obtain ⟨i, us, rfl, hi, hus⟩ := List.map_eq_cons_iff.1 hparts
  obtain ⟨ps, us, rfl, hps, hus⟩ := List.map_eq_append_iff.1 hus
  obtain ⟨rs, bs, rfl, hrs, hbs⟩ := List.map_eq_append_iff.1 hus
  have hblock : block ends (bs ++ rest) = .ok f.body rest := block_finds _ hf hbs (Nat.le_refl _)
  obtain ⟨o, bs, rfl, ho, -⟩ := List.map_eq_cons_iff.1 hbs
  simp only [List.cons_append, List.append_assoc] at hblock ⊢
  refine (bind_of_ok (identifier_eq_ok.2 ⟨i, hi, rfl⟩)).trans ?_
  refine (bind_of_ok (parameters_finds hps)).trans ?_
  refine (bind_of_ok (resultType_finds hrs ho)).trans ?_
  exact bind_of_ok hblock

theorem importEntry_finds {i : Import} (hts : ts.map Token.lexeme = i.print) :
    importEntry (n + 1) ends (ts ++ rest) = .ok [i] rest := by
  obtain ⟨a, ts, rfl, ha, hts⟩ := List.map_eq_cons_iff.1 hts
  obtain ⟨b, ts, rfl, hb, hts⟩ := List.map_eq_cons_iff.1 hts
  obtain ⟨c, ts, rfl, hc, hts⟩ := List.map_eq_cons_iff.1 hts
  obtain ⟨d, ts, rfl, hd, hts⟩ := List.map_eq_cons_iff.1 hts
  obtain ⟨e, ts, rfl, he, hts⟩ := List.map_eq_cons_iff.1 hts
  obtain rfl := List.map_eq_nil_iff.1 hts
  have hname : importedName ends (a :: b :: c :: d :: e :: rest) =
      .ok (i.name, i.localName) (d :: e :: rest) := by
    rw [importedName, bind_of_ok (identifier_eq_ok.2 ⟨a, ha, rfl⟩),
      bind_of_ok (skip_eq_true.2 ⟨b, by simpa using hb, rfl⟩)]
    exact bind_of_ok (identifier_eq_ok.2 ⟨c, hc, rfl⟩)
  have hcomma : skip (.symbol .comma) ends (d :: e :: rest) = .ok false (d :: e :: rest) :=
    skip_eq_false.2 ⟨rfl, by simp [hd]⟩
  have hnames : importedNames (n + 1) ends (a :: b :: c :: d :: e :: rest) =
      .ok [(i.name, i.localName)] (d :: e :: rest) := by
    rw [importedNames, bind_of_ok hname]
    exact bind_of_ok hcomma
  refine (bind_of_ok hnames).trans ?_
  refine (bind_of_ok (skip_eq_true.2 ⟨d, by simpa using hd, rfl⟩)).trans ?_
  exact bind_of_ok (identifier_eq_ok.2 ⟨e, he, rfl⟩)

theorem importEntries_finds {is : List Import}
    (ht : ts.map Token.lexeme = is.flatMap (·.print ++ [.newline]) ++ [.symbol .rbrace])
    (hm : ts.length ≤ m) : importEntries m ends (ts ++ rest) = .ok is rest := by
  induction is generalizing ts m with
  | nil =>
    obtain ⟨c, ts, rfl, hc, hts⟩ := List.map_eq_cons_iff.1 ht
    obtain rfl := List.map_eq_nil_iff.1 hts
    obtain ⟨m, rfl⟩ : ∃ j, m = j + 1 := ⟨m - 1, by simp at hm; omega⟩
    have hskip : skipNewlines ends (c :: rest) = .ok () (c :: rest) := by simp [hc]
    refine (bind_of_ok hskip).trans ?_
    exact bind_of_ok (skip_eq_true.2 ⟨c, by simpa using hc, rfl⟩)
  | cons i is ih =>
    have hsplit : ts.map Token.lexeme = i.print ++
        .newline :: (is.flatMap (·.print ++ [.newline]) ++ [.symbol .rbrace]) := by
      simpa using ht
    obtain ⟨us, vs, rfl, hus, hvs⟩ := List.map_eq_append_iff.1 hsplit
    obtain ⟨t, vs, rfl, hnew, hvs⟩ := List.map_eq_cons_iff.1 hvs
    simp only [List.length_append, List.length_cons] at hm
    obtain ⟨m, rfl⟩ : ∃ j, m = j + 1 := ⟨m - 1, by omega⟩
    have hentry : importEntry (m + 1) ends (us ++ t :: (vs ++ rest)) = .ok [i] (t :: (vs ++ rest)) :=
      importEntry_finds hus
    have hrest : importEntries m ends (vs ++ rest) = .ok is rest := ih hvs (by omega)
    obtain ⟨a, us, rfl, ha, -⟩ := List.map_eq_cons_iff.1 hus
    simp only [List.append_assoc, List.cons_append] at hentry ⊢
    have hskip : skipNewlines ends (a :: (us ++ t :: (vs ++ rest))) =
        .ok () (a :: (us ++ t :: (vs ++ rest))) := by simp [ha]
    have hopen : skip (.symbol .rbrace) ends (a :: (us ++ t :: (vs ++ rest))) =
        .ok false (a :: (us ++ t :: (vs ++ rest))) := skip_eq_false.2 ⟨rfl, by simp [ha]⟩
    rw [importEntries, bind_of_ok hskip, bind_of_ok hopen]
    refine (bind_of_ok hentry).trans ?_
    refine (bind_of_ok (skip_eq_true.2 ⟨t, by simpa using hnew, rfl⟩)).trans ?_
    exact bind_of_ok hrest

theorem imports_finds {is : List Import} {w : Token} (hsome : is ≠ [])
    (ht : (w :: ts).map Token.lexeme = Import.printBlock is) :
    w.lexeme = .keyword .importing ∧ imports ends (ts ++ rest) = .ok is rest := by
  obtain ⟨i, is, rfl⟩ := List.exists_cons_of_ne_nil hsome
  obtain ⟨hw, hts⟩ := List.cons.inj ht
  obtain ⟨o, ts, rfl, ho, hts⟩ := List.map_eq_cons_iff.1 hts
  have hopen : expect (.symbol .lbrace) .importsOpen ends (o :: (ts ++ rest)) =
      .ok () (ts ++ rest) := expect_eq_ok.2 ⟨o, by simpa using ho, rfl⟩
  refine ⟨hw, (bind_of_ok hopen).trans ?_⟩
  exact importEntries_finds hts (by simp)

/-! The rest of a module, one step at a time. -/

section Contents

variable {stage : Stage} {t : Token}

theorem contents_newline (ht : t.lexeme = .newline) :
    contents (n + 1) stage ends (t :: rest) = contents n stage ends rest := by
  rw [contents, bind_of_ok current_apply]
  simp only [List.head?_cons, Option.map_some, ht]
  exact bind_of_ok (advance_eq_ok.2 rfl)

theorem contents_end (ht : t.lexeme = .endOfInput) :
    contents (n + 1) stage ends (t :: rest) = .ok {} rest := by
  rw [contents, bind_of_ok current_apply]
  simp only [List.head?_cons, Option.map_some, ht]
  exact bind_of_ok (advance_eq_ok.2 rfl)

theorem contents_item_then {s : Statement} {left : List Token} (ht : t.lexeme.opensStatement)
    (hs : item ends (t :: ts) = .ok s left) :
    contents (n + 1) stage ends (t :: ts) =
      (contents n .statements >>= fun c => pure { c with statements := s :: c.statements })
        ends left := by
  have hrun : (do
      let s ← item
      let rest ← contents n .statements
      return { rest with statements := s :: rest.statements } : Parser Contents) ends (t :: ts) =
      (contents n .statements >>= fun c => pure { c with statements := s :: c.statements })
        ends left := bind_of_ok hs
  rw [contents, bind_of_ok current_apply]
  simp only [List.head?_cons, Option.map_some]
  cases htl : t.lexeme with
  | newline | endOfInput =>
    rw [htl] at ht
    cases ht
  | keyword k =>
    rw [htl] at ht
    cases k with
    | importing | function => cases ht
    | _ => exact hrun
  | symbol b =>
    rw [htl] at ht
    cases b with
    | rbrace => cases ht
    | _ => exact hrun
  | _ => exact hrun

theorem contents_item {s : Statement} {c : Contents} {left : List Token}
    (ht : t.lexeme.opensStatement) (hs : item ends (t :: ts) = .ok s left)
    (hc : contents n .statements ends left = .ok c rest) :
    contents (n + 1) stage ends (t :: ts) =
      .ok { c with statements := s :: c.statements } rest :=
  (contents_item_then ht hs).trans (bind_of_ok hc)

theorem contents_function_then {f : Function} {left : List Token}
    (ht : t.lexeme = .keyword .function) (hstage : stage ≠ .statements)
    (hf : function ends ts = .ok f left) :
    contents (n + 1) stage ends (t :: ts) =
      (contents n .definitions >>= fun c => pure { c with functions := f :: c.functions })
        ends left := by
  rw [contents, bind_of_ok current_apply]
  simp only [List.head?_cons, Option.map_some, ht, hstage, if_false]
  exact (bind_of_ok (advance_eq_ok.2 rfl)).trans (bind_of_ok hf)

theorem contents_function {f : Function} {c : Contents} {left : List Token}
    (ht : t.lexeme = .keyword .function) (hstage : stage ≠ .statements)
    (hf : function ends ts = .ok f left) (hc : contents n .definitions ends left = .ok c rest) :
    contents (n + 1) stage ends (t :: ts) = .ok { c with functions := f :: c.functions } rest :=
  (contents_function_then ht hstage hf).trans (bind_of_ok hc)

theorem contents_imports_then {is : List Import} {left : List Token}
    (ht : t.lexeme = .keyword .importing) (hi : imports ends ts = .ok is left) :
    contents (n + 1) .opening ends (t :: ts) =
      (contents n .definitions >>= fun c => pure { c with imports := is ++ c.imports })
        ends left := by
  rw [contents, bind_of_ok current_apply]
  simp only [List.head?_cons, Option.map_some, ht, if_true]
  exact (bind_of_ok (advance_eq_ok.2 rfl)).trans (bind_of_ok hi)

theorem contents_imports {is : List Import} {c : Contents} {left : List Token}
    (ht : t.lexeme = .keyword .importing) (hi : imports ends ts = .ok is left)
    (hc : contents n .definitions ends left = .ok c rest) :
    contents (n + 1) .opening ends (t :: ts) = .ok { c with imports := is ++ c.imports } rest :=
  (contents_imports_then ht hi).trans (bind_of_ok hc)

theorem contents_lines {ss : List Statement} (hss : ∀ s ∈ ss, s.WellFormed)
    (ht : ts.map Token.lexeme = Statement.printLines ss ++ [.endOfInput]) (hn : ts.length ≤ n) :
    contents n stage ends (ts ++ rest) = .ok { statements := ss } rest := by
  induction ss generalizing ts n stage with
  | nil =>
    obtain ⟨e, ts, rfl, he, hts⟩ := List.map_eq_cons_iff.1 ht
    obtain rfl := List.map_eq_nil_iff.1 hts
    obtain ⟨n, rfl⟩ : ∃ j, n = j + 1 := ⟨n - 1, by simp at hn; omega⟩
    exact contents_end he
  | cons s ss ih =>
    have hs := hss s List.mem_cons_self
    have hmore : ∀ s ∈ ss, s.WellFormed := fun s h => hss s (List.mem_cons_of_mem _ h)
    have hsplit : ts.map Token.lexeme =
        s.print ++ .newline :: (Statement.printLines ss ++ [.endOfInput]) := by
      simpa [Statement.printLines] using ht
    obtain ⟨us, vs, rfl, hus, hvs⟩ := List.map_eq_append_iff.1 hsplit
    obtain ⟨t, vs, rfl, hnew, hvs⟩ := List.map_eq_cons_iff.1 hvs
    have helse : NoElse (t :: (vs ++ rest)) := by
      obtain ⟨ks, es, rfl, hks, hes⟩ := List.map_eq_append_iff.1 hvs
      obtain ⟨e, es, rfl, he, -⟩ := List.map_eq_cons_iff.1 hes
      have hlast : NoElse (e :: (es ++ rest)) := noElse_cons (by simp [he]) (by simp [he]) _
      simpa using noElse_cons_newline hnew (noElse_lines hmore hks hlast)
    obtain ⟨l, ks, hl, ho⟩ := hs.print_first
    obtain ⟨u, us, rfl, rfl, -⟩ := List.map_eq_cons_iff.1 (hus.trans hl)
    simp only [List.length_append, List.length_cons] at hn
    obtain ⟨left, hitem, hleft⟩ :
        ∃ left, item ends (u :: us ++ t :: (vs ++ rest)) = .ok s left ∧
          (left = vs ++ rest ∨ left = t :: (vs ++ rest)) :=
      itemOver_finds (block_finds _) hs hus (Nat.le_refl _) hnew helse _
    simp only [List.append_assoc, List.cons_append] at hitem ⊢
    -- a newline that is left is taken in a round of its own, for which the first token made room
    obtain ⟨n, rfl⟩ : ∃ j, n = j + 2 := ⟨n - 2, by omega⟩
    have hrest : contents (n + 1) .statements ends left = .ok { statements := ss } rest := by
      rcases hleft with rfl | rfl
      · exact ih hmore hvs (by omega)
      · rw [contents_newline hnew]
        exact ih hmore hvs (by omega)
    exact contents_item ho hitem hrest

theorem contents_definitions {fs : List Function} {ss : List Statement}
    (hfs : ∀ f ∈ fs, ∀ s ∈ f.body, s.WellFormed) (hss : ∀ s ∈ ss, s.WellFormed)
    (ht : ts.map Token.lexeme =
      fs.flatMap (·.print ++ [.newline]) ++ (Statement.printLines ss ++ [.endOfInput]))
    (hstage : stage ≠ .statements) (hn : ts.length ≤ n) :
    contents n stage ends (ts ++ rest) = .ok { functions := fs, statements := ss } rest := by
  induction fs generalizing ts n stage with
  | nil => exact contents_lines hss ht hn
  | cons f fs ih =>
    have hmore : ∀ f ∈ fs, ∀ s ∈ f.body, s.WellFormed :=
      fun f h => hfs f (List.mem_cons_of_mem _ h)
    have hsplit : ts.map Token.lexeme = f.print ++ .newline ::
        (fs.flatMap (·.print ++ [.newline]) ++ (Statement.printLines ss ++ [.endOfInput])) := by
      simpa using ht
    obtain ⟨us, vs, rfl, hus, hvs⟩ := List.map_eq_append_iff.1 hsplit
    obtain ⟨t, vs, rfl, hnew, hvs⟩ := List.map_eq_cons_iff.1 hvs
    obtain ⟨w, us, rfl, hw, -⟩ := List.map_eq_cons_iff.1 hus
    simp only [List.length_append, List.length_cons] at hn
    obtain ⟨n, rfl⟩ : ∃ j, n = j + 2 := ⟨n - 2, by omega⟩
    have hf : function ends (us ++ t :: (vs ++ rest)) = .ok f (t :: (vs ++ rest)) :=
      function_finds (hfs f List.mem_cons_self) hus
    have hrest : contents (n + 1) .definitions ends (t :: (vs ++ rest)) =
        .ok { functions := fs, statements := ss } rest := by
      rw [contents_newline hnew]
      exact ih hmore hvs (by simp) (by omega)
    simp only [List.append_assoc, List.cons_append]
    exact contents_function hw hstage hf hrest

end Contents

theorem moduleNamed_finds {m : Module} (hm : m.WellFormed) (name : String)
    (ht : ts.map Token.lexeme = m.print) :
    moduleNamed name ends (ts ++ rest) = .ok { m with name := .simple name } rest := by
  rw [Module.print, List.append_assoc, List.append_assoc] at ht
  obtain ⟨is, ds, rfl, his, hds⟩ := List.map_eq_append_iff.1 ht
  have hrest : ∀ {n stage}, stage ≠ .statements → ds.length ≤ n →
      contents n stage ends (ds ++ rest) =
        .ok { functions := m.functions, statements := m.statements } rest :=
    fun hstage hn => contents_definitions hm.functions hm.statements hds hstage hn
  have hcontents : contents (is ++ ds ++ rest).length .opening ends (is ++ ds ++ rest) =
      .ok ⟨m.imports, m.functions, m.statements⟩ rest := by
    cases himports : m.imports with
    | nil =>
      rw [himports] at his
      obtain rfl := List.map_eq_nil_iff.1 his
      exact hrest (by simp) (by simp)
    | cons i imported =>
      rw [himports] at his
      obtain ⟨w, us, rfl, -⟩ := List.map_eq_cons_iff.1 his
      obtain ⟨hw, hfound⟩ := imports_finds (List.cons_ne_nil i imported) his
      have hbody : contents (us ++ (ds ++ rest)).length .definitions ends (ds ++ rest) =
          .ok { functions := m.functions, statements := m.statements } rest :=
        hrest (by simp) (by simp; omega)
      simpa using contents_imports hw hfound hbody
  exact bind_of_ok hcontents

/-- What is printed for a well-formed module is read as the module, under the name that is asked
for, and taken up to the end of the input, whatever follows. -/
theorem module_round_trip {m : Module} (hm : m.WellFormed) (name : String)
    (ht : ts.map Token.lexeme = m.print) :
    (∀ ends rest, moduleNamed name ends (ts ++ rest) = .ok { m with name := .simple name } rest) ∧
      parseTokens ts name = .ok { m with name := .simple name } := by
  refine ⟨fun ends rest => moduleNamed_finds hm name ht, ?_⟩
  have hrun : (moduleNamed name).run (ts ++ []) = .ok { m with name := .simple name } [] :=
    moduleNamed_finds hm name ht
  rw [List.append_nil] at hrun
  simp only [parseTokens, hrun]

def tally : Module where
  name := .simple "tally"
  imports := [⟨.simple "log", .simple "note", .simple "io"⟩]
  functions := [{
    name := .simple "add"
    parameters := [⟨.simple "xs", .simple "list"⟩, ⟨.simple "i", .simple "int"⟩]
    resultType := some (.simple "int")
    body := [
      .assignment (.element (.name (.simple "xs")) (.single (.name (.simple "i"))))
        (.binary (.element (.name (.simple "xs")) (.single (.name (.simple "i")))) .plus
          (.literal (.integer 1))),
      .result none] }]
  statements := [
    .branch (.name (.simple "on")) [.expression (.call (.simple "add") [])] (some [])]

theorem tally_round_trip :
    parseTokens (tally.print.map (Token.plain · none)) "tally" = .ok tally := by
  have atom : ∀ {e : Expr}, e.Stands (.rows []) → e.Stands .whole :=
    fun h => h.whole_of_suffix List.nil_suffix
  have hm : tally.WellFormed := by
    constructor
    · simp only [tally, forall_eq, List.mem_cons, List.not_mem_nil, or_false]
      rintro s (rfl | rfl)
      · exact @Statement.WellFormed.fused (.element (.name _) (.single _)) _ _
          (atom (.single (.name _) (atom (.name _)))) rfl (atom (.literal _))
      · exact .result (by simp)
    · simp only [tally, List.mem_singleton, forall_eq]
      exact .branch (atom (.name _)) (by simpa using .expression (atom (.call (by simp)))) (by simp)
  have ht : (tally.print.map (Token.plain · none)).map Token.lexeme = tally.print := by
    simp [Function.comp_def, Token.plain]
  exact (module_round_trip hm "tally" ht).2

end Pasture.Grammar
