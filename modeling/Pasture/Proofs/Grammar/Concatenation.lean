import Pasture.Proofs.Grammar.Rounds

/-! # Modules one behind the other

Statements that make a module of their own may be written behind any module. What is read of the
first one does not depend on whether its input ends or a newline and the second one follow.
-/
namespace Pasture.Grammar

open Pasture.Parser

variable {n m : Nat} {ends : Option Span} {stage : Stage} {ts us read left rest : List Token}
  {a b c : Contents} {e t : Token}

/-- What reads no end of the input leaves it. -/
theorem behind_end (he : e.lexeme = .endOfInput) (hread : Endless read)
    (h : ts ++ [e] = read ++ left) : ∃ us, ts = read ++ us ∧ left = us ++ [e] := by
  rcases List.append_eq_append_iff.1 h with ⟨us, rfl, hus⟩ | ⟨us, hts, hleft⟩
  · rcases List.singleton_eq_append_iff.1 hus with ⟨rfl, hleft⟩ | ⟨rfl, -⟩
    · exact ⟨[], by simp, hleft⟩
    · exact absurd he (hread e (by simp))
  · exact ⟨us, hts, hleft⟩

def Contents.append (a b : Contents) : Contents where
  imports := a.imports ++ b.imports
  functions := a.functions ++ b.functions
  statements := a.statements ++ b.statements

/-- What may take the place of the end behind a module: contents, whatever came before them, in
front of which a statement ends as in front of the end. -/
structure Continues (e : Token) (b : Contents) (ts : List Token) : Prop where
  contents : ∀ {stage ends n}, ts.length ≤ n → contents n stage ends ts = .ok b []
  noElse : NoElse ts
  item : ∀ {ends ends' read s}, item ends (read ++ [e]) = .ok s [e] →
    ∃ left, Grammar.item ends' (read ++ ts) = .ok s left ∧
      ∀ {n}, ts.length ≤ n → Grammar.contents n .statements ends' left = .ok b []

theorem Continues.onward (hb : Continues e b us) (hsome : ts ≠ []) :
    Onward (ts ++ [e]) (ts ++ us) := by
  refine ⟨noElse_append fun _ => hb.noElse, ?_⟩
  cases ts with
  | nil => exact absurd rfl hsome
  | cons t ts => exact id

/-- Whatever ends with a bracket is read in front of anything as in front of the end. -/
theorem closed_continued {α : Type} {p : Parser α} {x : α} (hp : ∀ {n}, Local 1 n Unseen p p)
    (he : e.lexeme = .endOfInput) (h : p ends (ts ++ [e]) = .ok x left) :
    ∃ read vs, ts = read ++ vs ∧ left = vs ++ [e] ∧
      ∀ ends' us, p ends' (ts ++ us) = .ok x (vs ++ us) := by
  obtain ⟨read, hread, -, hends⟩ := (hp (n := 0)).takes h
  obtain ⟨vs, rfl, rfl⟩ := behind_end he hends hread
  refine ⟨read, vs, rfl, rfl, fun ends' us => ?_⟩
  rw [List.append_assoc] at h ⊢
  exact hp.carries h (Nat.le_refl _) trivial

theorem item_continued {s : Statement} (he : e.lexeme = .endOfInput) (hb : Continues e b us)
    (h : item ends (ts ++ [e]) = .ok s left) (ends' : Option Span) :
    ∃ read vs, ts = read ++ vs ∧ 1 ≤ read.length ∧ left = vs ++ [e] ∧
      ∃ left', item ends' (ts ++ us) = .ok s left' ∧
        (left' = vs ++ us ∨ vs = [] ∧ ∀ {n}, us.length ≤ n →
          contents n .statements ends' left' = .ok b []) := by
  obtain ⟨read, hread, hsolid, hends⟩ := (item_local (n := 0)).takes h
  obtain ⟨vs, rfl, rfl⟩ := behind_end he hends hread
  refine ⟨read, vs, rfl, Nat.le_trans hsolid (solid_length_le read), rfl, ?_⟩
  cases vs with
  | nil =>
    obtain ⟨left', hitem, hcontents⟩ := @hb.item ends ends' _ _ h
    exact ⟨left', hitem, .inr ⟨rfl, hcontents⟩⟩
  | cons v vs =>
    rw [List.append_assoc] at h ⊢
    exact ⟨_, item_local.carries h (Nat.le_refl _) (hb.onward (List.cons_ne_nil v vs)), .inl rfl⟩

/-- By induction on the rounds: each takes the same tokens as it took in front of the end. -/
theorem contents_continued (he : e.lexeme = .endOfInput) (hb : Continues e b us)
    (h : contents n stage ends (ts ++ [e]) = .ok a rest) (hend : Endless ts)
    (hm : (ts ++ us).length ≤ m) (ends' : Option Span) :
    contents m stage ends' (ts ++ us) = .ok (a.append b) [] := by
  induction n generalizing stage ts a m with
  | zero => exact absurd h contents_zero
  | succ n ih =>
    cases ts with
    | nil =>
      obtain rfl : a = {} := contents_only_end he h
      exact hb.contents hm
    | cons t ts =>
      obtain ⟨ht, hts⟩ := List.forall_mem_cons.1 hend
      simp only [List.length_append, List.length_cons] at hm
      obtain ⟨m, rfl⟩ : ∃ k, m = k + 1 := ⟨m - 1, by omega⟩
      cases contents_round h with
      | newline hnew hc =>
        rw [List.cons_append, contents_newline hnew]
        exact ih hc hts (by simp; omega)
      | finish hinput => exact absurd hinput ht
      | imports hw hi hc =>
        obtain ⟨read, vs, rfl, rfl, hsame⟩ := closed_continued imports_local he hi
        have hvs : Endless vs := fun u hu => hts u (List.mem_append_right read hu)
        have hrest := ih hc hvs (m := m) (by simp at hm ⊢; omega)
        simpa [Contents.append] using contents_imports hw (hsame ends' us) hrest
      | function hw hstage hf hc =>
        obtain ⟨read, vs, rfl, rfl, hsame⟩ := closed_continued function_local he hf
        have hvs : Endless vs := fun u hu => hts u (List.mem_append_right read hu)
        have hrest := ih hc hvs (m := m) (by simp at hm ⊢; omega)
        simpa [Contents.append] using contents_function hw hstage (hsame ends' us) hrest
      | @item _ _ _ s left c _ hs hc =>
        have hfirst : item ends (t :: ts ++ [e]) = .ok s left := hs
        obtain ⟨read, vs, hsplit, hread, rfl, left', hsame, hleft⟩ :=
          item_continued he hb hfirst ends'
        have hlength := congrArg List.length hsplit
        simp only [List.length_cons, List.length_append] at hlength
        have hrest : contents m .statements ends' left' = .ok (c.append b) [] := by
          rcases hleft with rfl | ⟨rfl, hleft⟩
          · have hvs : Endless vs := fun u hu => hend u (hsplit ▸ List.mem_append_right read hu)
            exact ih hc hvs (by simp; omega)
          · obtain rfl : c = {} := contents_only_end he hc
            exact hleft (by omega)
        simpa [Contents.append] using contents_item (item_first hs) hsame hrest

/-- One end of the input is as good as another. -/
theorem continues_end {e' : Token} (he' : e'.lexeme = .endOfInput) : Continues e {} [e'] where
  contents {stage ends n} hn := by
    obtain ⟨n, rfl⟩ : ∃ k, n = k + 1 := ⟨n - 1, by simp at hn; omega⟩
    exact contents_end he'
  noElse := noElse_cons (by simp [he']) (by simp [he']) []
  item {ends ends' read s} h := by
    have honward : Onward [e] [e'] :=
      ⟨fun _ => noElse_cons (by simp [he']) (by simp [he']) [], fun _ => ⟨e', rfl, .inr he'⟩⟩
    refine ⟨[e'], item_local.carries h (Nat.le_refl _) honward, fun {n} hn => ?_⟩
    obtain ⟨n, rfl⟩ : ∃ k, n = k + 1 := ⟨n - 1, by simp at hn; omega⟩
    exact contents_end he'

theorem contents_stage {stage' : Stage} (hplain : ∀ t ∈ ts, t.lexeme ≠ .keyword .importing ∧
      t.lexeme ≠ .keyword .function) (h : contents n stage ends ts = .ok c rest) :
    contents n stage' ends ts = .ok c rest := by
  induction n generalizing ts with
  | zero => exact absurd h contents_zero
  | succ n ih =>
    cases contents_round h with
    | newline ht hc =>
      rw [contents_newline ht]
      exact ih (fun u hu => hplain u (List.mem_cons_of_mem _ hu)) hc
    | finish ht => exact contents_end ht
    | imports ht => exact absurd ht (hplain _ List.mem_cons_self).1
    | function ht => exact absurd ht (hplain _ List.mem_cons_self).2
    | item hs hc => exact contents_item (item_first hs) hs hc

/-- What stands on its own whatever came before it continues a module behind a newline. -/
theorem continues_newline (ht : t.lexeme = .newline)
    (hb : ∀ {stage ends n}, us.length ≤ n → contents n stage ends us = .ok b []) :
    Continues e b (t :: us) := by
  have hno : NoElse us := contents_noElse (@hb .opening none _ (Nat.le_refl _))
  have behind : ∀ {stage ends n}, (t :: us).length ≤ n →
      contents n stage ends (t :: us) = .ok b [] := by
    intro stage ends n hn
    rw [List.length_cons] at hn
    obtain ⟨n, rfl⟩ : ∃ k, n = k + 1 := ⟨n - 1, by omega⟩
    rw [contents_newline ht]
    exact hb (by omega)
  refine ⟨behind, noElse_cons_newline ht hno, fun {ends ends' read s} h => ?_⟩
  obtain ⟨left, hleft, hitem⟩ := item_newline h ht (fun _ => hno) ends'
  refine ⟨left, hitem, fun {n} hn => ?_⟩
  rcases hleft with rfl | rfl
  · exact hb (Nat.le_of_succ_le hn)
  · exact behind hn

/-- Two modules with a newline between them, the second one of statements only, are one module: the
first one with the statements of the second behind its own. -/
theorem parseTokens_append {as bs : List Token} {e e' last t : Token} {name name' : String}
    {a b : Module} (has : Endless as) (hbs : Endless bs)
    (hplain : ∀ u ∈ bs, u.lexeme ≠ .keyword .importing ∧ u.lexeme ≠ .keyword .function)
    (he : e.lexeme = .endOfInput) (he' : e'.lexeme = .endOfInput)
    (hlast : last.lexeme = .endOfInput) (ht : t.lexeme = .newline)
    (ha : parseTokens (as ++ [e]) name = .ok a) (hb : parseTokens (bs ++ [e']) name' = .ok b)
    (joined : String) :
    ∃ m, parseTokens (as ++ [t] ++ bs ++ [last]) joined = .ok m ∧ m.imports = a.imports ∧
      m.functions = a.functions ∧ m.statements = a.statements ++ b.statements := by
  obtain ⟨c, rest, hc, rfl⟩ := parseTokens_eq_ok.1 ha
  obtain ⟨d, rest', hd, rfl⟩ := parseTokens_eq_ok.1 hb
  have hempty : d.append {} = d := by simp [Contents.append]
  have hbehind : ∀ {stage ends n}, (bs ++ [last]).length ≤ n →
      contents n stage ends (bs ++ [last]) = .ok d [] := by
    intro stage ends n hn
    have hfound := contents_continued he' (continues_end hlast) hd hbs hn ends
    rw [hempty] at hfound
    refine contents_stage (fun u hu => ?_) hfound
    rcases List.mem_append.1 hu with hu | hu
    · exact hplain u hu
    · obtain rfl := List.mem_singleton.1 hu
      simp [hlast]
  obtain ⟨himports, hfunctions⟩ := contents_statements (@hbehind .statements none _ (Nat.le_refl _))
  have hjoined := contents_continued he (continues_newline ht hbehind) hc has (Nat.le_refl _)
    (Token.endOf (as ++ t :: (bs ++ [last])))
  refine ⟨(c.append d).named joined, ?_, ?_, ?_, rfl⟩
  · refine parseTokens_eq_ok.2 ⟨c.append d, [], ?_, rfl⟩
    simpa using hjoined
  · simp [Contents.named, Contents.append, himports]
  · simp [Contents.named, Contents.append, hfunctions]

/-- A branch ends the first module, and the second one does not go on with it. -/
theorem parseTokens_append_branch :
    ∃ m, parseTokens ([.keyword .branch, .identifier (.simple "x"), .symbol .lbrace,
        .symbol .rbrace, .newline, .identifier (.simple "y"), .endOfInput].map
          (Token.plain · none)) "main" = .ok m ∧
      m.imports = [] ∧ m.functions = [] ∧
      m.statements = [.branch (.name (.simple "x")) [] none, .expression (.name (.simple "y"))] := by
  let as : List Token := [.keyword .branch, .identifier (.simple "x"), .symbol .lbrace,
    .symbol .rbrace].map (Token.plain · none)
  let bs : List Token := [.plain (.identifier (.simple "y")) none]
  let last : Token := .plain .endOfInput none
  have ha : parseTokens (as ++ [last]) "main" =
      .ok ⟨.simple "main", [], [], [.branch (.name (.simple "x")) [] none]⟩ := rfl
  have hb : parseTokens (bs ++ [last]) "main" =
      .ok ⟨.simple "main", [], [], [.expression (.name (.simple "y"))]⟩ := rfl
  have has : Endless as := by simp [as, Endless, Token.plain]
  have hbs : Endless bs := by simp [bs, Endless, Token.plain]
  have hplain : ∀ u ∈ bs, u.lexeme ≠ .keyword .importing ∧ u.lexeme ≠ .keyword .function := by
    simp [bs, Token.plain]
  have hlast : last.lexeme = .endOfInput := rfl
  have hnew : (Token.plain .newline none).lexeme = .newline := rfl
  exact parseTokens_append has hbs hplain hlast hlast hlast hnew ha hb "main"

end Pasture.Grammar
