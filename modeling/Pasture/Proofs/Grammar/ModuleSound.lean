import Pasture.Proofs.Grammar.StatementSound

/-! # What the parser of modules reads

A module that is read is well formed, and what was taken for it is one of its derivations: nothing is
lost, invented or moved.
-/
namespace Pasture.Grammar

open Pasture.Parser

variable {n : Nat} {ends : Option Span} {ts rest : List Token}

theorem identifier_laid {what : Expectation} {i : Identifier}
    (h : identifier what ends ts = .ok i rest) : Laid ts [.word (.identifier i)] rest := by
  obtain ⟨t, ht, rfl⟩ := identifier_eq_ok.1 h
  exact .one ht (by simp) rest

theorem skip_laid {k : Kind} {l : Lexeme} (hk : ∀ t : Token, t.kind = k → t.lexeme = l)
    (hl : l ≠ .newline) (h : skip k ends ts = .ok true rest) : Laid ts [.word l] rest := by
  obtain ⟨t, ht, rfl⟩ := skip_eq_true.1 h
  exact .one (hk t ht) hl rest

theorem parameter_reads (n : Nat) :
    ReadsItems n (fun _ => True) (fun p ls => ls = Parameter.print p) parameter := by
  intro ends ts p rest _ h
  obtain ⟨name, mid, h₁, h₂⟩ := bind_eq_ok.1 h
  obtain ⟨i, hi, rfl⟩ := identifier_eq_ok.1 h₁
  obtain ⟨u, mid', h₃, h₄⟩ := bind_eq_ok.1 h₂
  obtain ⟨c, hc, rfl⟩ := expect_eq_ok.1 h₃
  obtain ⟨type, mid'', h₅, h₆⟩ := bind_eq_ok.1 h₄
  obtain ⟨k, hk, rfl⟩ := identifier_eq_ok.1 h₅
  cases h₆
  rw [Token.kind_eq_symbol] at hc
  exact ⟨trivial, _, ⟨[i, c, k], rfl, rfl⟩, by simp [Parameter.print, hi, hc, hk]⟩

theorem parameters_reads {ps : List Parameter} (h : parameters ends ts = .ok ps rest) :
    Laid ts (List.map .word (.symbol .lparen :: commaJoin (ps.map Parameter.print) ++
      [.symbol .rparen])) rest := by
  obtain ⟨u, mid, h₁, h₂⟩ := bind_eq_ok.1 h
  have hopen := expect_laid (fun t ht => Token.kind_eq_symbol.1 ht) (by simp) h₁
  have hne : ∀ (p : Parameter) (ls : List Lexeme), ls = p.print → ls ≠ [] := by
    rintro p ls rfl
    simp [Parameter.print]
  obtain ⟨-, parts, ls, hlen, hparts, hbroken, htook⟩ :=
    listItems_reads hne (parameter_reads _) (Nat.le_refl _) (Nat.le_refl _) h₂
  have hsolid : parts.map solid = ps.map Parameter.print := by
    refine (map_eq_map_of_zip hlen fun p hp => ?_).symm
    rw [hparts p hp]
    rfl
  have hitems := Laid.of_took htook
  rw [solid_append, hbroken.solid, hsolid] at hitems
  simpa [solid_cons] using hopen.trans hitems

theorem resultType_reads {type : Option Identifier} (h : resultType ends ts = .ok type rest) :
    Laid ts ((Function.printResult type).map .word) rest := by
  obtain ⟨given, mid, h₁, h₂⟩ := bind_eq_ok.1 h
  cases given with
  | false =>
    obtain ⟨rfl, -⟩ := skip_eq_false.1 h₁
    cases h₂
    exact .refl _
  | true =>
    have hcolon := skip_laid (fun t ht => Token.kind_eq_symbol.1 ht) (by simp) h₁
    obtain ⟨i, mid', h₃, h₄⟩ := bind_eq_ok.1 h₂
    cases h₄
    exact hcolon.trans (identifier_laid h₃)

theorem function_reads {f : Function} {w : Token} (hw : w.lexeme = .keyword .function)
    (hts : ∀ t ∈ ts, t.Fits) (h : function ends ts = .ok f rest) :
    ∃ ms, f.Derives ms ∧ Laid (w :: ts) ms rest := by
  obtain ⟨name, mid₁, h₁, h₂⟩ := bind_eq_ok.1 h
  obtain ⟨parameters, mid₂, h₃, h₄⟩ := bind_eq_ok.1 h₂
  obtain ⟨type, mid₃, h₅, h₆⟩ := bind_eq_ok.1 h₄
  have hhead := ((identifier_laid h₁).trans (parameters_reads h₃)).trans (resultType_reads h₅)
  obtain ⟨body, mid₄, h₇, h₈⟩ := bind_eq_ok.1 h₆
  obtain ⟨bs, hbody, hblock⟩ := block_reads (fun t ht => hts t (hhead.mem ht)) h₇
  cases h₈
  refine ⟨_, ⟨bs, hbody, rfl⟩, ?_⟩
  simpa using ((Laid.one hw (by simp) ts).trans hhead).trans hblock

theorem importedName_reads {p : Identifier × Identifier}
    (h : importedName ends ts = .ok p rest) :
    ∃ ls, Import.Named p ls ∧ Laid ts (ls.map .word) rest := by
  obtain ⟨name, mid, h₁, h₂⟩ := bind_eq_ok.1 h
  have hname := identifier_laid h₁
  obtain ⟨renamed, mid', h₃, h₄⟩ := bind_eq_ok.1 h₂
  cases renamed with
  | false =>
    obtain ⟨rfl, -⟩ := skip_eq_false.1 h₃
    cases h₄
    exact ⟨_, .bare name, hname⟩
  | true =>
    have has := skip_laid (fun t ht => Token.kind_eq_keyword.1 ht) (by simp) h₃
    obtain ⟨localName, later, h₅, h₆⟩ := bind_eq_ok.1 h₄
    cases h₆
    exact ⟨_, .renamed name localName, (hname.trans has).trans (identifier_laid h₅)⟩

theorem importedNames_reads {ps : List (Identifier × Identifier)}
    (h : importedNames n ends ts = .ok ps rest) :
    ∃ ls, Import.Names ps ls ∧ Laid ts (ls.map .word) rest := by
  induction n generalizing ts ps with
  | zero => cases h
  | succ n ih =>
    obtain ⟨p, mid, h₁, h₂⟩ := bind_eq_ok.1 h
    obtain ⟨ls, hp, hname⟩ := importedName_reads h₁
    obtain ⟨more, mid', h₃, h₄⟩ := bind_eq_ok.1 h₂
    cases more with
    | false =>
      obtain ⟨rfl, -⟩ := skip_eq_false.1 h₃
      cases h₄
      exact ⟨ls, .one hp, hname⟩
    | true =>
      have hcomma := skip_laid (fun t ht => Token.kind_eq_symbol.1 ht) (by simp) h₃
      obtain ⟨ps, later, h₅, h₆⟩ := bind_eq_ok.1 h₄
      cases h₆
      obtain ⟨ks, hps, hnames⟩ := ih h₅
      refine ⟨_, .more hp hps, ?_⟩
      simpa using (hname.trans hcomma).trans hnames

theorem importEntry_reads {is : List Import} (h : importEntry n ends ts = .ok is rest) :
    ∃ ls, Import.Entry is ls ∧ Laid ts (ls.map .word) rest := by
  obtain ⟨ps, mid, h₁, h₂⟩ := bind_eq_ok.1 h
  obtain ⟨ls, hps, hnames⟩ := importedNames_reads h₁
  obtain ⟨origin, mid', h₃, h₄⟩ := bind_eq_ok.1 h₂
  cases origin with
  | false =>
    obtain ⟨rfl, -⟩ := skip_eq_false.1 h₃
    cases h₄
    exact ⟨ls, .whole hps, hnames⟩
  | true =>
    have hfrom := skip_laid (fun t ht => Token.kind_eq_keyword.1 ht) (by simp) h₃
    obtain ⟨origin, later, h₅, h₆⟩ := bind_eq_ok.1 h₄
    cases h₆
    refine ⟨_, .part origin hps, ?_⟩
    simpa using (hnames.trans hfrom).trans (identifier_laid h₅)

theorem importEntries_reads {is : List Import} (h : importEntries n ends ts = .ok is rest) :
    ∃ ms, Import.Entries is ms ∧ Laid ts (ms ++ [.word (.symbol .rbrace)]) rest := by
  induction n generalizing ts is with
  | zero => cases h
  | succ n ih =>
    obtain ⟨u, mid, h₁, h₂⟩ := bind_eq_ok.1 h
    cases h₁
    have hnewlines := Laid.newlines ts
    obtain ⟨closed, mid, h₃, h₄⟩ := bind_eq_ok.1 h₂
    cases closed with
    | true =>
      cases h₄
      exact ⟨[], .nil,
        hnewlines.trans (skip_laid (fun t ht => Token.kind_eq_symbol.1 ht) (by simp) h₃)⟩
    | false =>
      obtain ⟨rfl, -⟩ := skip_eq_false.1 h₃
      obtain ⟨entry, mid, h₅, h₆⟩ := bind_eq_ok.1 h₄
      obtain ⟨ls, hentry, hlaid⟩ := importEntry_reads h₅
      have htaken := hnewlines.trans hlaid
      obtain ⟨broken, mid', h₇, h₈⟩ := bind_eq_ok.1 h₆
      cases broken with
      | true =>
        obtain ⟨t, ht, rfl⟩ := skip_eq_true.1 h₇
        rw [Token.kind_eq_newline] at ht
        obtain ⟨js, later, h₉, h₁₀⟩ := bind_eq_ok.1 h₈
        cases h₁₀
        obtain ⟨ms, hjs, hrest⟩ := ih h₉
        refine ⟨_, .cons hentry hjs, ?_⟩
        simpa using htaken.trans (.entryEnd (.inl ht) (hrest.newline_before ht))
      | false =>
        obtain ⟨rfl, -⟩ := skip_eq_false.1 h₇
        obtain ⟨ending, mid, h₉, h₁₀⟩ := bind_eq_ok.1 h₈
        cases h₉
        split at h₁₀
        · rename_i hseen
          obtain ⟨t, ht, hk⟩ := (Option.any_eq_true _ _).1 hseen
          obtain ⟨us, rfl⟩ := List.head?_eq_some_iff.1 ht
          have hbrace : t.lexeme = .symbol .rbrace := by simpa using hk
          obtain ⟨js, later, h₁₁, h₁₂⟩ := bind_eq_ok.1 h₁₀
          cases h₁₂
          obtain ⟨ms, hjs, hrest⟩ := ih h₁₁
          refine ⟨_, .cons hentry hjs, ?_⟩
          simpa using htaken.trans (.entryEnd (.inr hbrace) hrest)
        · cases h₁₀

theorem imports_reads {is : List Import} {w : Token} (hw : w.lexeme = .keyword .importing)
    (h : imports ends ts = .ok is rest) : ∃ ms, Import.Block is ms ∧ Laid (w :: ts) ms rest := by
  obtain ⟨u, mid, h₁, h₂⟩ := bind_eq_ok.1 h
  have hopen := expect_laid (fun t ht => Token.kind_eq_symbol.1 ht) (by simp) h₁
  obtain ⟨ms, hentries, hlaid⟩ := importEntries_reads h₂
  refine ⟨_, .some hentries, ?_⟩
  simpa using ((Laid.one hw (by simp) ts).trans hopen).trans hlaid

inductive Contents.Derives : Stage → Contents → List Mark → Prop where
  | finish {stage} : Derives stage {} [.word .endOfInput]
  | statement {stage s ms c ns} : Statement.Derives [s] ms → Derives .statements c ns →
      Derives stage { c with statements := s :: c.statements } (ms ++ ns)
  | function {stage f ms c ns} : stage ≠ .statements → Function.Derives f ms →
      Derives .definitions c ns → Derives stage { c with functions := f :: c.functions } (ms ++ ns)
  | imports {is ms c ns} : Import.Block is ms → Derives .definitions c ns →
      Derives .opening { c with imports := is ++ c.imports } (ms ++ ns)

/-- The imports come first, then the functions, then the statements. -/
theorem Contents.Derives.parts {stage : Stage} {c : Contents} {ms : List Mark}
    (h : Contents.Derives stage c ms) :
    ∃ is fs ss, Import.Block c.imports is ∧ Function.DerivesEach c.functions fs ∧
      Statement.Derives c.statements ss ∧ ms = is ++ fs ++ ss ++ [.word .endOfInput] ∧
      (stage ≠ .opening → c.imports = [] ∧ is = []) ∧
      (stage = .statements → c.functions = [] ∧ fs = []) := by
  induction h with
  | finish => exact ⟨[], [], [], .none, .nil, .nil, rfl, by simp, by simp⟩
  | @statement stage s ms c ns hs _ ih =>
    obtain ⟨is, fs, ss, -, -, hss, rfl, hopening, hdefined⟩ := ih
    obtain ⟨himports, rfl⟩ := hopening (by simp)
    obtain ⟨hfunctions, rfl⟩ := hdefined rfl
    refine ⟨[], [], ms ++ ss, ?_, ?_, hs.append hss, by simp, by simp [himports],
      by simp [hfunctions]⟩
    · simpa [himports] using Import.Block.none
    · simpa [hfunctions] using Function.DerivesEach.nil
  | @function stage f ms c ns hstage hf _ ih =>
    obtain ⟨is, fs, ss, -, hfs, hss, rfl, hopening, -⟩ := ih
    obtain ⟨himports, rfl⟩ := hopening (by simp)
    refine ⟨[], ms ++ fs, ss, ?_, .cons hf hfs, hss, by simp, by simp [himports],
      fun h => absurd h hstage⟩
    simpa [himports] using Import.Block.none
  | @imports is ms c ns hi _ ih =>
    obtain ⟨is', fs, ss, -, hfs, hss, rfl, hopening, -⟩ := ih
    obtain ⟨himports, rfl⟩ := hopening (by simp)
    exact ⟨ms, fs, ss, by simpa [himports] using hi, hfs, hss, by simp, by simp, by simp⟩

theorem contents_reads {stage : Stage} {c : Contents} (hts : ∀ t ∈ ts, t.Fits)
    (h : contents n stage ends ts = .ok c rest) :
    ∃ ms, Contents.Derives stage c ms ∧ Laid ts ms rest := by
  induction n generalizing stage ts c with
  | zero => cases h
  | succ n ih =>
    obtain ⟨first, mid, h₁, h₂⟩ := bind_eq_ok.1 h
    cases h₁
    cases ts with
    | nil => cases h₂
    | cons t ts =>
      have hrest : ∀ u ∈ ts, u.Fits := fun u hu => hts u (List.mem_cons_of_mem _ hu)
      have hitem : (do
          let s ← item
          let rest ← contents n .statements
          return { rest with statements := s :: rest.statements } : Parser Contents) ends (t :: ts) =
          .ok c rest → ∃ ms, Contents.Derives stage c ms ∧ Laid (t :: ts) ms rest := by
        intro h₃
        obtain ⟨s, mid, h₄, h₅⟩ := bind_eq_ok.1 h₃
        obtain ⟨ms, hs, hlaid⟩ := item_reads hts h₄
        obtain ⟨c, mid', h₆, h₇⟩ := bind_eq_ok.1 h₅
        cases h₇
        obtain ⟨ns, hc, hlaid'⟩ := ih (fun u hu => hts u (hlaid.mem hu)) h₆
        exact ⟨ms ++ ns, .statement hs hc, hlaid.trans hlaid'⟩
      simp only [List.head?_cons, Option.map_some] at h₂
      cases ht : t.lexeme with
      | newline =>
        simp only [ht] at h₂
        obtain ⟨t', mid, h₃, h₄⟩ := bind_eq_ok.1 h₂
        cases h₃
        obtain ⟨ms, hc, hlaid⟩ := ih hrest h₄
        exact ⟨ms, hc, hlaid.newline_before ht⟩
      | endOfInput =>
        simp only [ht] at h₂
        obtain ⟨t', mid, h₃, h₄⟩ := bind_eq_ok.1 h₂
        cases h₃
        cases h₄
        exact ⟨_, .finish, .one ht (by simp) _⟩
      | keyword k =>
        simp only [ht] at h₂
        cases k with
        | importing =>
          by_cases hstage : stage = .opening
          · simp only [hstage, if_true] at h₂
            obtain ⟨t', mid, h₃, h₄⟩ := bind_eq_ok.1 h₂
            cases h₃
            obtain ⟨is, mid', h₅, h₆⟩ := bind_eq_ok.1 h₄
            obtain ⟨ms, hi, hlaid⟩ := imports_reads ht h₅
            obtain ⟨c, later, h₇, h₈⟩ := bind_eq_ok.1 h₆
            cases h₈
            obtain ⟨ns, hc, hlaid'⟩ := ih (fun u hu => hts u (hlaid.mem hu)) h₇
            exact ⟨ms ++ ns, hstage ▸ .imports hi hc, hlaid.trans hlaid'⟩
          · simp only [hstage, if_false] at h₂
            cases h₂
        | function =>
          by_cases hstage : stage = .statements
          · simp only [hstage, if_true] at h₂
            cases h₂
          · simp only [hstage, if_false] at h₂
            obtain ⟨t', mid, h₃, h₄⟩ := bind_eq_ok.1 h₂
            cases h₃
            obtain ⟨f, mid', h₅, h₆⟩ := bind_eq_ok.1 h₄
            obtain ⟨ms, hf, hlaid⟩ := function_reads ht hrest h₅
            obtain ⟨c, later, h₇, h₈⟩ := bind_eq_ok.1 h₆
            cases h₈
            obtain ⟨ns, hc, hlaid'⟩ := ih (fun u hu => hts u (hlaid.mem hu)) h₇
            exact ⟨ms ++ ns, .function hstage hf hc, hlaid.trans hlaid'⟩
        | _ => exact hitem h₂
      | symbol b =>
        simp only [ht] at h₂
        cases b with
        | rbrace => cases h₂
        | _ => exact hitem h₂
      | _ =>
        simp only [ht] at h₂
        exact hitem h₂

/-- What is read as a module is well formed, and written as one of its derivations tells: without
its line breaks it is the words in their order, a simple statement is right in front of a newline,
a closing brace or the end, and an import entry is right in front of a newline or a brace. -/
theorem module_sound {m : Module} {name : String} (hts : ∀ t ∈ ts, t.Fits)
    (h : moduleNamed name ends ts = .ok m rest) :
    m.name = .simple name ∧ m.WellFormed ∧ ∃ read ms, ts = read ++ rest ∧ m.Derives ms ∧
      solid (read.map Token.lexeme) = Mark.words ms ∧ Laid ts ms rest := by
  obtain ⟨c, mid, h₁, h₂⟩ := bind_eq_ok.1 h
  cases h₂
  obtain ⟨ms, hc, hlaid⟩ := contents_reads hts h₁
  obtain ⟨is, fs, ss, hi, hf, hs, hms, -⟩ := hc.parts
  obtain ⟨read, hread, hwords⟩ := hlaid.read_eq
  have hm : Module.Derives ⟨.simple name, c.imports, c.functions, c.statements⟩ ms :=
    ⟨is, fs, ss, hi, hf, hs, hms⟩
  exact ⟨rfl, hm.wellFormed, read, ms, hread, hm, hwords, hlaid⟩

def increment : List Token :=
  [.identifier (.simple "x"), .fused .plus, .literal (.integer 1), .newline, .endOfInput].map
    (Token.plain · none)

theorem increment_sound :
    ∃ m, moduleNamed "main" none increment = .ok m [] ∧ m.WellFormed ∧
      ∃ ms, m.Derives ms ∧ solid (increment.map Token.lexeme) = Mark.words ms := by
  have hfits : ∀ t ∈ increment, t.Fits := by
    simp [increment, Token.Fits, Token.plain, Operator.isAssignable]
  have hread : moduleNamed "main" none increment =
      .ok ⟨.simple "main", [], [], [.assignment (.name (.simple "x"))
        (.binary (.name (.simple "x")) .plus (.literal (.integer 1)))]⟩ [] := rfl
  obtain ⟨-, hm, read, ms, hsplit, hderives, hwords, -⟩ := module_sound hfits hread
  refine ⟨_, hread, hm, ms, hderives, ?_⟩
  rw [hsplit, List.append_nil]
  exact hwords

end Pasture.Grammar
