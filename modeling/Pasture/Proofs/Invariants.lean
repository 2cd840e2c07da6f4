import Pasture.Proofs.Grammar.ModuleSound
import Pasture.Proofs.Grammar.Places
import Pasture.Proofs.Lexing.Lexemes
import Pasture.Proofs.Token.Normal

/-! # What holds of every module

A text is read into lexemes whose values are in their ranges, dotted names are made of such names,
and a module is made of the lexemes that it was read from. So every part of a module that a text
spells out is as it should be.
-/
namespace Pasture

open Lexing

/-- Each segment is a name and no reserved word, and what is not simple has two of them at least. -/
structure Identifier.Valid (i : Identifier) : Prop where
  segment : ∀ s ∈ i.segments, IsName s.toList ∧ ¬IsReserved s.toList
  compound : ¬i.isSimple → 2 ≤ i.segments.length

/-- An integer is in its range, a character is one character, and no value is missing. -/
def Literal.Valid : Literal → Prop
  | .integer n => 0 ≤ n ∧ n ≤ maxInteger
  | .char value => ∃ c : Char, value = some c.toString
  | .string value => value ≠ Option.none
  | .boolean value => value ≠ Option.none
  | .float _ | .none => True

def Operator.IsPrefix (op : Operator) : Prop := op ∈ [.plus, .minus, .not, .bitNot]

def Operator.IsInfix (op : Operator) : Prop :=
  ∃ row ∈ precedence, (row.fixity = .left ∨ row.fixity = .right) ∧ op ∈ row.operators

inductive Expr.Valid : Expr → Prop where
  | ternary {condition whenTrue whenFalse} : Valid condition → Valid whenTrue → Valid whenFalse →
      Valid (.ternary condition whenTrue whenFalse)
  | binary {left op right} : Valid left → op.IsInfix → Valid right → Valid (.binary left op right)
  | unary {op operand} : op.IsPrefix → Valid operand → Valid (.unary op operand)
  | literal {value} : value.Valid → Valid (.literal value)
  | name {i} : i.Valid → Valid (.name i)
  | call {callee arguments} : callee.Valid → (∀ e ∈ arguments, Valid e) →
      Valid (.call callee arguments)
  | group {inner} : Valid inner → Valid (.group inner)
  | array {elements} : (∀ e ∈ elements, Valid e) → Valid (.array elements)
  | single {base value} : Valid base → Valid value → Valid (.element base (.single value))
  | slice {base start stop} : Valid base → (∀ e ∈ start, Valid e) → (∀ e ∈ stop, Valid e) →
      Valid (.element base (.slice start stop))

inductive Expr.Assignable : Expr → Prop where
  | name (i) : Assignable (.name i)
  | element {base} (index) : Assignable base → Assignable (.element base index)

inductive Statement.Valid : Statement → Prop where
  | declaration {name type value isMutable} : (Identifier.simple name).Valid → type.Valid →
      value.Valid → Valid (.declaration (.simple name) type value isMutable)
  | assignment {target value} : target.expr.Assignable → target.expr.Valid → value.Valid →
      Valid (.assignment target value)
  | expression {value} : value.Valid → Valid (.expression value)
  | result {value} : (∀ e ∈ value, e.Valid) → Valid (.result value)
  | branch {condition body otherwise} : condition.Valid → (∀ s ∈ body, Valid s) →
      (∀ block ∈ otherwise, ∀ s ∈ block, Valid s) → Valid (.branch condition body otherwise)
  | loop {condition body} : condition.Valid → (∀ s ∈ body, Valid s) → Valid (.loop condition body)

structure Parameter.Valid (p : Parameter) : Prop where
  name : p.name.Valid
  type : p.type.Valid

structure Function.Valid (f : Function) : Prop where
  name : f.name.Valid
  parameters : ∀ p ∈ f.parameters, p.Valid
  resultType : ∀ type ∈ f.resultType, type.Valid
  body : ∀ s ∈ f.body, s.Valid

structure Import.Valid (i : Import) : Prop where
  name : i.name.Valid
  localName : i.localName.Valid
  origin : i.origin.Valid

/-- The name of the module is not read from the text. -/
structure Module.Valid (m : Module) : Prop where
  imports : ∀ i ∈ m.imports, i.Valid
  functions : ∀ f ∈ m.functions, f.Valid
  statements : ∀ s ∈ m.statements, s.Valid

def Lexeme.Valid : Lexeme → Prop
  | .literal l => l.Valid
  | .identifier i => i.Valid
  | .fused op => op.isAssignable
  | _ => True

section Lexemes

theorem Identifier.Valid.of_segments {i : Identifier}
    (h : ∀ s ∈ i.segments, IsName s.toList ∧ ¬IsReserved s.toList) : i.Valid := by
  refine ⟨h, ?_⟩
  obtain ⟨head, tail⟩ := i
  cases tail with
  | nil => exact fun hsimple => absurd rfl hsimple
  | cons s tail => simp [segments]

theorem Identifier.Valid.join {i j : Identifier} (hi : i.Valid) (hj : j.Valid) :
    (i.join j).Valid := by
  apply of_segments
  intro s hs
  rw [segments_join] at hs
  rcases List.mem_append.1 hs with hs | hs
  · exact hi.segment s hs
  · exact hj.segment s hs

theorem Lexing.Written.valid {l : Lexeme} {text : List Char} (h : Written l text) : l.Valid := by
  cases h with
  | fused hop => exact hop
  | value hvalue =>
    simp only [Literal.words, List.mem_cons, Prod.mk.injEq, List.not_mem_nil, or_false] at hvalue
    rcases hvalue with ⟨-, rfl⟩ | ⟨-, rfl⟩ | ⟨-, rfl⟩
    · exact Option.some_ne_none _
    · exact Option.some_ne_none _
    · trivial
  | name hname hfree =>
    apply Identifier.Valid.of_segments
    intro s hs
    obtain rfl : s = String.ofList text := by
      simpa [Identifier.simple, Identifier.segments] using hs
    rw [String.toList_ofList]
    exact ⟨hname, hfree⟩
  | integer _ _ _ _ hvalue => exact ⟨Int.natCast_nonneg _, Int.ofNat_le.2 hvalue⟩
  | string items _ => exact Option.some_ne_none _
  | character item _ => exact ⟨item.value, rfl⟩
  | _ => trivial

/-- The tokens of a text are its lexemes, newlines and the end. -/
theorem Lexing.tokensOf_valid {file : String} {place : Position} {fresh : Bool} {text : List Char}
    {ps : List Piece} (h : Cuts text ps) :
    ∀ t ∈ tokensOf file place fresh ps, t.lexeme.Valid := by
  induction h generalizing place fresh with
  | nil => exact List.forall_mem_nil _
  | @cons c cs p rest ps hfirst _ ih =>
    simp only [tokensOf]
    split
    · rename_i l hl
      exact List.forall_mem_cons.2 ⟨(Piece.written_of_first hfirst hl).valid, ih⟩
    · split
      · exact List.forall_mem_cons.2 ⟨trivial, ih⟩
      · exact ih
    · exact ih
    · exact ih

theorem Lexing.lex_valid {source file : String} {tokens : List Token}
    (h : lex source file = .ok tokens) : ∀ t ∈ tokens, t.lexeme.Valid := by
  obtain ⟨hfault, rfl⟩ := lex_eq_ok.1 h
  refine List.forall_mem_append.2 ⟨tokensOf_valid (scan_cuts hfault), ?_⟩
  exact List.forall_mem_singleton.2 trivial

end Lexemes

namespace Normal

variable {ts out : List Token}

def Open.Valid : Open → Prop
  | .nothing => True
  | .name chain | .dotted chain _ => chain.name.Valid

theorem Chain.token_valid {chain : Chain} (h : chain.name.Valid) : chain.token.lexeme.Valid := h

/-- By induction on the stream: the name that is open is made of names that were read. -/
theorem fuse_valid {o : Open} (ho : o.Valid) (hts : ∀ t ∈ ts, t.lexeme.Valid)
    (h : fuse o ts = .ok out) : ∀ t ∈ out, t.lexeme.Valid := by
  fun_induction fuse o ts generalizing out with
  | case1 =>
    cases h
    exact List.forall_mem_nil _
  | case2 chain =>
    cases h
    exact List.forall_mem_singleton.2 (Chain.token_valid ho)
  | case3 | case10 => cases h
  | case4 t ts i hi ih =>
    obtain ⟨ht, hts⟩ := List.forall_mem_cons.1 hts
    rw [hi] at ht
    exact ih ht hts h
  | case5 t ts _ ih =>
    obtain ⟨ht, hts⟩ := List.forall_mem_cons.1 hts
    obtain ⟨rest, hrest, rfl⟩ := map_cons_ok h
    exact List.forall_mem_cons.2 ⟨ht, ih trivial hts hrest⟩
  | case6 chain t ts _ ih =>
    exact ih ho (List.forall_mem_cons.1 hts).2 h
  | case7 chain t ts i hi ih =>
    obtain ⟨ht, hts⟩ := List.forall_mem_cons.1 hts
    rw [hi] at ht
    obtain ⟨rest, hrest, rfl⟩ := map_cons_ok h
    exact List.forall_mem_cons.2 ⟨Chain.token_valid ho, ih ht hts hrest⟩
  | case8 chain t ts _ _ ih =>
    obtain ⟨ht, hts⟩ := List.forall_mem_cons.1 hts
    obtain ⟨both, hboth, rfl⟩ := map_cons_ok ((comp_map _ _ _).symm.trans h)
    obtain ⟨rest, hrest, rfl⟩ := map_cons_ok hboth
    exact List.forall_mem_cons.2 ⟨Chain.token_valid ho,
      List.forall_mem_cons.2 ⟨ht, ih trivial hts hrest⟩⟩
  | case9 chain dot t ts i hi ih =>
    obtain ⟨ht, hts⟩ := List.forall_mem_cons.1 hts
    rw [hi] at ht
    exact ih (Identifier.Valid.join ho ht) hts h

end Normal

theorem tokenise_valid {source file : String} {tokens : List Token}
    (h : tokenise source file = .ok tokens) : ∀ t ∈ tokens, t.lexeme.Valid := by
  unfold tokenise at h
  cases hlex : lex source file with
  | error failure =>
    rw [hlex] at h
    cases h
  | ok raw =>
    rw [hlex] at h
    cases hnormal : normalise raw with
    | error e =>
      simp only [bind, Except.bind, hnormal] at h
      cases h
    | ok out =>
      simp only [bind, Except.bind, hnormal, Except.mapError] at h
      cases h
      refine Normal.fuse_valid (o := .nothing) trivial ?_ hnormal
      intro t ht
      exact lex_valid hlex t (Normal.mem_of_mem_elide false ht)

section Trees

variable {l : Lexeme}

theorem mem_commaJoin {parts : List (List Lexeme)} {part : List Lexeme} (hpart : part ∈ parts)
    (hl : l ∈ part) : l ∈ commaJoin parts := by
  induction parts with
  | nil => cases hpart
  | cons first parts ih =>
    cases parts with
    | nil =>
      obtain rfl := List.mem_singleton.1 hpart
      exact hl
    | cons second parts =>
      rw [commaJoin]
      rcases List.mem_cons.1 hpart with rfl | hpart
      · exact List.mem_append_left _ hl
      · exact List.mem_append_right _ (List.mem_cons_of_mem _ (ih hpart))
      · simp

def Place.Listed : Place → Prop
  | .whole => True
  | .rows rs => rs <:+ precedence

theorem isPrefix_of_row {row : PrecedenceRow} {op : Operator} (hrow : row ∈ precedence)
    (hfixity : row.fixity = .pre) (hop : op ∈ row.operators) : op.IsPrefix := by
  have hrows : precedence.all fun r => r.fixity != .pre ||
      r.operators.all fun o => [Operator.plus, .minus, .not, .bitNot].contains o := by decide
  have hall : ∀ o ∈ row.operators, o.IsPrefix := by
    simpa [hfixity, Operator.IsPrefix] using List.all_eq_true.1 hrows row hrow
  exact hall op hop

/-- By induction on where the expression stands; its lexemes are those of its parts. -/
theorem Expr.Stands.valid {place : Place} {e : Expr} (h : e.Stands place) (hplace : place.Listed)
    (hls : ∀ l ∈ e.yield, l.Valid) : e.Valid := by
  have hitems : ∀ {es : List Expr}, (∀ l ∈ commaJoin (yieldEach es), l.Valid) →
      ∀ e ∈ es, ∀ l ∈ e.yield, l.Valid := by
    intro es hes e he l hl
    refine hes l (mem_commaJoin ?_ hl)
    rw [yieldEach_eq_map]
    exact List.mem_map_of_mem he
  have hbound : ∀ {limit : Option Expr}, (∀ l ∈ yieldBound limit, l.Valid) →
      ∀ e ∈ limit, ∀ l ∈ e.yield, l.Valid := by
    rintro _ hlimit e rfl
    exact hlimit
  have htail : ∀ {row rows}, (Place.rows (row :: rows)).Listed →
      row ∈ precedence ∧ (Place.rows rows).Listed := by
    intro row rows hrows
    exact ⟨hrows.subset List.mem_cons_self, (List.suffix_cons row rows).trans hrows⟩
  induction h with
  | ternary _ _ _ hc ht hf =>
    simp only [yield, List.forall_mem_append, List.forall_mem_cons] at hls
    obtain ⟨⟨hls, -, hks⟩, -, hms⟩ := hls
    exact .ternary (hc List.suffix_rfl hls) (ht trivial hks) (hf trivial hms)
  | operand _ ih => exact ih List.suffix_rfl hls
  | tighter _ ih => exact ih (htail hplace).2 hls
  | left hfixity hop _ _ hl hr =>
    simp only [yield, List.forall_mem_append, List.forall_mem_cons] at hls
    obtain ⟨hrow, hrows⟩ := htail hplace
    exact .binary (hl hplace hls.1) ⟨_, hrow, .inl hfixity, hop⟩ (hr hrows hls.2.2)
  | right hfixity hop _ _ hl hr =>
    simp only [yield, List.forall_mem_append, List.forall_mem_cons] at hls
    obtain ⟨hrow, hrows⟩ := htail hplace
    exact .binary (hl hrows hls.1) ⟨_, hrow, .inr hfixity, hop⟩ (hr hplace hls.2.2)
  | unary hfixity hop _ ih =>
    simp only [yield, List.forall_mem_cons] at hls
    exact .unary (isPrefix_of_row (htail hplace).1 hfixity hop) (ih hplace hls.2)
  | literal value => exact .literal (hls _ List.mem_cons_self)
  | name i => exact .name (hls _ List.mem_cons_self)
  | call _ ih =>
    simp only [yield, List.forall_mem_append, List.forall_mem_cons] at hls
    obtain ⟨⟨hcallee, -, hes⟩, -⟩ := hls
    exact .call hcallee fun e he => ih e he trivial (hitems hes e he)
  | group _ ih =>
    simp only [yield, List.forall_mem_append, List.forall_mem_cons] at hls
    exact .group (ih trivial hls.1.2)
  | array _ ih =>
    simp only [yield, List.forall_mem_append, List.forall_mem_cons] at hls
    exact .array fun e he => ih e he trivial (hitems hls.1.2 e he)
  | single _ _ hb hv =>
    simp only [yield, yieldIndex, List.forall_mem_append, List.forall_mem_cons] at hls
    obtain ⟨⟨hls, -, hks⟩, -⟩ := hls
    exact .single (hb hplace hls) (hv trivial hks)
  | slice _ _ _ hb hs ht =>
    simp only [yield, yieldIndex, List.forall_mem_append, List.forall_mem_cons] at hls
    obtain ⟨⟨hls, -, hks, -, hms⟩, -⟩ := hls
    exact .slice (hb hplace hls) (fun e he => hs e he trivial (hbound hks e he))
      fun e he => ht e he trivial (hbound hms e he)

theorem Expr.Stands.valid_whole {e : Expr} (h : e.Stands .whole) (hls : ∀ l ∈ e.yield, l.Valid) :
    e.Valid :=
  h.valid trivial hls

theorem Reference.expr_assignable (r : Reference) : r.expr.Assignable := by
  induction r with
  | name i => exact .name i
  | element base index ih => exact .element index ih

/-- An operator that is fused with the sign of an assignment stands between two operands. -/
theorem Operator.isInfix_of_isAssignable {op : Operator} (h : op.isAssignable) : op.IsInfix := by
  have hrows : precedence.any fun r =>
      (r.fixity == .left || r.fixity == .right) && r.operators.contains op := by
    cases op <;> first | decide | cases h
  obtain ⟨row, hrow, hop⟩ := List.any_eq_true.1 hrows
  exact ⟨row, hrow, by simpa using hop⟩

theorem Statement.Line.valid {s : Statement} {ls : List Lexeme} (h : s.Line ls)
    (hls : ∀ l ∈ ls, l.Valid) : s.Valid := by
  cases h with
  | declaration isMutable hv =>
    simp only [List.forall_mem_append, List.forall_mem_cons] at hls
    obtain ⟨-, hname, -, htype, -, hls⟩ := hls
    exact .declaration hname htype (hv.valid_whole hls)
  | @assignment target value ht hv =>
    simp only [List.forall_mem_append, List.forall_mem_cons] at hls
    exact .assignment target.expr_assignable (ht.valid_whole hls.1) (hv.valid_whole hls.2.2)
  | @fused target op right ht hop hr =>
    simp only [List.forall_mem_append, List.forall_mem_cons] at hls
    have htarget := ht.valid_whole hls.1
    have hvalue := hr.valid_whole hls.2.2
    exact .assignment target.expr_assignable htarget
      (.binary htarget (Operator.isInfix_of_isAssignable hop) hvalue)
  | expression hv => exact .expression (hv.valid_whole hls)
  | bare => exact .result nofun
  | result hv =>
    refine .result ?_
    rintro e ⟨⟩
    exact hv.valid_whole fun l hl => hls l (List.mem_cons_of_mem _ hl)

end Trees

section Modules

variable {ms : List Mark}

def Mark.Valid : Mark → Prop
  | .word l => l.Valid
  | _ => True

theorem Mark.valid_of_words (h : ∀ l ∈ words ms, l.Valid) : ∀ m ∈ ms, m.Valid := by
  intro m hm
  cases m with
  | word l => exact h l (List.mem_filterMap.2 ⟨_, hm, rfl⟩)
  | _ => trivial

theorem Mark.forall_mem_word {ls : List Lexeme} :
    (∀ m ∈ ls.map Mark.word, m.Valid) ↔ ∀ l ∈ ls, l.Valid :=
  List.forall_mem_map

/-- By induction on the derivation; a block has its words from its statements. -/
theorem Statement.Derives.valid {ss : List Statement} (h : Derives ss ms)
    (hms : ∀ m ∈ ms, m.Valid) : ∀ s ∈ ss, s.Valid := by
  induction h with
  | nil => exact List.forall_mem_nil _
  | line hline _ ih =>
    simp only [List.forall_mem_append, List.forall_mem_cons, Mark.forall_mem_word] at hms
    exact List.forall_mem_cons.2 ⟨hline.valid hms.1, ih hms.2.2⟩
  | loop hc _ _ hb ih =>
    simp only [List.forall_mem_append, List.forall_mem_cons, Mark.forall_mem_word] at hms
    obtain ⟨⟨⟨-, hls⟩, -, hbs⟩, -, hms⟩ := hms
    exact List.forall_mem_cons.2 ⟨.loop (hc.valid_whole hls) (hb hbs), ih hms⟩
  | branch hc _ _ hb ih =>
    simp only [List.forall_mem_append, List.forall_mem_cons, Mark.forall_mem_word] at hms
    obtain ⟨⟨⟨-, hls⟩, -, hbs⟩, -, hms⟩ := hms
    exact List.forall_mem_cons.2 ⟨.branch (hc.valid_whole hls) (hb hbs) nofun, ih hms⟩
  | otherwise hc _ _ _ hb ho ih =>
    simp only [List.forall_mem_append, List.forall_mem_cons, Mark.forall_mem_word] at hms
    obtain ⟨⟨⟨⟨-, hls⟩, -, hbs⟩, -, -, -, hos⟩, -, hms⟩ := hms
    refine List.forall_mem_cons.2 ⟨.branch (hc.valid_whole hls) (hb hbs) ?_, ih hms⟩
    rintro block ⟨⟩
    exact ho hos
  | elseIf hc _ _ _ hb hi ih =>
    simp only [List.forall_mem_append, List.forall_mem_cons, Mark.forall_mem_word] at hms
    obtain ⟨⟨⟨⟨-, hls⟩, -, hbs⟩, -, -, his⟩, hms⟩ := hms
    refine List.forall_mem_cons.2 ⟨.branch (hc.valid_whole hls) (hb hbs) ?_, ih hms⟩
    rintro block ⟨⟩
    exact hi his

theorem Function.Derives.valid {f : Function} (h : f.Derives ms) (hms : ∀ m ∈ ms, m.Valid) :
    f.Valid := by
  obtain ⟨bs, hbody, rfl⟩ := h
  simp only [List.forall_mem_append, List.forall_mem_cons, Mark.forall_mem_word] at hms
  obtain ⟨⟨⟨⟨-, hname, -, hparameters⟩, -, hresult⟩, -, hbs⟩, -⟩ := hms
  refine ⟨hname, fun p hp => ?_, ?_, hbody.valid hbs⟩
  · have hprint : ∀ l ∈ p.print, l.Valid := fun l hl =>
      hparameters l (mem_commaJoin (List.mem_map_of_mem hp) hl)
    simp only [Parameter.print, List.forall_mem_cons] at hprint
    exact ⟨hprint.1, hprint.2.2.1⟩
  · intro type htype
    rw [Option.mem_def.1 htype] at hresult
    exact hresult _ (List.mem_cons_of_mem _ List.mem_cons_self)

theorem Function.DerivesEach.valid {fs : List Function} (h : DerivesEach fs ms)
    (hms : ∀ m ∈ ms, m.Valid) : ∀ f ∈ fs, f.Valid := by
  induction h with
  | nil => exact List.forall_mem_nil _
  | cons hf _ ih =>
    obtain ⟨hms, hns⟩ := List.forall_mem_append.1 hms
    exact List.forall_mem_cons.2 ⟨hf.valid hms, ih hns⟩

namespace Import

variable {ls : List Lexeme}

theorem Named.valid {p : Identifier × Identifier} (h : Named p ls) (hls : ∀ l ∈ ls, l.Valid) :
    p.1.Valid ∧ p.2.Valid := by
  cases h with
  | bare name =>
    have hname : name.Valid := hls _ List.mem_cons_self
    exact ⟨hname, hname⟩
  | renamed name localName =>
    simp only [List.forall_mem_cons] at hls
    exact ⟨hls.1, hls.2.2.1⟩

theorem Names.valid {ps : List (Identifier × Identifier)} (h : Names ps ls)
    (hls : ∀ l ∈ ls, l.Valid) : ∀ p ∈ ps, p.1.Valid ∧ p.2.Valid := by
  induction h with
  | one hp => exact List.forall_mem_singleton.2 (hp.valid hls)
  | more hp _ ih =>
    simp only [List.forall_mem_append, List.forall_mem_cons] at hls
    exact List.forall_mem_cons.2 ⟨hp.valid hls.1, ih hls.2.2⟩

theorem Entry.valid {is : List Import} (h : Entry is ls) (hls : ∀ l ∈ ls, l.Valid) :
    ∀ i ∈ is, i.Valid := by
  cases h with
  | whole hnames =>
    refine List.forall_mem_map.2 fun p hp => ?_
    obtain ⟨hname, hlocal⟩ := hnames.valid hls p hp
    exact ⟨hname, hlocal, hname⟩
  | part origin hnames =>
    simp only [List.forall_mem_append, List.forall_mem_cons] at hls
    obtain ⟨hls, -, horigin, -⟩ := hls
    refine List.forall_mem_map.2 fun p hp => ?_
    obtain ⟨hname, hlocal⟩ := hnames.valid hls p hp
    exact ⟨hname, hlocal, horigin⟩

theorem Entries.valid {is : List Import} (h : Entries is ms) (hms : ∀ m ∈ ms, m.Valid) :
    ∀ i ∈ is, i.Valid := by
  induction h with
  | nil => exact List.forall_mem_nil _
  | cons hentry _ ih =>
    simp only [List.forall_mem_append, List.forall_mem_cons, Mark.forall_mem_word] at hms
    exact List.forall_mem_append.2 ⟨hentry.valid hms.1, ih hms.2.2⟩

theorem Block.valid {is : List Import} (h : Block is ms) (hms : ∀ m ∈ ms, m.Valid) :
    ∀ i ∈ is, i.Valid := by
  cases h with
  | none => exact List.forall_mem_nil _
  | some hentries =>
    simp only [List.forall_mem_append, List.forall_mem_cons] at hms
    exact hentries.valid hms.1.2.2

end Import

theorem Module.Derives.valid {m : Module} (h : m.Derives ms) (hms : ∀ m ∈ ms, m.Valid) :
    m.Valid := by
  obtain ⟨is, fs, ss, himports, hfunctions, hstatements, rfl⟩ := h
  simp only [List.forall_mem_append] at hms
  obtain ⟨⟨⟨his, hfs⟩, hss⟩, -⟩ := hms
  exact ⟨himports.valid his, hfunctions.valid hfs, hstatements.valid hss⟩

theorem parseTokens_valid {tokens : List Token} {name : String} {m : Module}
    (ht : ∀ t ∈ tokens, t.lexeme.Valid) (h : parseTokens tokens name = .ok m) :
    m.name = .simple name ∧ m.Valid := by
  have hfits : ∀ t ∈ tokens, t.Fits := by
    intro t htoken op hop
    have hvalid := ht t htoken
    rw [hop] at hvalid
    exact hvalid
  unfold parseTokens Parser.run at h
  cases hr : Grammar.moduleNamed name (Token.endOf tokens) tokens with
  | error e rest =>
    rw [hr] at h
    cases h
  | ok m' rest =>
    rw [hr] at h
    cases h
    obtain ⟨c, mid, hcontents, hm⟩ := Parser.bind_eq_ok.1 hr
    cases hm
    obtain ⟨ms, hc, hlaid⟩ := Grammar.contents_reads hfits hcontents
    obtain ⟨is, fs, ss, himports, hfunctions, hstatements, hms, -⟩ := hc.parts
    obtain ⟨read, hread, hwords⟩ := hlaid.read_eq
    have hderives : Module.Derives ⟨.simple name, c.imports, c.functions, c.statements⟩ ms :=
      ⟨is, fs, ss, himports, hfunctions, hstatements, hms⟩
    refine ⟨rfl, hderives.valid (Mark.valid_of_words ?_)⟩
    intro l hl
    rw [← hwords] at hl
    obtain ⟨t, htoken, rfl⟩ := List.mem_map.1 (List.mem_filter.1 hl).1
    exact ht t (hread ▸ List.mem_append_left rest htoken)

end Modules

/-- Every part of a module that a text spells out is valid; its name is the one that is given. -/
theorem parseSource_valid {source file name : String} {m : Module}
    (h : parseSource source file name = .ok m) : m.name = .simple name ∧ m.Valid := by
  unfold parseSource at h
  cases htokens : tokenise source file with
  | error failure =>
    rw [htokens] at h
    cases h
  | ok tokens =>
    rw [htokens] at h
    cases hparse : parseTokens tokens name with
    | error e =>
      simp only [bind, Except.bind, hparse] at h
      cases h
    | ok m' =>
      simp only [bind, Except.bind, hparse, Except.mapError] at h
      cases h
      exact parseTokens_valid (tokenise_valid htokens) hparse

theorem parseSource_valid_assignment :
    ∃ m, parseSource "a.b=-1\n" "f" "m" = .ok m ∧ m.statements =
        [.assignment (.name ⟨"a", ["b"]⟩) (.unary .minus (.literal (.integer 1)))] ∧ m.Valid := by
  have hfront : Piece.first 'a' ['.', 'b', '=', '-', '1', '\n'] =
      .ok (⟨.lexeme (.identifier (.simple "a")), ['a']⟩, ['.', 'b', '=', '-', '1', '\n']) := by
    decide
  have hdot : Piece.first '.' ['b', '=', '-', '1', '\n'] =
      .ok (⟨.lexeme (.symbol .dot), ['.']⟩, ['b', '=', '-', '1', '\n']) := by decide
  have hback : Piece.first 'b' ['=', '-', '1', '\n'] =
      .ok (⟨.lexeme (.identifier (.simple "b")), ['b']⟩, ['=', '-', '1', '\n']) := by decide
  have hsign : Piece.first '=' ['-', '1', '\n'] =
      .ok (⟨.lexeme (.symbol .assign), ['=']⟩, ['-', '1', '\n']) := by decide
  have hminus : Piece.first '-' ['1', '\n'] =
      .ok (⟨.lexeme (.operator .minus), ['-']⟩, ['1', '\n']) := by decide
  have hone : Piece.first '1' ['\n'] =
      .ok (⟨.lexeme (.literal (.integer 1)), ['1']⟩, ['\n']) := by decide
  have hfeed : Piece.first '\n' [] = .ok (⟨.layout, ['\n']⟩, []) := by decide
  have htext : "a.b=-1\n".toList = ['a', '.', 'b', '=', '-', '1', '\n'] := by decide
  have hscan : scan "a.b=-1\n".toList = ⟨[⟨.lexeme (.identifier (.simple "a")), ['a']⟩,
      ⟨.lexeme (.symbol .dot), ['.']⟩, ⟨.lexeme (.identifier (.simple "b")), ['b']⟩,
      ⟨.lexeme (.symbol .assign), ['=']⟩, ⟨.lexeme (.operator .minus), ['-']⟩,
      ⟨.lexeme (.literal (.integer 1)), ['1']⟩, ⟨.layout, ['\n']⟩], none⟩ := by
    rw [htext, scan_cons hfront, scan_cons hdot, scan_cons hback, scan_cons hsign,
      scan_cons hminus, scan_cons hone, scan_cons hfeed, scan]
  have hlex : lex "a.b=-1\n" "f" = .ok _ := lex_eq_ok.2 ⟨by rw [hscan], rfl⟩
  have hparse : parseSource "a.b=-1\n" "f" "m" = .ok ⟨.simple "m", [], [],
      [.assignment (.name ⟨"a", ["b"]⟩) (.unary .minus (.literal (.integer 1)))]⟩ := by
    rw [hscan] at hlex
    rw [parseSource, tokenise, hlex]
    rfl
  exact ⟨_, hparse, rfl, (parseSource_valid hparse).2⟩

end Pasture
