import Pasture.Decimal.Reading
import Pasture.Proofs.Lexing.Words
import Pasture.Proofs.Text.Quoted
import Pasture.Proofs.Tree.Outline

/-! # Outlines show the whole tree

Two modules with one outline are one module, but for floating-point numbers that are written alike.
A line tells by its first word which tree it starts, and below it there is one field for each part;
the rest of a line is a dotted name, an operator or a literal, and each of them can be read back.
-/
namespace Pasture

open Outline Lexing

section Identifiers

mutual

def Expr.identifiers : Expr → List Identifier
  | .ternary condition whenTrue whenFalse =>
    condition.identifiers ++ whenTrue.identifiers ++ whenFalse.identifiers
  | .binary left _ right => left.identifiers ++ right.identifiers
  | .unary _ operand => operand.identifiers
  | .literal _ => []
  | .name i => [i]
  | .call callee arguments => callee :: Expr.identifiersEach arguments
  | .group inner => inner.identifiers
  | .array elements => Expr.identifiersEach elements
  | .element base index => base.identifiers ++ Expr.indexIdentifiers index

def Expr.identifiersEach : List Expr → List Identifier
  | [] => []
  | e :: es => e.identifiers ++ Expr.identifiersEach es

def Expr.indexIdentifiers : Index Expr → List Identifier
  | .single value => value.identifiers
  | .slice start stop => Expr.boundIdentifiers start ++ Expr.boundIdentifiers stop

def Expr.boundIdentifiers : Option Expr → List Identifier
  | none => []
  | some e => e.identifiers

end

def Reference.identifiers : Reference → List Identifier
  | .name i => [i]
  | .element base index => base.identifiers ++ Expr.indexIdentifiers index

mutual

def Statement.identifiers : Statement → List Identifier
  | .declaration name type value _ => name :: type :: value.identifiers
  | .assignment target value => target.identifiers ++ value.identifiers
  | .expression value => value.identifiers
  | .result value => Expr.boundIdentifiers value
  | .branch condition body otherwise =>
    condition.identifiers ++ Statement.identifiersEach body ++
      Statement.otherwiseIdentifiers otherwise
  | .loop condition body => condition.identifiers ++ Statement.identifiersEach body

def Statement.identifiersEach : List Statement → List Identifier
  | [] => []
  | s :: ss => s.identifiers ++ Statement.identifiersEach ss

def Statement.otherwiseIdentifiers : Option (List Statement) → List Identifier
  | none => []
  | some body => Statement.identifiersEach body

end

def Parameter.identifiers (p : Parameter) : List Identifier := [p.name, p.type]

def Function.identifiers (f : Function) : List Identifier :=
  f.name :: f.parameters.flatMap Parameter.identifiers ++ f.resultType.toList ++
    Statement.identifiersEach f.body

def Import.identifiers (i : Import) : List Identifier := [i.name, i.localName, i.origin]

def Module.identifiers (m : Module) : List Identifier :=
  m.name :: m.imports.flatMap Import.identifiers ++ m.functions.flatMap Function.identifiers ++
    Statement.identifiersEach m.statements

end Identifiers

section Floats

variable (f : String → Binary64)

def Literal.respell : Literal → Literal
  | .float x => .float (f x.text)
  | l => l

mutual

def Expr.respell : Expr → Expr
  | .ternary condition whenTrue whenFalse =>
    .ternary condition.respell whenTrue.respell whenFalse.respell
  | .binary left op right => .binary left.respell op right.respell
  | .unary op operand => .unary op operand.respell
  | .literal value => .literal (value.respell f)
  | .name i => .name i
  | .call callee arguments => .call callee (Expr.respellEach arguments)
  | .group inner => .group inner.respell
  | .array elements => .array (Expr.respellEach elements)
  | .element base index => .element base.respell (Expr.respellIndex index)

def Expr.respellEach : List Expr → List Expr
  | [] => []
  | e :: es => e.respell :: Expr.respellEach es

def Expr.respellIndex : Index Expr → Index Expr
  | .single value => .single value.respell
  | .slice start stop => .slice (Expr.respellBound start) (Expr.respellBound stop)

def Expr.respellBound : Option Expr → Option Expr
  | none => none
  | some e => some e.respell

end

def Reference.respell : Reference → Reference
  | .name i => .name i
  | .element base index => .element base.respell (Expr.respellIndex f index)

mutual

def Statement.respell : Statement → Statement
  | .declaration name type value isMutable => .declaration name type (value.respell f) isMutable
  | .assignment target value => .assignment (target.respell f) (value.respell f)
  | .expression value => .expression (value.respell f)
  | .result value => .result (Expr.respellBound f value)
  | .branch condition body otherwise =>
    .branch (condition.respell f) (Statement.respellEach body) (Statement.respellOtherwise otherwise)
  | .loop condition body => .loop (condition.respell f) (Statement.respellEach body)

def Statement.respellEach : List Statement → List Statement
  | [] => []
  | s :: ss => s.respell :: Statement.respellEach ss

def Statement.respellOtherwise : Option (List Statement) → Option (List Statement)
  | none => none
  | some body => some (Statement.respellEach body)

end

def Function.respell (g : Function) : Function := { g with body := Statement.respellEach f g.body }

/-- The module with, in the place of each floating-point number, the one that `f` has for its text:
modules that are told apart by the texts of these numbers at most become one. -/
def Module.respell (m : Module) : Module :=
  { m with
    functions := m.functions.map (Function.respell f)
    statements := Statement.respellEach f m.statements }

end Floats

section Atoms

variable {i j : Identifier} {k l : Literal}

/-- Segments without a dot can be told apart in the dotted name. -/
theorem Identifier.text_unique (hi : ∀ s ∈ i.segments, '.' ∉ s.toList)
    (hj : ∀ s ∈ j.segments, '.' ∉ s.toList) (h : i.text = j.text) : i = j := by
  have hsplit : ∀ k : Identifier, (∀ s ∈ k.segments, '.' ∉ s.toList) →
      k.text.toList.splitOn '.' = k.segments.map String.toList := by
    intro k hk
    rw [text, String.toList_intercalate]
    refine List.splitOn_intercalate '.' ?_ (by simp [segments])
    intro cs hcs
    obtain ⟨s, hs, rfl⟩ := List.mem_map.1 hcs
    exact hk s hs
  have hsegments : i.segments.map String.toList = j.segments.map String.toList := by
    rw [← hsplit i hi, ← hsplit j hj, h]
  have hsame := List.map_injective_iff.2 (fun _ _ => String.toList_injective) hsegments
  obtain ⟨hhead, htail⟩ := List.cons.inj hsame
  cases i
  cases j
  exact congrArg₂ _ hhead htail

theorem Identifier.dotless_of_isName (h : ∀ s ∈ i.segments, IsName s.toList) :
    ∀ s ∈ i.segments, '.' ∉ s.toList := by
  intro s hs hdot
  have hall := List.all_eq_true.1 (isName_iff.1 (h s hs)).2 '.' hdot
  exact absurd hall (by decide)

theorem Identifier.word_outline (i : Identifier) : i.outline.word =
    (if i.isSimple then "SimpleIdentifier" else "CompoundIdentifier").toList := by
  cases hsimple : i.isSimple <;> simp [outline, hsimple, leaf, word]

theorem Identifier.outline_unique (hi : ∀ s ∈ i.segments, '.' ∉ s.toList)
    (hj : ∀ s ∈ j.segments, '.' ∉ s.toList) (h : i.outline = j.outline) : i = j := by
  have hword := congrArg word h
  rw [word_outline, word_outline] at hword
  apply text_unique hi hj
  cases hi : i.isSimple <;> cases hj : j.isSimple
  · simpa [outline, hi, hj, leaf] using h
  · exact absurd hword (by simp [hi, hj])
  · exact absurd hword (by simp [hi, hj])
  · simpa [outline, hi, hj, leaf] using h

theorem Operator.outline_unique {op op' : Operator} (h : op.outline = op'.outline) : op = op' := by
  have htext : op.text = op'.text := by
    simpa [outline, leaf] using h
  have hspelling : op.spelling = op'.spelling := String.ofList_injective htext
  have hsame := ofSpelling?_spelling op
  rw [hspelling, ofSpelling?_spelling] at hsame
  exact (Option.some.inj hsame).symm

theorem flagShown_injective : Function.Injective flagShown := by
  intro a b h
  cases a <;> cases b <;> simp_all [flagShown]

theorem Literal.word_outline (l : Literal) : l.outline.word = l.form.node.toList := by
  have hshown : ∀ f : Form, ∀ shown, word (leaf (f.node ++ " " ++ shown)) = f.node.toList := by
    intro f shown
    cases f <;> simp [leaf, word, Form.node]
  have hmissing : ∀ f : Form, ∀ below, word (.line f.node below) = f.node.toList := by
    intro f below
    cases f <;> simp [word, Form.node]
  unfold outline
  split
  · exact hmissing .none []
  · exact hshown _ _
  · exact hmissing _ _

theorem Literal.outline_of_shown {shown : String} (hform : l.form ≠ .none)
    (h : l.shown? = some shown) : l.outline = leaf (l.form.node ++ " " ++ shown) := by
  unfold outline
  split
  · exact absurd rfl hform
  · rename_i hshown
    rw [Option.some.inj (hshown.symm.trans h)]
  · rename_i hmissing
    cases hmissing.symm.trans h

theorem Literal.outline_of_missing (hform : l.form ≠ .none) (h : l.shown? = Option.none) :
    l.outline = .line l.form.node [noField "value"] := by
  unfold outline
  split
  · exact absurd rfl hform
  · rename_i hshown
    cases hshown.symm.trans h
  · rfl

/-- Literals of one form are told apart by what is shown of them. -/
theorem Literal.shown?_unique (hform : k.form = l.form) (h : k.outline = l.outline) :
    k.shown? = l.shown? := by
  have hnone : ∀ {l : Literal}, l.form = .none → l.shown? = Option.none := by
    intro l hl
    cases l with
    | none => rfl
    | _ => cases hl
  by_cases hk : k.form = .none
  · rw [hnone hk, hnone (hform ▸ hk)]
  have hl : l.form ≠ .none := hform ▸ hk
  cases hs : k.shown? with
  | none =>
    cases ht : l.shown? with
    | none => rfl
    | some =>
      rw [outline_of_missing hk hs, outline_of_shown hl ht] at h
      simp [leaf] at h
  | some =>
    cases ht : l.shown? with
    | none =>
      rw [outline_of_shown hk hs, outline_of_missing hl ht] at h
      simp [leaf] at h
    | some =>
      rw [outline_of_shown hk hs, outline_of_shown hl ht, hform] at h
      simpa [leaf] using h

theorem Literal.outline_unique (f : String → Binary64) (h : k.outline = l.outline) :
    k.respell f = l.respell f := by
  have hword := congrArg word h
  rw [word_outline, word_outline] at hword
  have hform : k.form = l.form := by
    revert hword
    cases k.form <;> cases l.form <;> decide
  have hshown := shown?_unique hform h
  cases k with
  | integer m =>
    cases l with
    | integer n =>
      have hvalue : m = n := Text.intToString_injective (Option.some.inj hshown)
      rw [hvalue]
    | _ => cases hform
  | float x =>
    cases l with
    | float y =>
      have htext : x.text = y.text := Option.some.inj hshown
      rw [respell, respell, htext]
    | _ => cases hform
  | char s =>
    cases l with
    | char t => rw [Option.map_injective Text.Quoted.encode_injective hshown]
    | _ => cases hform
  | string s =>
    cases l with
    | string t => rw [Option.map_injective Text.Quoted.encode_injective hshown]
    | _ => cases hform
  | boolean b =>
    cases l with
    | boolean c => rw [Option.map_injective flagShown_injective hshown]
    | _ => cases hform
  | none =>
    cases l with
    | none => rfl
    | _ => cases hform

end Atoms

section Trees

variable (f : String → Binary64)

def firstWords : List (List String) :=
  [["TernaryCondition"], ["BinaryOperation"], ["UnaryOperation"],
    ["IntegerLit", "FloatLit", "CharLit", "StringLit", "BooleanLit", "NoneLit"],
    ["SimpleIdentifier", "CompoundIdentifier"], ["FunctionCall"], ["Parenthesized"],
    ["ArrayLiteral"], ["ArrayIndex"]]

def formOf (word : List Char) : Nat :=
  firstWords.findIdx fun words => words.any fun w => w.toList = word

theorem Expr.formOf_outline (e : Expr) : formOf e.outline.word = e.ctorIdx := by
  cases e with
  | literal value =>
    rw [outline, Literal.word_outline]
    cases value.form <;> rfl
  | name i =>
    rw [outline, Identifier.word_outline]
    cases i.isSimple <;> rfl
  | _ => rfl

/-- Expressions with one outline are of one form. -/
theorem Expr.ctorIdx_eq {e e' : Expr} (h : e.outline = e'.outline) : e.ctorIdx = e'.ctorIdx := by
  rw [← formOf_outline, ← formOf_outline, h]

def Dotless (is : List Identifier) : Prop := ∀ i ∈ is, ∀ s ∈ i.segments, '.' ∉ s.toList

theorem dotless_append {is js : List Identifier} :
    Dotless (is ++ js) ↔ Dotless is ∧ Dotless js := List.forall_mem_append

theorem dotless_cons {i : Identifier} {is : List Identifier} :
    Dotless (i :: is) ↔ (∀ s ∈ i.segments, '.' ∉ s.toList) ∧ Dotless is := List.forall_mem_cons

mutual

theorem Expr.outline_unique : ∀ e e' : Expr, Dotless e.identifiers → Dotless e'.identifiers →
    e.outline = e'.outline → e.respell f = e'.respell f
  | .ternary condition whenTrue whenFalse, e', hi, hi', h => by
    cases e' with
    | ternary condition' whenTrue' whenFalse' =>
      simp only [identifiers, dotless_append] at hi hi'
      simp only [outline, Outline.line.injEq, List.cons.injEq, field_inj, true_and, and_true] at h
      obtain ⟨hcondition, htrue, hfalse⟩ := h
      rw [respell, respell, outline_unique _ _ hi.1.1 hi'.1.1 hcondition,
        outline_unique _ _ hi.1.2 hi'.1.2 htrue, outline_unique _ _ hi.2 hi'.2 hfalse]
    -- The first word of the outline tells the other forms apart, here and below.
    | _ => cases ctorIdx_eq h
  | .binary left op right, e', hi, hi', h => by
    cases e' with
    | binary left' op' right' =>
      simp only [identifiers, dotless_append] at hi hi'
      simp only [outline, Outline.line.injEq, List.cons.injEq, field_inj, true_and, and_true] at h
      obtain ⟨hleft, hop, hright⟩ := h
      rw [respell, respell, outline_unique _ _ hi.1 hi'.1 hleft, Operator.outline_unique hop,
        outline_unique _ _ hi.2 hi'.2 hright]
    | _ => cases ctorIdx_eq h
  | .unary op operand, e', hi, hi', h => by
    cases e' with
    | unary op' operand' =>
      simp only [outline, Outline.line.injEq, List.cons.injEq, field_inj, true_and, and_true] at h
      obtain ⟨hop, hoperand⟩ := h
      rw [respell, respell, Operator.outline_unique hop, outline_unique operand operand' hi hi' hoperand]
    | _ => cases ctorIdx_eq h
  | .literal value, e', _, _, h => by
    cases e' with
    | literal value' =>
      rw [respell, respell, Literal.outline_unique f h]
    | _ => cases ctorIdx_eq h
  | .name i, e', hi, hi', h => by
    cases e' with
    | name i' =>
      rw [Identifier.outline_unique (dotless_cons.1 hi).1 (dotless_cons.1 hi').1 h]
    | _ => cases ctorIdx_eq h
  | .call callee arguments, e', hi, hi', h => by
    cases e' with
    | call callee' arguments' =>
      simp only [identifiers, dotless_cons] at hi hi'
      simp only [outline, Outline.line.injEq, List.cons.injEq, field_inj, listField_inj, true_and,
        and_true] at h
      obtain ⟨hcallee, harguments⟩ := h
      rw [respell, respell, Identifier.outline_unique hi.1 hi'.1 hcallee,
        outlines_unique _ _ hi.2 hi'.2 harguments]
    | _ => cases ctorIdx_eq h
  | .group inner, e', hi, hi', h => by
    cases e' with
    | group inner' =>
      simp only [outline, Outline.line.injEq, List.cons.injEq, field_inj, true_and, and_true] at h
      rw [respell, respell, outline_unique inner inner' hi hi' h]
    | _ => cases ctorIdx_eq h
  | .array elements, e', hi, hi', h => by
    cases e' with
    | array elements' =>
      simp only [outline, Outline.line.injEq, List.cons.injEq, listField_inj, true_and,
        and_true] at h
      rw [respell, respell, outlines_unique _ _ hi hi' h]
    | _ => cases ctorIdx_eq h
  | .element base index, e', hi, hi', h => by
    cases e' with
    | element base' index' =>
      simp only [identifiers, dotless_append] at hi hi'
      simp only [outline, Outline.line.injEq, List.cons.injEq, field_inj, true_and, and_true] at h
      obtain ⟨hbase, hindex⟩ := h
      rw [respell, respell, outline_unique _ _ hi.1 hi'.1 hbase,
        indexOutline_unique _ _ hi.2 hi'.2 hindex]
    | _ => cases ctorIdx_eq h

theorem Expr.outlines_unique : ∀ es es' : List Expr, Dotless (identifiersEach es) →
    Dotless (identifiersEach es') → outlines es = outlines es' → respellEach f es = respellEach f es'
  | [], [], _, _, _ => rfl
  | [], _ :: _, _, _, h => by cases h
  | _ :: _, [], _, _, h => by cases h
  | e :: es, e' :: es', hi, hi', h => by
    simp only [identifiersEach, dotless_append] at hi hi'
    obtain ⟨he, hes⟩ := List.cons.inj h
    rw [respellEach, respellEach, outline_unique _ _ hi.1 hi'.1 he,
      outlines_unique _ _ hi.2 hi'.2 hes]

theorem Expr.indexOutline_unique : ∀ i i' : Index Expr, Dotless (indexIdentifiers i) →
    Dotless (indexIdentifiers i') → indexOutline i = indexOutline i' →
    respellIndex f i = respellIndex f i'
  | .single value, .single value', hi, hi', h => by
    simp only [indexOutline, Outline.line.injEq, List.cons.injEq, field_inj, true_and,
      and_true] at h
    rw [respellIndex, respellIndex, outline_unique _ _ hi hi' h]
  | .single _, .slice _ _, _, _, h => by simp [indexOutline] at h
  | .slice _ _, .single _, _, _, h => by simp [indexOutline] at h
  | .slice start stop, .slice start' stop', hi, hi', h => by
    simp only [indexIdentifiers, dotless_append] at hi hi'
    simp only [indexOutline, Outline.line.injEq, List.cons.injEq, optionField_inj, true_and,
      and_true] at h
    rw [respellIndex, respellIndex, bound_unique _ _ hi.1 hi'.1 h.1,
      bound_unique _ _ hi.2 hi'.2 h.2]

theorem Expr.bound_unique : ∀ b b' : Option Expr, Dotless (boundIdentifiers b) →
    Dotless (boundIdentifiers b') → outline? b = outline? b' → respellBound f b = respellBound f b'
  | none, none, _, _, _ => rfl
  | none, some _, _, _, h => by cases h
  | some _, none, _, _, h => by cases h
  | some e, some e', hi, hi', h => by
    rw [respellBound, respellBound, outline_unique _ _ hi hi' (Option.some.inj h)]

end

theorem Reference.outline_unique {r r' : Reference} (hi : Dotless r.identifiers)
    (hi' : Dotless r'.identifiers) (h : r.outline = r'.outline) : r.respell f = r'.respell f := by
  induction r generalizing r' with
  | name i =>
    cases r' with
    | name i' => rw [Identifier.outline_unique (dotless_cons.1 hi).1 (dotless_cons.1 hi').1 h]
    | element base' index' => simp [outline, Identifier.outline, leaf] at h
  | element base index ih =>
    cases r' with
    | name i' => simp [outline, Identifier.outline, leaf] at h
    | element base' index' =>
      simp only [identifiers, dotless_append] at hi hi'
      simp only [outline, Outline.line.injEq, List.cons.injEq, field_inj, true_and, and_true] at h
      rw [respell, respell, ih hi.1 hi'.1 h.1, Expr.indexOutline_unique f _ _ hi.2 hi'.2 h.2]

theorem blockOutline_inj {os os' : List Outline} : blockOutline os = blockOutline os' ↔ os = os' := by
  simp [blockOutline]

mutual

theorem Statement.outline_unique : ∀ s s' : Statement, Dotless s.identifiers →
    Dotless s'.identifiers → s.outline = s'.outline → s.respell f = s'.respell f
  | .declaration name type value isMutable, s', hi, hi', h => by
    cases s' with
    | declaration name' type' value' isMutable' =>
      simp only [identifiers, dotless_cons] at hi hi'
      simp only [outline, Outline.line.injEq, List.cons.injEq, field_inj, valueField_inj, true_and,
        and_true] at h
      obtain ⟨hname, htype, hvalue, hflag⟩ := h
      rw [respell, respell, Identifier.outline_unique hi.1 hi'.1 hname,
        Identifier.outline_unique hi.2.1 hi'.2.1 htype,
        Expr.outline_unique f _ _ hi.2.2 hi'.2.2 hvalue, flagShown_injective hflag]
    | _ => simp [outline] at h
  | .assignment target value, s', hi, hi', h => by
    cases s' with
    | assignment target' value' =>
      simp only [identifiers, dotless_append] at hi hi'
      simp only [outline, Outline.line.injEq, List.cons.injEq, field_inj, true_and, and_true] at h
      rw [respell, respell, Reference.outline_unique f hi.1 hi'.1 h.1,
        Expr.outline_unique f _ _ hi.2 hi'.2 h.2]
    | _ => simp [outline] at h
  | .expression value, s', hi, hi', h => by
    cases s' with
    | expression value' =>
      simp only [outline, Outline.line.injEq, List.cons.injEq, field_inj, true_and, and_true] at h
      rw [respell, respell, Expr.outline_unique f value value' hi hi' h]
    | _ => simp [outline] at h
  | .result value, s', hi, hi', h => by
    cases s' with
    | result value' =>
      simp only [outline, Outline.line.injEq, List.cons.injEq, optionField_inj, true_and,
        and_true] at h
      rw [respell, respell, Expr.bound_unique f value value' hi hi' h]
    | _ => simp [outline] at h
  | .branch condition body otherwise, s', hi, hi', h => by
    cases s' with
    | branch condition' body' otherwise' =>
      simp only [identifiers, dotless_append] at hi hi'
      simp only [outline, Outline.line.injEq, List.cons.injEq, field_inj, optionField_inj,
        blockOutline_inj, true_and, and_true] at h
      obtain ⟨hcondition, hbody, hotherwise⟩ := h
      rw [respell, respell, Expr.outline_unique f _ _ hi.1.1 hi'.1.1 hcondition,
        outlines_unique _ _ hi.1.2 hi'.1.2 hbody, otherwise_unique _ _ hi.2 hi'.2 hotherwise]
    | _ => simp [outline] at h
  | .loop condition body, s', hi, hi', h => by
    cases s' with
    | loop condition' body' =>
      simp only [identifiers, dotless_append] at hi hi'
      simp only [outline, Outline.line.injEq, List.cons.injEq, field_inj, blockOutline_inj,
        true_and, and_true] at h
      rw [respell, respell, Expr.outline_unique f _ _ hi.1 hi'.1 h.1,
        outlines_unique _ _ hi.2 hi'.2 h.2]
    | _ => simp [outline] at h

theorem Statement.outlines_unique : ∀ ss ss' : List Statement, Dotless (identifiersEach ss) →
    Dotless (identifiersEach ss') → outlines ss = outlines ss' → respellEach f ss = respellEach f ss'
  | [], [], _, _, _ => rfl
  | [], _ :: _, _, _, h => by cases h
  | _ :: _, [], _, _, h => by cases h
  | s :: ss, s' :: ss', hi, hi', h => by
    simp only [identifiersEach, dotless_append] at hi hi'
    obtain ⟨hs, hss⟩ := List.cons.inj h
    rw [respellEach, respellEach, outline_unique _ _ hi.1 hi'.1 hs,
      outlines_unique _ _ hi.2 hi'.2 hss]

theorem Statement.otherwise_unique : ∀ b b' : Option (List Statement),
    Dotless (otherwiseIdentifiers b) → Dotless (otherwiseIdentifiers b') →
    blockOutline? b = blockOutline? b' → respellOtherwise f b = respellOtherwise f b'
  | none, none, _, _, _ => rfl
  | none, some _, _, _, h => by cases h
  | some _, none, _, _, h => by cases h
  | some body, some body', hi, hi', h => by
    rw [respellOtherwise, respellOtherwise,
      outlines_unique body body' hi hi' (blockOutline_inj.1 (Option.some.inj h))]

end

/-- Lists are told apart by their outlines if their members are. -/
theorem map_outline_unique {α : Type} {g : α → α} {names : α → List Identifier} {outline : α → Outline}
    (hone : ∀ {a b}, Dotless (names a) → Dotless (names b) → outline a = outline b → g a = g b) :
    ∀ {as bs : List α}, Dotless (as.flatMap names) → Dotless (bs.flatMap names) →
      as.map outline = bs.map outline → as.map g = bs.map g
  | [], [], _, _, _ => rfl
  | [], _ :: _, _, _, h => by cases h
  | _ :: _, [], _, _, h => by cases h
  | a :: as, b :: bs, hi, hi', h => by
    simp only [List.flatMap_cons, dotless_append] at hi hi'
    obtain ⟨ha, has⟩ := List.cons.inj h
    rw [List.map_cons, List.map_cons, hone hi.1 hi'.1 ha, map_outline_unique hone hi.2 hi'.2 has]

theorem Parameter.outline_unique {p p' : Parameter} (hi : Dotless p.identifiers)
    (hi' : Dotless p'.identifiers) (h : p.outline = p'.outline) : p = p' := by
  simp only [identifiers, dotless_cons] at hi hi'
  simp only [outline, Outline.line.injEq, List.cons.injEq, field_inj, true_and, and_true] at h
  cases p
  cases p'
  exact congrArg₂ _ (Identifier.outline_unique hi.1 hi'.1 h.1)
    (Identifier.outline_unique hi.2.1 hi'.2.1 h.2)

theorem Import.outline_unique {i i' : Import} (hi : Dotless i.identifiers)
    (hi' : Dotless i'.identifiers) (h : i.outline = i'.outline) : i = i' := by
  simp only [identifiers, dotless_cons] at hi hi'
  simp only [outline, Outline.line.injEq, List.cons.injEq, field_inj, true_and, and_true] at h
  obtain ⟨hname, hlocal, horigin⟩ := h
  cases i
  cases i'
  rw [Import.mk.injEq]
  exact ⟨Identifier.outline_unique hi.1 hi'.1 hname, Identifier.outline_unique hi.2.1 hi'.2.1 hlocal,
    Identifier.outline_unique hi.2.2.1 hi'.2.2.1 horigin⟩

theorem Identifier.optional_unique {i i' : Option Identifier} (hi : Dotless i.toList)
    (hi' : Dotless i'.toList) (h : i.map Identifier.outline = i'.map Identifier.outline) : i = i' := by
  cases i with
  | none =>
    cases i' with
    | none => rfl
    | some _ => cases h
  | some i =>
    cases i' with
    | none => cases h
    | some i' =>
      rw [Identifier.outline_unique (dotless_cons.1 hi).1 (dotless_cons.1 hi').1 (Option.some.inj h)]

theorem Function.outline_unique {g g' : Function} (hi : Dotless g.identifiers)
    (hi' : Dotless g'.identifiers) (h : g.outline = g'.outline) : g.respell f = g'.respell f := by
  simp only [identifiers, dotless_append, dotless_cons] at hi hi'
  simp only [outline, Outline.line.injEq, List.cons.injEq, field_inj, listField_inj, optionField_inj,
    blockOutline_inj, true_and, and_true] at h
  obtain ⟨⟨⟨hiname, hiparameters⟩, hitype⟩, hibody⟩ := hi
  obtain ⟨⟨⟨hiname', hiparameters'⟩, hitype'⟩, hibody'⟩ := hi'
  obtain ⟨hname, hparameters, htype, hbody⟩ := h
  have hsame := map_outline_unique (g := id) Parameter.outline_unique hiparameters hiparameters'
    hparameters
  rw [List.map_id, List.map_id] at hsame
  rw [respell, respell, Function.mk.injEq]
  exact ⟨Identifier.outline_unique hiname hiname' hname, hsame,
    Identifier.optional_unique hitype hitype' htype, Statement.outlines_unique f _ _ hibody hibody' hbody⟩

theorem Module.outline_unique {m m' : Module} (hi : Dotless m.identifiers)
    (hi' : Dotless m'.identifiers) (h : m.outline = m'.outline) : m.respell f = m'.respell f := by
  simp only [identifiers, dotless_append, dotless_cons] at hi hi'
  simp only [outline, Outline.line.injEq, List.cons.injEq, field_inj, listField_inj, blockOutline_inj,
    true_and, and_true] at h
  obtain ⟨⟨⟨hiname, hiimports⟩, hifunctions⟩, histatements⟩ := hi
  obtain ⟨⟨⟨hiname', hiimports'⟩, hifunctions'⟩, histatements'⟩ := hi'
  obtain ⟨hname, himports, hfunctions, hstatements⟩ := h
  have hsame := map_outline_unique (g := id) Import.outline_unique hiimports hiimports' himports
  rw [List.map_id, List.map_id] at hsame
  rw [respell, respell, Module.mk.injEq]
  exact ⟨Identifier.outline_unique hiname hiname' hname, hsame,
    map_outline_unique (Function.outline_unique f) hifunctions hifunctions' hfunctions,
    Statement.outlines_unique f _ _ histatements histatements' hstatements⟩

end Trees

/-- If every segment of every identifier is a name, two modules with the same lines are one module,
but for floating-point numbers that have the same text. -/
theorem Module.lines_faithful {m m' : Module} {depth : Nat} (f : String → Binary64)
    (hm : ∀ i ∈ m.identifiers, ∀ s ∈ i.segments, IsName s.toList)
    (hm' : ∀ i ∈ m'.identifiers, ∀ s ∈ i.segments, IsName s.toList)
    (h : m.outline.lines depth = m'.outline.lines depth) : m.respell f = m'.respell f := by
  have hdots : Dotless m.identifiers := fun i hi => Identifier.dotless_of_isName (hm i hi)
  have hdots' : Dotless m'.identifiers := fun i hi => Identifier.dotless_of_isName (hm' i hi)
  have houtline := lines_unique m.outline_proper m'.outline_proper h
  exact outline_unique f hdots hdots' houtline

def Module.returning (x : Binary64) : Module where
  name := .simple "main"
  imports := []
  functions := []
  statements := [.result (some (.literal (.float x)))]

/-- Two significands of the number one are written alike, and only reading them back makes the
modules one. -/
theorem Module.lines_faithful_one :
    (∀ i ∈ (returning (.finite false 1 0)).identifiers, ∀ s ∈ i.segments, IsName s.toList) ∧
      (returning (.finite false 1 0)).outline.lines 0 =
        (returning (.finite false 2 (-1))).outline.lines 0 ∧
      (returning (.finite false 1 0)).respell (fun t => (Decimal.binary64? t).getD .nan) =
        (returning (.finite false 2 (-1))).respell (fun t => (Decimal.binary64? t).getD .nan) := by
  have hnames : ∀ x, ∀ i ∈ (returning x).identifiers, ∀ s ∈ i.segments, IsName s.toList := by
    intro x i hi s hs
    obtain rfl : i = .simple "main" := List.mem_singleton.1 hi
    obtain rfl : s = "main" := List.mem_singleton.1 hs
    exact isName_iff.2 ⟨by decide, by decide⟩
  have hlines : (returning (.finite false 1 0)).outline.lines 0 =
      (returning (.finite false 2 (-1))).outline.lines 0 := by decide +kernel
  exact ⟨hnames _, hlines, lines_faithful _ (hnames _) (hnames _) hlines⟩

end Pasture
