import Pasture.Proofs.Text.Shown
import Pasture.Tree.Outline

/-! # Outlines are told apart by their lines

The indentation of a line tells its level, as long as no line starts with a blank of its own. So the
lines below a line end where the first one stands that is no deeper than it.
-/
namespace Pasture
namespace Outline

def Starts (text : String) : Prop := text.toList.head?.any (· ≠ ' ')

instance (text : String) : Decidable (Starts text) :=
  inferInstanceAs (Decidable (text.toList.head?.any (· ≠ ' ') = true))

theorem Starts.exists_cons {text : String} (h : Starts text) :
    ∃ c cs, text.toList = c :: cs ∧ c ≠ ' ' := by
  obtain ⟨c, hc, hblank⟩ := (Option.any_eq_true _ _).1 h
  obtain ⟨cs, hcs⟩ := List.head?_eq_some_iff.1 hc
  exact ⟨c, cs, hcs, by simpa using hblank⟩

theorem Starts.append {s : String} (h : Starts s) (t : String) : Starts (s ++ t) := by
  obtain ⟨c, cs, hs, hc⟩ := h.exists_cons
  simp [Starts, hs, hc]

inductive Proper : Outline → Prop where
  | line {text below} : Starts text → (∀ o ∈ below, Proper o) → Proper (.line text below)

def indent (line : String) : Nat := (line.toList.takeWhile (· = ' ')).length

theorem indent_pushn {text : String} (h : Starts text) (n : Nat) :
    indent ("".pushn ' ' n ++ text) = n := by
  obtain ⟨c, cs, htext, hc⟩ := h.exists_cons
  have hstop : (c :: cs).takeWhile (· = ' ') = [] := by simp [hc]
  have hrun : (List.replicate n ' ' ++ c :: cs).takeWhile (· = ' ') = List.replicate n ' ' := by
    rw [List.takeWhile_append_of_pos (by simp), hstop, List.append_nil]
  rw [indent, String.toList_append, Text.toList_pushn, htext, hrun, List.length_replicate]

def Leaves (depth : Nat) (rest : List String) : Prop := ∀ l ∈ rest.head?, indent l < 2 * depth

theorem leaves_nil (depth : Nat) : Leaves depth [] := by
  intro l hl
  cases hl

theorem Leaves.deeper {depth : Nat} {rest : List String} (h : Leaves depth rest) :
    Leaves (depth + 1) rest := by
  intro l hl
  have hless := h l hl
  omega

variable {depth : Nat} {o : Outline} {os os' : List Outline} {rest rest' : List String}

/-- What follows a line goes on at its level or at none deeper than that. -/
theorem leaves_linesBelow (hos : ∀ o ∈ os, Proper o) (hrest : Leaves depth rest) :
    Leaves (depth + 1) (lines.linesBelow depth os ++ rest) := by
  cases os with
  | nil => exact hrest.deeper
  | cons o os =>
    obtain ⟨htext, -⟩ := hos o List.mem_cons_self
    intro l hl
    simp only [lines.linesBelow, lines, List.cons_append, List.head?_cons, Option.mem_def,
      Option.some.injEq] at hl
    rw [← hl, indent_pushn htext]
    omega

theorem not_leaves_cons (ho : Proper o) : ¬Leaves depth (lines.linesBelow depth (o :: os) ++ rest) := by
  obtain ⟨htext, -⟩ := ho
  intro h
  have hless := h _ rfl
  rw [indent_pushn htext] at hless
  exact Nat.lt_irrefl _ hless

/-- The lines below a line determine both the outlines there and where they end. -/
theorem linesBelow_unique : ∀ {depth : Nat} {os os' : List Outline} {rest rest' : List String},
    (∀ o ∈ os, Proper o) → (∀ o ∈ os', Proper o) → Leaves depth rest → Leaves depth rest' →
    lines.linesBelow depth os ++ rest = lines.linesBelow depth os' ++ rest' →
    os = os' ∧ rest = rest'
  | _, [], [], _, _, _, _, _, _, h => ⟨rfl, h⟩
  | depth, [], o :: os, rest, rest', _, hos', hrest, _, h => by
    have hsame : rest = lines.linesBelow depth (o :: os) ++ rest' := h
    exact absurd (hsame ▸ hrest) (not_leaves_cons (hos' o List.mem_cons_self))
  | depth, o :: os, [], rest, rest', hos, _, _, hrest', h => by
    have hsame : lines.linesBelow depth (o :: os) ++ rest = rest' := h
    exact absurd (hsame ▸ hrest') (not_leaves_cons (hos o List.mem_cons_self))
  | depth, .line text below :: os, .line text' below' :: os', rest, rest', hos, hos', hrest, hrest',
    h => by
    obtain ⟨⟨htext, hbelow⟩, hos⟩ := List.forall_mem_cons.1 hos
    obtain ⟨⟨htext', hbelow'⟩, hos'⟩ := List.forall_mem_cons.1 hos'
    simp only [lines.linesBelow, lines, List.cons_append, List.append_assoc, List.cons.injEq] at h
    obtain ⟨hline, hlater⟩ := h
    have hsame : text = text' := by
      have hchars := congrArg String.toList hline
      simp only [String.toList_append] at hchars
      exact String.toList_injective (List.append_cancel_left hchars)
    -- First the block below the line, which ends where its level is left; then the lines after it.
    obtain ⟨hdeep, hnext⟩ := linesBelow_unique hbelow hbelow' (leaves_linesBelow hos hrest)
      (leaves_linesBelow hos' hrest') hlater
    obtain ⟨hlevel, hend⟩ := linesBelow_unique hos hos' hrest hrest' hnext
    exact ⟨by rw [hsame, hdeep, hlevel], hend⟩
termination_by _ os => sizeOf os

theorem lines_unique {o o' : Outline} (ho : Proper o) (ho' : Proper o')
    (h : o.lines depth = o'.lines depth) : o = o' := by
  have hos : ∀ p ∈ [o], Proper p := by simpa using ho
  have hos' : ∀ p ∈ [o'], Proper p := by simpa using ho'
  have hbelow : lines.linesBelow depth [o] ++ [] = lines.linesBelow depth [o'] ++ [] := by
    simp [lines.linesBelow, h]
  have hsame := (linesBelow_unique hos hos' (leaves_nil depth) (leaves_nil depth) hbelow).1
  exact (List.cons.inj hsame).1

def word : Outline → List Char
  | .line text _ => text.toList.takeWhile (· ≠ ' ')

section Fields

variable {name value value' : String} {held held' : Outline} {more more' : List Outline}
  {maybe maybe' : Option Outline}

@[simp] theorem field_inj : field name held = field name held' ↔ held = held' := by
  simp [field]

@[simp] theorem listField_inj : listField name more = listField name more' ↔ more = more' := by
  cases more <;> cases more' <;> simp [listField, leaf]

@[simp] theorem optionField_inj : optionField name maybe = optionField name maybe' ↔ maybe = maybe' := by
  cases maybe <;> cases maybe' <;> simp [optionField, noField, field, leaf]

@[simp] theorem valueField_inj : valueField name value = valueField name value' ↔ value = value' := by
  simp [valueField, leaf]

variable (hname : Starts name)
include hname

theorem proper_field (h : Proper held) : Proper (field name held) :=
  .line (hname.append ":") (by simpa using h)

theorem proper_noField : Proper (noField name) :=
  .line ((hname.append ": ").append nothingShown) (by simp)

theorem proper_listField (h : ∀ o ∈ more, Proper o) : Proper (listField name more) := by
  cases more with
  | nil => exact .line (hname.append ": []") (by simp)
  | cons o os => exact .line (hname.append ":") h

theorem proper_optionField (h : ∀ o ∈ maybe, Proper o) : Proper (optionField name maybe) := by
  cases maybe with
  | none => exact proper_noField hname
  | some o => exact proper_field hname (h o rfl)

theorem proper_valueField (value : String) : Proper (valueField name value) :=
  .line ((hname.append ": ").append value) (by simp)

end Fields

end Outline

/-! ### The lines of a tree -/

open Outline

theorem Identifier.outline_proper (i : Identifier) : Proper i.outline := by
  refine .line ?_ (by simp)
  split
  · exact Starts.append (by decide) _
  · exact Starts.append (by decide) _

theorem Operator.outline_proper (op : Operator) : Proper op.outline :=
  .line (((by decide : Starts "Operator '").append op.text).append "'") (by simp)

theorem Literal.outline_proper (l : Literal) : Proper l.outline := by
  have hnode : Starts l.form.node := by cases l.form <;> decide
  unfold outline
  split
  · exact .line hnode (by simp)
  · exact .line ((hnode.append " ").append _) (by simp)
  · exact .line hnode (by simpa using proper_noField (by decide))

mutual

theorem Expr.outline_proper : ∀ e : Expr, Proper e.outline
  | .ternary condition whenTrue whenFalse => by
    refine .line (by decide) ?_
    simpa using ⟨proper_field (by decide) condition.outline_proper,
      proper_field (by decide) whenTrue.outline_proper,
      proper_field (by decide) whenFalse.outline_proper⟩
  | .binary left op right => by
    refine .line (by decide) ?_
    simpa using ⟨proper_field (by decide) left.outline_proper,
      proper_field (by decide) op.outline_proper, proper_field (by decide) right.outline_proper⟩
  | .unary op operand => by
    refine .line (by decide) ?_
    simpa using ⟨proper_field (by decide) op.outline_proper,
      proper_field (by decide) operand.outline_proper⟩
  | .literal value => value.outline_proper
  | .name i => i.outline_proper
  | .call callee arguments => by
    refine .line (by decide) ?_
    simpa using ⟨proper_field (by decide) callee.outline_proper,
      proper_listField (by decide) (outlines_proper arguments)⟩
  | .group inner => by
    refine .line (by decide) ?_
    simpa using proper_field (by decide) inner.outline_proper
  | .array elements => by
    refine .line (by decide) ?_
    simpa using proper_listField (by decide) (outlines_proper elements)
  | .element base index => by
    refine .line (by decide) ?_
    simpa using ⟨proper_field (by decide) base.outline_proper,
      proper_field (by decide) (indexOutline_proper index)⟩

theorem Expr.outlines_proper : ∀ es : List Expr, ∀ o ∈ outlines es, Proper o
  | [] => by simp [outlines]
  | e :: es => List.forall_mem_cons.2 ⟨e.outline_proper, outlines_proper es⟩

theorem Expr.indexOutline_proper : ∀ i : Index Expr, Proper (indexOutline i)
  | .single value => by
    refine .line (by decide) ?_
    simpa using proper_field (by decide) value.outline_proper
  | .slice start stop => by
    refine .line (by decide) ?_
    simpa using ⟨proper_optionField (by decide) (bound_proper start),
      proper_optionField (by decide) (bound_proper stop)⟩

theorem Expr.bound_proper : ∀ b : Option Expr, ∀ o ∈ outline? b, Proper o
  | none => by simp [outline?]
  | some e => by
    intro o ho
    cases ho
    exact e.outline_proper

end

theorem Reference.outline_proper (r : Reference) : Proper r.outline := by
  induction r with
  | name i => exact i.outline_proper
  | element base index ih =>
    refine .line (by decide) ?_
    simpa using ⟨proper_field (by decide) ih,
      proper_field (by decide) (Expr.indexOutline_proper index)⟩

theorem blockOutline_proper {os : List Outline} (h : ∀ o ∈ os, Proper o) : Proper (blockOutline os) := by
  refine .line (by decide) ?_
  simpa using proper_listField (by decide) h

mutual

theorem Statement.outline_proper : ∀ s : Statement, Proper s.outline
  | .declaration name type value isMutable => by
    refine .line (by decide) ?_
    simpa using ⟨proper_field (by decide) name.outline_proper,
      proper_field (by decide) type.outline_proper, proper_field (by decide) value.outline_proper,
      proper_valueField (by decide) (flagShown isMutable)⟩
  | .assignment target value => by
    refine .line (by decide) ?_
    simpa using ⟨proper_field (by decide) target.outline_proper,
      proper_field (by decide) value.outline_proper⟩
  | .expression value => by
    refine .line (by decide) ?_
    simpa using proper_field (by decide) value.outline_proper
  | .result value => by
    refine .line (by decide) ?_
    simpa using proper_optionField (by decide) (Expr.bound_proper value)
  | .branch condition body otherwise => by
    refine .line (by decide) ?_
    simpa using ⟨proper_field (by decide) condition.outline_proper,
      proper_field (by decide) (blockOutline_proper (outlines_proper body)),
      proper_optionField (by decide) (otherwise_proper otherwise)⟩
  | .loop condition body => by
    refine .line (by decide) ?_
    simpa using ⟨proper_field (by decide) condition.outline_proper,
      proper_field (by decide) (blockOutline_proper (outlines_proper body))⟩

theorem Statement.outlines_proper : ∀ ss : List Statement, ∀ o ∈ outlines ss, Proper o
  | [] => by simp [outlines]
  | s :: ss => List.forall_mem_cons.2 ⟨s.outline_proper, outlines_proper ss⟩

theorem Statement.otherwise_proper : ∀ b : Option (List Statement), ∀ o ∈ blockOutline? b, Proper o
  | none => by simp [blockOutline?]
  | some body => by
    intro o ho
    cases ho
    exact blockOutline_proper (outlines_proper body)

end

theorem Parameter.outline_proper (p : Parameter) : Proper p.outline := by
  refine .line (by decide) ?_
  simpa using ⟨proper_field (by decide) p.name.outline_proper,
    proper_field (by decide) p.type.outline_proper⟩

theorem Import.outline_proper (i : Import) : Proper i.outline := by
  refine .line (by decide) ?_
  simpa using ⟨proper_field (by decide) i.name.outline_proper,
    proper_field (by decide) i.localName.outline_proper,
    proper_field (by decide) i.origin.outline_proper⟩

theorem forall_map_proper {α : Type} {outline : α → Outline} (h : ∀ a, Proper (outline a))
    (as : List α) : ∀ o ∈ as.map outline, Proper o :=
  List.forall_mem_map.2 fun a _ => h a

theorem Function.outline_proper (f : Function) : Proper f.outline := by
  have hresult : ∀ o ∈ f.resultType.map Identifier.outline, Proper o := by
    intro o ho
    obtain ⟨i, -, rfl⟩ := Option.map_eq_some_iff.1 ho
    exact i.outline_proper
  refine .line (by decide) ?_
  simpa using ⟨proper_field (by decide) f.name.outline_proper,
    proper_listField (by decide) (forall_map_proper Parameter.outline_proper f.parameters),
    proper_optionField (by decide) hresult,
    proper_field (by decide) (blockOutline_proper (Statement.outlines_proper f.body))⟩

theorem Module.outline_proper (m : Module) : Proper m.outline := by
  refine .line (by decide) ?_
  simpa using ⟨proper_field (by decide) m.name.outline_proper,
    proper_listField (by decide) (forall_map_proper Import.outline_proper m.imports),
    proper_listField (by decide) (forall_map_proper Function.outline_proper m.functions),
    proper_field (by decide) (blockOutline_proper (Statement.outlines_proper m.statements))⟩

end Pasture
