import Pasture.Proofs.Grammar.Yield

/-! # Grouping, node by node

Whether an expression agrees with the table of precedence shows at every node by the outermost forms
of its operands alone. The rows are numbered from the loosest on, and an expression may be an operand
in a row if its tightness is above the row's number. `isGrouped_iff` relates the check of the nodes
to the rules by which an expression stands where some rows are read.
-/
namespace Pasture

def Operator.row (op : Operator) (leads : Bool) : Nat :=
  precedence.findIdx fun row => decide (row.fixity = .pre) == leads && row.operators.contains op

/-- In how many rows an expression may be read: a ternary in none, an operation in those up to the
row of its operator, and an atom in all of them and by itself. -/
def Expr.tightness : Expr → Nat
  | .ternary .. => 0
  | .binary _ op _ => op.row false + 1
  | .unary op _ => op.row true + 1
  | .literal _ | .name _ | .call .. | .group _ | .array _ | .element .. => precedence.length + 1

/-- Whether the operator may stand between operands that are so tight. The operand on the side to
which its row groups may come from the row itself, the other has to be tighter. -/
def Operator.joins (op : Operator) (left right : Nat) : Bool :=
  match precedence[op.row false]?.map PrecedenceRow.fixity with
  | some .left => op.row false < left && op.row false + 1 < right
  | some .right => op.row false + 1 < left && op.row false < right
  | some .pre | none => false

def Operator.leads (op : Operator) (operand : Nat) : Bool :=
  op.row true < precedence.length && op.row true < operand

mutual

def Expr.isGrouped : Expr → Bool
  | .ternary condition whenTrue whenFalse =>
    0 < condition.tightness && condition.isGrouped && whenTrue.isGrouped && whenFalse.isGrouped
  | .binary left op right =>
    op.joins left.tightness right.tightness && left.isGrouped && right.isGrouped
  | .unary op operand => op.leads operand.tightness && operand.isGrouped
  | .literal _ | .name _ => true
  | .call _ arguments => areGrouped arguments
  | .group inner => inner.isGrouped
  | .array elements => areGrouped elements
  | .element base index => precedence.length < base.tightness && base.isGrouped && indexGrouped index

def Expr.areGrouped : List Expr → Bool
  | [] => true
  | e :: es => e.isGrouped && areGrouped es

def Expr.indexGrouped : Index Expr → Bool
  | .single value => value.isGrouped
  | .slice start stop => boundGrouped start && boundGrouped stop

def Expr.boundGrouped : Option Expr → Bool
  | none => true
  | some e => e.isGrouped

end

theorem Expr.areGrouped_iff {es : List Expr} : areGrouped es ↔ ∀ e ∈ es, e.isGrouped := by
  induction es with
  | nil => simp [areGrouped]
  | cons e es ih => simp [areGrouped, ih]

theorem Expr.boundGrouped_iff {limit : Option Expr} :
    boundGrouped limit ↔ ∀ e ∈ limit, e.isGrouped := by
  cases limit <;> simp [boundGrouped]

section Rows

variable {row : PrecedenceRow} {rows : List PrecedenceRow} {op : Operator} {leads : Bool} {k : Nat}

theorem row_of_drop (h : row :: rows = precedence.drop k) :
    precedence[k]? = some row ∧ rows = precedence.drop (k + 1) := by
  constructor
  · simpa using (congrArg List.head? h).symm
  · simpa [List.tail_drop] using congrArg List.tail h

theorem drop_of_row (h : precedence[k]? = some row) :
    precedence.drop k = row :: precedence.drop (k + 1) := by
  obtain ⟨hk, rfl⟩ := List.getElem?_eq_some_iff.1 h
  exact List.drop_eq_getElem_cons hk

/-- An operator is read by one row between operands, and by one in front of an operand. -/
theorem Operator.row_eq (h : precedence[k]? = some row) (hop : op ∈ row.operators) :
    op.row (row.fixity = .pre) = k := by
  have all : ∀ k : Fin precedence.length, ∀ op ∈ precedence[k].operators,
      op.row (precedence[k].fixity = .pre) = k := by decide
  obtain ⟨hk, rfl⟩ := List.getElem?_eq_some_iff.1 h
  exact all ⟨k, hk⟩ op hop

theorem Operator.mem_row (h : precedence[op.row leads]? = some row) :
    decide (row.fixity = .pre) = leads ∧ op ∈ row.operators := by
  obtain ⟨hk, rfl⟩ := List.getElem?_eq_some_iff.1 h
  have hfound := List.findIdx_getElem (w := hk)
  rw [Bool.and_eq_true, beq_iff_eq, List.contains_iff_mem] at hfound
  exact hfound

theorem Operator.joins_iff {left right : Nat} :
    op.joins left right ↔ ∃ row, precedence[op.row false]? = some row ∧ op ∈ row.operators ∧
      (row.fixity = .left ∧ op.row false < left ∧ op.row false + 1 < right ∨
        row.fixity = .right ∧ op.row false + 1 < left ∧ op.row false < right) := by
  unfold joins
  cases hrow : precedence[op.row false]? with
  | none => simp
  | some row =>
    obtain ⟨hf, hop⟩ := mem_row hrow
    cases hfix : row.fixity <;> simp_all

theorem Operator.leads_iff {operand : Nat} :
    op.leads operand ↔ ∃ row, precedence[op.row true]? = some row ∧ op ∈ row.operators ∧
      row.fixity = .pre ∧ op.row true < operand := by
  unfold leads
  constructor
  · intro h
    rw [Bool.and_eq_true, decide_eq_true_eq, decide_eq_true_eq] at h
    have hrow := List.getElem?_eq_getElem h.1
    obtain ⟨hf, hop⟩ := mem_row hrow
    exact ⟨_, hrow, hop, of_decide_eq_true hf, h.2⟩
  · rintro ⟨row, hrow, -, -, htight⟩
    obtain ⟨hlt, -⟩ := List.getElem?_eq_some_iff.1 hrow
    simp [hlt, htight]

end Rows

/-- Where the rows from number `k` on are read, every expression that stands is tighter than `k`. -/
theorem Expr.Stands.isGrouped_at {place : Place} {e : Expr} (h : e.Stands place) :
    (place = .whole → e.isGrouped) ∧
      ∀ k ≤ precedence.length, place = .rows (precedence.drop k) → e.isGrouped ∧ k < e.tightness := by
  induction h with
  | ternary _ _ _ hc ht hf =>
    refine ⟨fun _ => ?_, fun k _ hp => by cases hp⟩
    obtain ⟨hgrouped, htight⟩ := hc.2 0 (Nat.zero_le _) rfl
    simp [isGrouped, htight, hgrouped, ht.1 rfl, hf.1 rfl]
  | operand _ ih =>
    exact ⟨fun _ => (ih.2 0 (Nat.zero_le _) rfl).1, fun k _ hp => by cases hp⟩
  | tighter _ ih =>
    refine ⟨nofun, fun k hk hp => ?_⟩
    obtain ⟨hrow, hrows⟩ := row_of_drop (Place.rows.inj hp)
    obtain ⟨hlt, -⟩ := List.getElem?_eq_some_iff.1 hrow
    obtain ⟨hgrouped, htight⟩ := ih.2 (k + 1) hlt (congrArg Place.rows hrows)
    exact ⟨hgrouped, by omega⟩
  | @left row rows left op right hf hop _ _ hl hr =>
    refine ⟨nofun, fun k hk hp => ?_⟩
    obtain ⟨hrow, hrows⟩ := row_of_drop (Place.rows.inj hp)
    obtain ⟨hlt, -⟩ := List.getElem?_eq_some_iff.1 hrow
    obtain ⟨hgl, htl⟩ := hl.2 k hk hp
    obtain ⟨hgr, htr⟩ := hr.2 (k + 1) hlt (congrArg Place.rows hrows)
    have hnumber : op.row false = k := by simpa [hf] using Operator.row_eq hrow hop
    have hjoins : op.joins left.tightness right.tightness := by
      rw [Operator.joins_iff, hnumber]
      exact ⟨row, hrow, hop, .inl ⟨hf, htl, htr⟩⟩
    exact ⟨by simp [isGrouped, hjoins, hgl, hgr], by simp [tightness, hnumber]⟩
  | @right row rows left op right hf hop _ _ hl hr =>
    refine ⟨nofun, fun k hk hp => ?_⟩
    obtain ⟨hrow, hrows⟩ := row_of_drop (Place.rows.inj hp)
    obtain ⟨hlt, -⟩ := List.getElem?_eq_some_iff.1 hrow
    obtain ⟨hgl, htl⟩ := hl.2 (k + 1) hlt (congrArg Place.rows hrows)
    obtain ⟨hgr, htr⟩ := hr.2 k hk hp
    have hnumber : op.row false = k := by simpa [hf] using Operator.row_eq hrow hop
    have hjoins : op.joins left.tightness right.tightness := by
      rw [Operator.joins_iff, hnumber]
      exact ⟨row, hrow, hop, .inr ⟨hf, htl, htr⟩⟩
    exact ⟨by simp [isGrouped, hjoins, hgl, hgr], by simp [tightness, hnumber]⟩
  | @unary row rows op operand hf hop _ ih =>
    refine ⟨nofun, fun k hk hp => ?_⟩
    obtain ⟨hrow, -⟩ := row_of_drop (Place.rows.inj hp)
    obtain ⟨hgrouped, htight⟩ := ih.2 k hk hp
    have hnumber : op.row true = k := by simpa [hf] using Operator.row_eq hrow hop
    have hleads : op.leads operand.tightness := by
      rw [Operator.leads_iff, hnumber]
      exact ⟨row, hrow, hop, hf, htight⟩
    exact ⟨by simp [isGrouped, hleads, hgrouped], by simp [tightness, hnumber]⟩
  | literal | name => exact ⟨nofun, fun k hk _ => ⟨by simp [isGrouped], Nat.lt_succ_of_le hk⟩⟩
  | call _ ih | array _ ih =>
    refine ⟨nofun, fun k hk _ => ⟨?_, Nat.lt_succ_of_le hk⟩⟩
    simpa [isGrouped, areGrouped_iff] using fun e he => (ih e he).1 rfl
  | group _ ih => exact ⟨nofun, fun k hk _ => ⟨by simpa [isGrouped] using ih.1 rfl, Nat.lt_succ_of_le hk⟩⟩
  | single _ _ hb hv =>
    refine ⟨nofun, fun k hk _ => ⟨?_, Nat.lt_succ_of_le hk⟩⟩
    obtain ⟨hgrouped, htight⟩ := hb.2 precedence.length (Nat.le_refl _) rfl
    simp [isGrouped, indexGrouped, hgrouped, htight, hv.1 rfl]
  | slice _ _ _ hb hs ht =>
    refine ⟨nofun, fun k hk _ => ⟨?_, Nat.lt_succ_of_le hk⟩⟩
    obtain ⟨hgrouped, htight⟩ := hb.2 precedence.length (Nat.le_refl _) rfl
    have hstart := boundGrouped_iff.2 fun e he => (hs e he).1 rfl
    have hstop := boundGrouped_iff.2 fun e he => (ht e he).1 rfl
    simp [isGrouped, indexGrouped, hgrouped, htight, hstart, hstop]

structure Expr.Placed (e : Expr) : Prop where
  whole : e.Stands .whole
  rows : ∀ k < e.tightness, e.Stands (.rows (precedence.drop k))

theorem Expr.Placed.of_rows {e : Expr} {k : Nat} (h : e.Stands (.rows (precedence.drop k)))
    (hk : e.tightness = k + 1) : e.Placed := by
  refine ⟨h.whole_of_suffix (List.drop_suffix ..), fun j hj => h.loosen ?_⟩
  exact List.drop_suffix_drop_left _ (by omega)

theorem Expr.Placed.of_atom {e : Expr} (h : e.Stands (.rows []))
    (he : e.tightness = precedence.length + 1) : e.Placed :=
  .of_rows (k := precedence.length) h he

theorem Expr.Placed.atom {e : Expr} (h : e.Placed) (he : precedence.length < e.tightness) :
    e.Stands (.rows []) :=
  h.rows precedence.length he

mutual

theorem Expr.placed_of_isGrouped : ∀ e : Expr, e.isGrouped → e.Placed
  | .ternary condition whenTrue whenFalse, h => by
    simp only [isGrouped, Bool.and_eq_true, decide_eq_true_eq] at h
    obtain ⟨⟨⟨htight, hc⟩, ht⟩, hf⟩ := h
    have hcondition := (placed_of_isGrouped condition hc).rows 0 htight
    refine ⟨.ternary hcondition (placed_of_isGrouped whenTrue ht).whole
      (placed_of_isGrouped whenFalse hf).whole, fun k hk => ?_⟩
    cases hk
  | .binary left op right, h => by
    simp only [isGrouped, Bool.and_eq_true] at h
    obtain ⟨⟨hjoins, hl⟩, hr⟩ := h
    have hleft := placed_of_isGrouped left hl
    have hright := placed_of_isGrouped right hr
    obtain ⟨row, hrow, hop, ⟨hf, htl, htr⟩ | ⟨hf, htl, htr⟩⟩ := Operator.joins_iff.1 hjoins
    · refine .of_rows ?_ rfl
      have hl := hleft.rows _ htl
      rw [drop_of_row hrow] at hl ⊢
      exact .left hf hop hl (hright.rows _ htr)
    · refine .of_rows ?_ rfl
      have hr := hright.rows _ htr
      rw [drop_of_row hrow] at hr ⊢
      exact .right hf hop (hleft.rows _ htl) hr
  | .unary op operand, h => by
    simp only [isGrouped, Bool.and_eq_true] at h
    obtain ⟨row, hrow, hop, hf, htight⟩ := Operator.leads_iff.1 h.1
    have hoperand := (placed_of_isGrouped operand h.2).rows _ htight
    refine .of_rows ?_ rfl
    rw [drop_of_row hrow] at hoperand ⊢
    exact .unary hf hop hoperand
  | .literal value, _ => .of_atom (.literal value) rfl
  | .name i, _ => .of_atom (.name i) rfl
  | .call callee arguments, h => .of_atom (.call (stands_of_areGrouped arguments h)) rfl
  | .group inner, h => .of_atom (.group (placed_of_isGrouped inner h).whole) rfl
  | .array elements, h => .of_atom (.array (stands_of_areGrouped elements h)) rfl
  | .element base (.single value), h => by
    simp only [isGrouped, indexGrouped, Bool.and_eq_true, decide_eq_true_eq] at h
    obtain ⟨⟨htight, hb⟩, hv⟩ := h
    exact .of_atom (.single ((placed_of_isGrouped base hb).atom htight)
      (placed_of_isGrouped value hv).whole) rfl
  | .element base (.slice start stop), h => by
    simp only [isGrouped, indexGrouped, Bool.and_eq_true, decide_eq_true_eq] at h
    obtain ⟨⟨htight, hb⟩, hs, ht⟩ := h
    exact .of_atom (.slice ((placed_of_isGrouped base hb).atom htight)
      (stands_of_boundGrouped start hs) (stands_of_boundGrouped stop ht)) rfl

theorem Expr.stands_of_areGrouped : ∀ es : List Expr, areGrouped es → ∀ e ∈ es, e.Stands .whole
  | [], _, e, he => by cases he
  | f :: fs, h, e, he => by
    simp only [areGrouped, Bool.and_eq_true] at h
    rcases List.mem_cons.1 he with heq | he
    · rw [heq]
      exact (placed_of_isGrouped f h.1).whole
    · exact stands_of_areGrouped fs h.2 e he

theorem Expr.stands_of_boundGrouped :
    ∀ limit : Option Expr, boundGrouped limit → ∀ e ∈ limit, e.Stands .whole
  | none, _, e, he => by cases he
  | some f, h, e, he => by
    rw [← Option.some.inj he]
    exact (placed_of_isGrouped f h).whole

end

/-- The check of the nodes decides whether an expression stands by itself. -/
theorem Expr.isGrouped_iff {e : Expr} : e.isGrouped ↔ e.Stands .whole :=
  ⟨fun h => (placed_of_isGrouped e h).whole, fun h => h.isGrouped_at.1 rfl⟩

instance (e : Expr) : Decidable (e.Stands .whole) := decidable_of_iff _ Expr.isGrouped_iff

-- a sign is applied to the whole power behind it, and never to the base alone
example : (Expr.unary .minus (.binary (.name (.simple "a")) .power (.name (.simple "b")))).isGrouped ∧
    ¬(Expr.binary (.unary .minus (.name (.simple "a"))) .power (.name (.simple "b"))).isGrouped := by
  decide

end Pasture
