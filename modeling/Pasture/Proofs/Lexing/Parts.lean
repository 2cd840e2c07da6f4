import Mathlib.Data.List.Basic
import Pasture.Proofs.Lexing.Reading

/-! # The parts of a gap

What stands between two lexemes is read from left to right as block comments, continued lines and
runs of layout, in one way only.
-/
namespace Pasture.Lexing

/-- The piece is a part of a gap in front of `after`: a block comment up to the first end of it, a
backslash with all the layout behind it, or a run of layout that nothing prolongs. -/
inductive Part : Piece → List Char → Prop where
  | comment {body after} : ¬['*', '/'] <:+: body →
      Part ⟨.comment, '/' :: '*' :: body ++ ['*', '/']⟩ after
  | continuation {run after} : run.head?.any isBreak → Layout run after → Starts after →
      Part ⟨.continuation, '\\' :: run⟩ after
  | layout {run after} : run ≠ [] → Layout run after → Starts after → Part ⟨.layout, run⟩ after

inductive Parts (rest : List Char) : List Piece → Prop where
  | nil : Parts rest []
  | cons {p ps} : Part p (ps.flatMap Piece.text ++ rest) → Parts rest ps → Parts rest (p :: ps)

variable {c : Char} {cs run after more : List Char} {p : Piece} {ps qs : List Piece}

def Piece.Leads (p : Piece) (after : List Char) : Prop :=
  ∃ c cs, p.text ++ after = c :: cs ∧ first c cs = .ok (p, after)

theorem Piece.leads_of_first {rest : List Char} (h : first c cs = .ok (p, rest)) : p.Leads rest :=
  ⟨c, cs, (first_tiles c cs p rest h).2, h⟩

theorem Piece.Leads.unique {q : Piece} {other : List Char} (hp : p.Leads after)
    (hq : q.Leads other) (h : p.text ++ after = q.text ++ other) : p = q ∧ after = other := by
  obtain ⟨c, cs, htext, hfirst⟩ := hp
  obtain ⟨d, ds, htext', hfirst'⟩ := hq
  rw [htext, htext', List.cons.injEq] at h
  obtain ⟨rfl, rfl⟩ := h
  rw [hfirst, Except.ok.injEq, Prod.mk.injEq] at hfirst'
  exact hfirst'

theorem Piece.Leads.ne_nil (h : p.Leads after) : p.text ≠ [] := by
  obtain ⟨c, cs, -, hfirst⟩ := h
  exact (first_tiles c cs p after hfirst).1

theorem Layout.layoutRun_eq (h : Layout run after) (hafter : Starts after) :
    layoutRun false (run ++ after) = (run, after) := by
  have hlaid := h.laidOut
  rw [LaidOut, hafter.layoutRun, List.append_nil] at hlaid
  exact hlaid

theorem layout_of_layoutRun (h : layoutRun false cs = (run, after)) :
    Layout run after ∧ Starts after := by
  have hlayout := (layoutRun_layout cs).1
  have hstarts := layoutRun_starts false cs
  rw [h] at hlayout hstarts
  exact ⟨hlayout, hstarts⟩

theorem Part.leads (h : Part p after) : p.Leads after := by
  cases h with
  | @comment body _ hbody =>
    refine ⟨'/', '*' :: (body ++ ['*', '/'] ++ after), by simp, ?_⟩
    have hclose : closeComment (body ++ ['*', '/'] ++ after) =
        some (body ++ ['*', '/'], after) := by
      simpa using closeComment_complete hbody after
    change Piece.comment (body ++ ['*', '/'] ++ after) = _
    simp only [Piece.comment, hclose, List.cons_append]
  | @continuation run _ hhead hrun hafter =>
    refine ⟨'\\', run ++ after, rfl, ?_⟩
    have hbreak : (run ++ after).head?.any isBreak := by
      obtain ⟨b, hb, hbreak⟩ := (Option.any_eq_true _ _).1 hhead
      obtain ⟨more, rfl⟩ := List.head?_eq_some_iff.1 hb
      exact hbreak
    change Piece.continuation (run ++ after) = _
    rw [Piece.continuation, if_pos hbreak, hrun.layoutRun_eq hafter]
  | @layout run _ hne hrun hafter =>
    obtain ⟨c, cs, hcs⟩ := List.exists_cons_of_ne_nil (List.append_ne_nil_of_left_ne_nil hne after)
    refine ⟨c, cs, hcs, ?_⟩
    have hlayout := hrun.layoutRun_eq hafter
    rw [hcs] at hlayout
    have hrun : (layoutRun false (c :: cs)).1 ≠ [] := by
      rw [hlayout]
      exact hne
    rw [Piece.first, if_pos (isLayout_of_run hrun), Piece.layout, hlayout]

theorem Piece.Leads.part (h : p.Leads after) (hl : ∀ l, p.form ≠ .lexeme l) : Part p after := by
  have hne := h.ne_nil
  obtain ⟨c, cs, htext, hfirst⟩ := h
  rcases first_gap hfirst hl with ⟨hform, hrun⟩ | ⟨run, rfl, hhead, hrun⟩ | ⟨body, ds, rfl, hbody⟩
  · obtain ⟨hlayout, hafter⟩ := layout_of_layoutRun hrun
    obtain ⟨form, text⟩ := p
    obtain rfl : form = .layout := hform
    exact .layout hne hlayout hafter
  · obtain ⟨hlayout, hafter⟩ := layout_of_layoutRun hrun
    exact .continuation hhead hlayout hafter
  · obtain ⟨inner, rfl, hinner⟩ := closeComment_body hbody
    exact .comment hinner

theorem Part.no_lexeme (h : Part p after) : ∀ l, p.form ≠ .lexeme l := by
  cases h <;> nofun

theorem Parts.append (h : Parts (qs.flatMap Piece.text ++ after) ps) (k : Parts after qs) :
    Parts after (ps ++ qs) := by
  induction h with
  | nil => exact k
  | @cons p ps hp _ ih =>
    have hpart : Part p ((ps ++ qs).flatMap Piece.text ++ after) := by
      rw [List.flatMap_append, List.append_assoc]
      exact hp
    exact .cons hpart ih

/-- A gap is read in one way. By induction on the parts; where one reading ends, the other ends too,
since no part is empty. -/
theorem Parts.unique (hp : Parts after ps) (hq : Parts after qs)
    (h : ps.flatMap Piece.text = qs.flatMap Piece.text) : ps = qs := by
  induction hp generalizing qs with
  | nil =>
    cases hq with
    | nil => rfl
    | @cons q qs hq _ =>
      have hne := hq.leads.ne_nil
      simp [hne] at h
  | @cons p ps hp _ ih =>
    cases hq with
    | nil =>
      have hne := hp.leads.ne_nil
      simp [hne] at h
    | @cons q qs hq hqs =>
      have htext : p.text ++ (ps.flatMap Piece.text ++ after) =
          q.text ++ (qs.flatMap Piece.text ++ after) := by
        rw [List.flatMap_cons, List.flatMap_cons] at h
        rw [← List.append_assoc, h, List.append_assoc]
      obtain ⟨rfl, hrest⟩ := hp.leads.unique hq.leads htext
      rw [ih hqs (List.append_cancel_right hrest)]

/-! ### Longer texts -/

theorem Layout.extends (h : Layout run after) (hafter : after ≠ []) (more : List Char) :
    Layout run (after ++ more) := by
  induction h with
  | nil => exact .nil _
  | blank hc _ ih => exact .blank hc (ih hafter)
  | @line body run after hbody hhead _ ih =>
    refine .line hbody ?_ (ih hafter)
    rw [← List.append_assoc, List.head?_append_of_ne_nil _ (by simp [hafter])]
    exact hhead

theorem Starts.extends (h : Starts after) (hafter : after ≠ []) (more : List Char) :
    Starts (after ++ more) := by
  rw [Starts, List.head?_append_of_ne_nil _ hafter]
  exact h

theorem Part.extends (h : Part p after) (hafter : after ≠ []) (more : List Char) :
    Part p (after ++ more) := by
  cases h with
  | comment hbody => exact .comment hbody
  | continuation hhead hrun hstarts =>
    exact .continuation hhead (hrun.extends hafter more) (hstarts.extends hafter more)
  | layout hne hrun hstarts =>
    exact .layout hne (hrun.extends hafter more) (hstarts.extends hafter more)

/-- A piece with anything behind it is the same piece where the text goes on. -/
theorem Piece.Leads.extends (h : p.Leads after) (hafter : after ≠ []) (more : List Char) :
    p.Leads (after ++ more) := by
  by_cases hl : ∃ l, p.form = .lexeme l
  · obtain ⟨l, hl⟩ := hl
    have hother : Replaces (after ++ more) after := by
      intro d hd
      rw [List.head?_append_of_ne_nil _ hafter] at hd
      exact .inl hd
    obtain ⟨c, cs, -, hfirst⟩ := h
    obtain ⟨ds, hds, hstays⟩ := first_stays hfirst hl hother
    exact ⟨c, ds ++ (after ++ more), by rw [hds]; rfl, hstays⟩
  · exact ((h.part (not_exists.1 hl)).extends hafter more).leads

end Pasture.Lexing
