import Pasture.Proofs.Token.Normal

/-! # Runs of names

A run is made of names with a dot between each two. Neither of the two passes that bring a stream
into its normal form stops within a run: the first keeps all of it, the second makes one name of it.
-/
namespace Pasture

def Token.segments (t : Token) : List String :=
  match t.lexeme with
  | .identifier i => i.segments
  | _ => []

namespace Normal

inductive NameRun : List Token → Prop where
  | name {t : Token} : t.kind = .identifier → NameRun [t]
  | dotted {t dot : Token} {ts : List Token} : t.kind = .identifier →
      dot.lexeme = .symbol .dot → NameRun ts → NameRun (t :: dot :: ts)

/-- The name that takes the place of a run. It has a span if the first and the last token have. -/
structure Fusion (run : List Token) (u : Token) : Prop where
  name : ∃ i, u.lexeme = .identifier i ∧ i.segments = run.flatMap Token.segments
  span : u.span = (run.head?.bind Token.span).bind fun first =>
    (run.getLast?.bind Token.span).map first.through
  bare : u.text = none

variable {t u dot : Token} {front left right run rest ts : List Token}

theorem kind_eq_identifier : t.kind = .identifier ↔ ∃ i, t.lexeme = .identifier i := by
  cases h : t.lexeme <;> simp [Token.kind, Lexeme.kind, h]

theorem not_dot_of_name (ht : t.kind = .identifier) : t.lexeme ≠ .symbol .dot := by
  intro hdot
  simp [Token.kind, Lexeme.kind, hdot] at ht

theorem not_absorbsNewline_of_dot (hdot : dot.lexeme = .symbol .dot) :
    dot.absorbsNewline = false := by
  simp [Token.absorbsNewline, hdot, Symbol.absorbsNewline]

namespace NameRun

theorem ne_nil (h : NameRun run) : run ≠ [] := by
  cases h <;> exact List.cons_ne_nil _ _

theorem first (h : NameRun (t :: ts)) : t.kind = .identifier := by
  cases h <;> assumption

/-- Behind the first name there is a dot and a run, if there is anything. -/
theorem behind_first (h : NameRun (t :: ts)) :
    ts = [] ∨ ∃ dot us, ts = dot :: us ∧ dot.lexeme = .symbol .dot ∧ NameRun us := by
  cases h with
  | name => exact .inl rfl
  | dotted _ hdot hrun => exact .inr ⟨_, _, rfl, hdot, hrun⟩

theorem eq_single (h : NameRun run) (hshort : ¬1 < run.length) : ∃ t, run = [t] := by
  rcases List.length_eq_one_iff.1 (Nat.le_antisymm (Nat.not_lt.1 hshort)
    (List.length_pos_of_ne_nil h.ne_nil)) with ⟨t, rfl⟩
  exact ⟨t, rfl⟩

theorem last (h : NameRun run) : ∃ t ∈ run.getLast?, t.kind = .identifier := by
  induction h with
  | name hname => exact ⟨_, rfl, hname⟩
  | dotted _ _ _ ih =>
    obtain ⟨t, ht, hname⟩ := ih
    exact ⟨t, List.mem_getLast?_cons (List.mem_getLast?_cons ht), hname⟩

/-- Two runs that overlap are one. -/
theorem overlap (h : NameRun (left ++ run)) (hrun : NameRun (run ++ right)) (hne : run ≠ []) :
    NameRun (left ++ (run ++ right)) := by
  generalize htotal : left ++ run = total at h
  induction h generalizing left with
  | @name t hname =>
    rcases List.append_eq_singleton_iff.1 htotal with ⟨rfl, rfl⟩ | ⟨-, rfl⟩
    · exact hrun
    · exact absurd rfl hne
  | @dotted t dot ts hname hdot _ ih =>
    rcases left with - | ⟨s, - | ⟨d, left⟩⟩
    · exact hrun
    · -- the second run would begin with the dot
      obtain ⟨rfl, rfl⟩ := List.cons_eq_cons.1 htotal
      exact absurd hdot (not_dot_of_name hrun.first)
    · simp only [List.cons_append, List.cons.injEq] at htotal
      obtain ⟨rfl, rfl, hrest⟩ := htotal
      exact .dotted hname hdot (ih hrest)

/-- A run goes on behind a dot and a name. -/
theorem longer (h : NameRun run) (hdot : dot.lexeme = .symbol .dot) (ht : t.kind = .identifier) :
    NameRun (run ++ [dot, t]) := by
  induction h with
  | name hname => exact .dotted hname hdot (.name ht)
  | dotted hname hfirst _ ih => exact .dotted hname hfirst ih

/-- A run goes on behind every dot in it. -/
theorem behind_dot (h : NameRun (front ++ dot :: rest)) (hdot : dot.lexeme = .symbol .dot) :
    ∃ t ∈ rest.head?, t.kind = .identifier := by
  generalize htotal : front ++ dot :: rest = total at h
  induction h generalizing front with
  | @name t hname =>
    rcases front with - | ⟨s, front⟩
    · obtain ⟨rfl, -⟩ := List.cons_eq_cons.1 htotal
      exact absurd hdot (not_dot_of_name hname)
    · simp at htotal
  | @dotted t d ts hname _ hrun ih =>
    rcases front with - | ⟨s, - | ⟨d, front⟩⟩
    · obtain ⟨rfl, -⟩ := List.cons_eq_cons.1 htotal
      exact absurd hdot (not_dot_of_name hname)
    · simp only [List.cons_append, List.nil_append, List.cons.injEq] at htotal
      obtain ⟨-, -, rfl⟩ := htotal
      cases hrun with
      | name hnext => exact ⟨_, rfl, hnext⟩
      | dotted hnext => exact ⟨_, rfl, hnext⟩
    · simp only [List.cons_append, List.cons.injEq] at htotal
      exact ih htotal.2.2

end NameRun

def Ended (run rest : List Token) : Prop :=
  ∀ right, right <+: rest → NameRun (run ++ right) → right = []

/-- Every name begins a run that has ended. -/
theorem exists_run {t : Token} (ht : t.kind = .identifier) (ts : List Token) :
    ∃ run rest, t :: ts = run ++ rest ∧ NameRun run ∧ Ended run rest := by
  by_cases hnext : ∃ dot s us,
      ts = dot :: s :: us ∧ dot.lexeme = .symbol .dot ∧ s.kind = .identifier
  · obtain ⟨dot, s, us, rfl, hdot, hs⟩ := hnext
    obtain ⟨run, rest, hparts, hrun, hended⟩ := exists_run hs us
    refine ⟨t :: dot :: run, rest, by simp [hparts], .dotted ht hdot hrun, ?_⟩
    intro right hright hlonger
    cases hlonger with
    | dotted _ _ hlonger => exact hended right hright hlonger
  · refine ⟨[t], ts, rfl, .name ht, ?_⟩
    intro right hright hlonger
    rcases hlonger.behind_first with hnone | ⟨dot, us, rfl, hdot, hus⟩
    · exact hnone
    · obtain ⟨rest, rfl⟩ := hright
      rcases us with - | ⟨s, us⟩
      · exact absurd rfl hus.ne_nil
      · exact absurd ⟨dot, s, us ++ rest, rfl, hdot, hus.first⟩ hnext
termination_by ts.length

/-! ### Runs in the two passes -/

theorem elide_run (hrun : NameRun run) (absorbing : Bool) (ts : List Token) :
    elide absorbing (run ++ ts) = run ++ elide false ts := by
  have hkept {t : Token} (absorbing : Bool) (ts : List Token) (ht : t.lexeme ≠ .newline)
      (habsorbs : t.absorbsNewline = false) :
      elide absorbing (t :: ts) = t :: elide false ts := by
    rw [elide_cons absorbing ht, habsorbs]
  induction hrun generalizing absorbing with
  | @name t hname =>
    obtain ⟨i, hi⟩ := kind_eq_identifier.1 hname
    exact hkept absorbing ts (by simp [hi]) (Token.not_absorbsNewline_of_name hi)
  | @dotted t dot run hname hdot _ ih =>
    obtain ⟨i, hi⟩ := kind_eq_identifier.1 hname
    rw [List.cons_append, List.cons_append,
      hkept absorbing _ (by simp [hi]) (Token.not_absorbsNewline_of_name hi),
      hkept false _ (by simp [hdot]) (not_absorbsNewline_of_dot hdot), ih]
    rfl

structure Joined (c : Chain) (run : List Token) (d : Chain) : Prop where
  segments : d.name.segments = c.name.segments ++ run.flatMap Token.segments
  first : d.first = c.first
  last : d.last = run.getLast?.bind Token.span

theorem fuse_dotted_run (hrun : NameRun run) (c : Chain) (dot : Token) :
    ∃ d, Joined c run d ∧ ∀ ts, fuse (.dotted c dot) (run ++ ts) = fuse (.name d) ts := by
  induction hrun generalizing c dot with
  | @name t hname =>
    obtain ⟨i, hi⟩ := kind_eq_identifier.1 hname
    refine ⟨c.extend i t.span, ⟨?_, rfl, rfl⟩, fun ts => by simp [fuse, hi]⟩
    simp [Chain.extend, Token.segments, hi]
  | @dotted t next run hname hnext hrun ih =>
    obtain ⟨i, hi⟩ := kind_eq_identifier.1 hname
    obtain ⟨d, hd, hfuse⟩ := ih (c.extend i t.span) next
    refine ⟨d, ⟨?_, hd.first, ?_⟩, fun ts => by simp [fuse, hi, hnext, hfuse]⟩
    · simp [hd.segments, Chain.extend, Token.segments, hi, hnext]
    · rw [hd.last, List.getLast?_cons_cons, List.getLast?_cons_of_ne_nil hrun.ne_nil]

theorem fuse_run (hrun : NameRun run) :
    ∃ c : Chain, Fusion run c.token ∧ ∀ ts, fuse .nothing (run ++ ts) = fuse (.name c) ts := by
  cases hrun with
  | @name t hname =>
    obtain ⟨i, hi⟩ := kind_eq_identifier.1 hname
    refine ⟨.start i t.span, ⟨⟨i, rfl, ?_⟩, rfl, rfl⟩, fun ts => by simp [fuse, hi]⟩
    simp [Token.segments, hi]
  | @dotted t dot run hname hdot hrun =>
    obtain ⟨i, hi⟩ := kind_eq_identifier.1 hname
    obtain ⟨d, hd, hfuse⟩ := fuse_dotted_run hrun (.start i t.span) dot
    refine ⟨d, ⟨⟨d.name, rfl, ?_⟩, ?_, rfl⟩, fun ts => by simp [fuse, hi, hdot, hfuse]⟩
    · simp [hd.segments, Chain.start, Token.segments, hi, hdot]
    · rw [List.getLast?_cons_cons, List.getLast?_cons_of_ne_nil hrun.ne_nil, ← hd.last]
      exact congrArg (·.bind fun first => d.last.map first.through) hd.first

/-! ### The name in the place of a run -/

theorem Fusion.unique (h : Fusion run t) (k : Fusion run u) : t = u := by
  obtain ⟨i, hi, hsegments⟩ := h.name
  obtain ⟨j, hj, hothers⟩ := k.name
  have hname : i = j := by
    obtain ⟨hhead, htail⟩ := List.cons.inj (hsegments.trans hothers.symm)
    cases i
    cases j
    exact congrArg₂ Identifier.mk hhead htail
  have hlexeme : t.lexeme = u.lexeme := by rw [hi, hj, hname]
  cases t
  cases u
  exact Token.mk.injEq .. ▸ ⟨hlexeme, h.span.trans k.span.symm, h.bare.trans k.bare.symm⟩

theorem Fusion.single (ht : t.kind = .identifier) (hbare : t.Bare) : Fusion [t] t := by
  obtain ⟨i, hi⟩ := kind_eq_identifier.1 ht
  constructor
  · exact ⟨i, hi, by simp [Token.segments, hi]⟩
  · cases hspan : t.span <;> simp [hspan]
  · exact hbare i hi

theorem head_elide (ts : List Token) : (elide false ts).head? = ts.head? := by
  cases ts <;> simp [elide]

theorem fuse_name_apart (c : Chain) (h : ∀ t ∈ ts.head?, t.lexeme ≠ .symbol .dot) :
    fuse (.name c) ts = (c.token :: ·) <$> fuse .nothing ts := by
  rcases ts with - | ⟨t, ts⟩
  · rfl
  have hdot : t.lexeme ≠ .symbol .dot := h t rfl
  by_cases hname : ∃ i, t.lexeme = .identifier i
  · obtain ⟨i, hi⟩ := hname
    simp [fuse, hi]
  · rw [fuse_name_other hdot (not_exists.1 hname), fuse_cons_other (not_exists.1 hname)]
    exact comp_map _ _ _

theorem fuse_dotted_apart (c : Chain) (dot : Token) (h : ∀ t ∈ ts.head?, t.kind ≠ .identifier) :
    fuse (.dotted c dot) ts = .error (segmentError dot ts.head?) := by
  rcases ts with - | ⟨t, ts⟩
  · rfl
  have hname : ∀ i, t.lexeme ≠ .identifier i := fun i hi =>
    h t rfl (kind_eq_identifier.2 ⟨i, hi⟩)
  rw [fuse]
  split
  · exact absurd ‹_› (hname _)
  · rfl

end Normal
end Pasture
