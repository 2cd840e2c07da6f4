import Pasture.Proofs.Token.Runs

/-! # What the normal form is

The normal form is described by the stream alone: a newline behind a newline, an opening bracket or
a comma goes, a longest run of names with dots between them becomes one name, and every other token
stays. There is no normal form if and only if a dot behind a name has no name behind it, and the
first such dot is what is reported.
-/
namespace Pasture.Normal

structure IsLayout (before : List Token) (t : Token) : Prop where
  newline : t.lexeme = .newline
  behind : ∃ s ∈ before.getLast?, s.lexeme ∈ [.newline, .symbol .lparen, .symbol .lbrace,
    .symbol .lbracket, .symbol .comma]

def InRun (before : List Token) (t : Token) (behind : List Token) : Prop :=
  ∃ left right, left <:+ before ∧ right <+: behind ∧ NameRun (left ++ t :: right) ∧
    (left ≠ [] ∨ right ≠ [])

structure LongestRun (before run behind : List Token) : Prop where
  names : NameRun run
  several : 1 < run.length
  longest : ∀ left right, left <:+ before → right <+: behind → NameRun (left ++ (run ++ right)) →
    left = [] ∧ right = []

inductive Condensed : List Token → List Token → List Token → Prop where
  | nil {before : List Token} : Condensed before [] []
  | drop {before ts us : List Token} {t : Token} : IsLayout before t →
      Condensed (before ++ [t]) ts us → Condensed before (t :: ts) us
  | fuse {before run ts us : List Token} {u : Token} : LongestRun before run ts → Fusion run u →
      Condensed (before ++ run) ts us → Condensed before (run ++ ts) (u :: us)
  | keep {before ts us : List Token} {t : Token} : ¬IsLayout before t → ¬InRun before t ts →
      Condensed (before ++ [t]) ts us → Condensed before (t :: ts) (t :: us)

/-- The dot follows a name, and no name follows the dot. -/
structure Dangling (tokens before : List Token) (dot : Token) (behind : List Token) : Prop where
  parts : tokens = before ++ dot :: behind
  name : ∃ s ∈ before.getLast?, s.kind = .identifier
  symbol : dot.lexeme = .symbol .dot
  ended : ∀ t ∈ behind.head?, t.kind ≠ .identifier

structure FirstDangling (tokens before : List Token) (dot : Token) (behind : List Token) : Prop
    extends Dangling tokens before dot behind where
  first : ∀ b d r, Dangling tokens b d r → before.length ≤ b.length

structure SegmentMissing (dot : Token) (found : Option Token) (e : ParseError) : Prop where
  cause : e.cause = .syntactic (.expected .segment)
  token : e.token = found
  atEnd : e.atEnd = true ↔ ∀ t ∈ found, t.lexeme = .endOfInput
  span : e.span = if e.atEnd then dot.span else found.bind Token.span <|> dot.span
  suggestions : e.suggestions = []

variable {t u dot : Token} {before front left right run rest ts us : List Token}

theorem segmentError_missing (dot : Token) (found : Option Token) :
    SegmentMissing dot found (segmentError dot found) := by
  cases found with
  | none => constructor <;> simp [segmentError, ParseError.syntactic]
  | some t =>
    by_cases ht : t.isEnd = true
    · constructor <;> simp [segmentError, ParseError.syntactic, ht, Token.isEnd_iff.1 ht]
    · constructor <;> simp [segmentError, ParseError.syntactic, ht, mt Token.isEnd_iff.2 ht]

theorem SegmentMissing.unique {found : Option Token} {e f : ParseError}
    (he : SegmentMissing dot found e) (hf : SegmentMissing dot found f) : e = f := by
  have hatEnd : e.atEnd = f.atEnd := Bool.eq_iff_iff.2 (he.atEnd.trans hf.atEnd.symm)
  have hspan : e.span = f.span := by rw [he.span, hf.span, hatEnd]
  cases e
  cases f
  exact ParseError.mk.injEq .. ▸ ⟨he.cause.trans hf.cause.symm, hspan,
    he.token.trans hf.token.symm, hatEnd, he.suggestions.trans hf.suggestions.symm⟩

/-- There is only one first. -/
theorem FirstDangling.unique {behind others : List Token} (h : FirstDangling ts before dot behind)
    (k : FirstDangling ts left u others) : before = left ∧ dot = u ∧ behind = others := by
  have hlength : before.length = left.length :=
    Nat.le_antisymm (h.first _ _ _ k.toDangling) (k.first _ _ _ h.toDangling)
  obtain ⟨hbefore, hrest⟩ := List.append_inj (h.parts.symm.trans k.parts) hlength
  exact ⟨hbefore, List.cons_eq_cons.1 hrest⟩

/-! ### Every stream has a description -/

theorem LongestRun.ended (h : LongestRun before run rest) : Ended run rest :=
  fun right hright hrun => (h.longest [] right List.nil_suffix hright hrun).2

def Apart (before ts : List Token) : Prop :=
  ∀ left right, left <:+ before → right <+: ts → NameRun (left ++ right) → left = [] ∨ right = []

theorem Apart.start (ts : List Token) : Apart [] ts :=
  fun _ _ hleft _ _ => .inl (List.suffix_nil.1 hleft)

/-- What comes next goes over to the tokens before if no run reaches out of it. -/
theorem Apart.step (h : Apart before (run ++ ts))
    (hinner : ∀ left right, left <:+ run → left ≠ [] → right <+: ts → NameRun (left ++ right) →
      right = []) : Apart (before ++ run) ts := by
  intro left right hleft hright hlong
  by_cases hne : left = []
  · exact .inl hne
  rcases List.suffix_or_suffix_of_suffix hleft (List.suffix_append before run) with
    hinside | ⟨outer, rfl⟩
  · exact .inr (hinner left right hinside hne hright hlong)
  · obtain ⟨front, hfront⟩ := hleft
    have houter : outer <:+ before := by
      refine ⟨front, (List.append_left_inj run).1 ?_⟩
      rw [List.append_assoc, hfront]
    rw [List.append_assoc] at hlong
    rcases h outer (run ++ right) houter ((List.prefix_append_right_inj run).2 hright) hlong with
      rfl | hnone
    · exact .inr (hinner run right List.suffix_rfl hne hright hlong)
    · exact .inr (List.append_eq_nil_iff.1 hnone).2

theorem Apart.behind_run (h : Apart before (run ++ ts)) (hrun : NameRun run)
    (hended : Ended run ts) : Apart (before ++ run) ts := by
  refine h.step fun left right hleft hne hright hlong => ?_
  obtain ⟨front, rfl⟩ := hleft
  refine hended right hright ?_
  rw [List.append_assoc]
  exact hrun.overlap hlong hne

theorem Apart.behind_other (h : Apart before (t :: ts)) (ht : t.kind ≠ .identifier) :
    Apart (before ++ [t]) ts := by
  refine Apart.step h fun left right hleft hne hright hlong => ?_
  rcases List.suffix_cons_iff.1 hleft with rfl | hleft
  · exact absurd hlong.first ht
  · exact absurd (List.suffix_nil.1 hleft) hne

/-- A token that begins no run of several names is in none. -/
theorem Apart.not_inRun (h : Apart before (t :: ts))
    (hbegins : ∀ right, right <+: ts → NameRun (t :: right) → right = []) :
    ¬InRun before t ts := by
  rintro ⟨left, right, hleft, hright, hrun, hne⟩
  have houter : t :: right <+: t :: ts := (List.prefix_cons_inj t).2 hright
  rcases h left (t :: right) hleft houter hrun with rfl | hnone
  · exact absurd (hbegins right hright hrun) (hne.resolve_left (· rfl))
  · exact List.cons_ne_nil t right hnone

theorem Apart.condensed_run (h : Apart before (run ++ ts)) (hrun : NameRun run)
    (hended : Ended run ts) (hus : Condensed (before ++ run) ts us) :
    ∃ vs, Condensed before (run ++ ts) vs := by
  by_cases hseveral : 1 < run.length
  · obtain ⟨c, hc, -⟩ := fuse_run hrun
    refine ⟨c.token :: us, .fuse ⟨hrun, hseveral, ?_⟩ hc hus⟩
    intro left right hleft hright hlong
    rcases h left (run ++ right) hleft ((List.prefix_append_right_inj run).2 hright) hlong with
      rfl | hnone
    · exact ⟨rfl, hended right hright hlong⟩
    · exact absurd (List.append_eq_nil_iff.1 hnone).1 hrun.ne_nil
  · obtain ⟨t, rfl⟩ := hrun.eq_single hseveral
    refine ⟨t :: us, .keep ?_ (h.not_inRun hended) hus⟩
    intro hlayout
    obtain ⟨i, hi⟩ := kind_eq_identifier.1 hrun.first
    exact Lexeme.noConfusion (hi.symm.trans hlayout.newline)

theorem Apart.condensed_other (h : Apart before (t :: ts)) (ht : t.kind ≠ .identifier)
    (hus : Condensed (before ++ [t]) ts us) : ∃ vs, Condensed before (t :: ts) vs := by
  by_cases hlayout : IsLayout before t
  · exact ⟨us, .drop hlayout hus⟩
  · refine ⟨t :: us, .keep hlayout (h.not_inRun fun right _ hrun => ?_) hus⟩
    exact absurd hrun.first ht

/-- By induction on the length of the stream: a run of names is passed in one step. -/
theorem exists_condensed (h : Apart before ts) : ∃ us, Condensed before ts us := by
  induction hlength : ts.length using Nat.strong_induction_on generalizing before ts with
  | _ n ih =>
    subst hlength
    rcases ts with - | ⟨t, ts⟩
    · exact ⟨[], .nil⟩
    by_cases hname : t.kind = .identifier
    · obtain ⟨run, rest, hparts, hrun, hended⟩ := exists_run hname ts
      rw [hparts] at h ih ⊢
      have hlt : rest.length < (run ++ rest).length := by
        have hpos := List.length_pos_of_ne_nil hrun.ne_nil
        rw [List.length_append]
        omega
      obtain ⟨us, hus⟩ := ih _ hlt (h.behind_run hrun hended) rfl
      exact h.condensed_run hrun hended hus
    · obtain ⟨us, hus⟩ := ih _ (Nat.lt_succ_self _) (h.behind_other hname) rfl
      exact h.condensed_other hname hus

/-! ### The outcome -/

inductive Outcome (tokens us : List Token) : Except ParseError (List Token) → Prop where
  | fused : (∀ before dot behind, ¬Dangling tokens before dot behind) → Outcome tokens us (.ok us)
  | refused {before behind : List Token} {dot : Token} : FirstDangling tokens before dot behind →
      Outcome tokens us (.error (segmentError dot behind.head?))

theorem Dangling.append (h : Dangling ts before dot rest) (front : List Token) :
    Dangling (front ++ ts) (front ++ before) dot rest := by
  obtain ⟨s, hs, hname⟩ := h.name
  constructor
  · rw [h.parts, List.append_assoc]
  · exact ⟨s, List.mem_getLast?_append_of_mem_getLast? hs, hname⟩
  · exact h.symbol
  · exact h.ended

/-- Behind a token that is no name the dots that dangle are those of the rest. -/
theorem Dangling.behind_other (h : Dangling (t :: ts) before dot rest)
    (ht : t.kind ≠ .identifier) : ∃ b, before = [t] ++ b ∧ Dangling ts b dot rest := by
  obtain ⟨s, hs, hname⟩ := h.name
  rcases before with - | ⟨t', before⟩
  · cases hs
  obtain ⟨rfl, hrest⟩ := List.cons_eq_cons.1 h.parts
  rcases before with - | ⟨r, before⟩
  · cases hs
    exact absurd hname ht
  · exact ⟨r :: before, rfl, hrest, ⟨s, hs, hname⟩, h.symbol, h.ended⟩

/-- Behind a run the dots that dangle are the one that follows it and those of the rest. -/
theorem Dangling.behind_run (h : Dangling (run ++ ts) before dot rest) (hrun : NameRun run) :
    ts = dot :: rest ∨ ∃ b, before = run ++ b ∧ Dangling ts b dot rest := by
  obtain ⟨s, hs, hname⟩ := h.name
  rcases List.append_eq_append_iff.1 h.parts with ⟨b, rfl, hrest⟩ | ⟨c, rfl, hrest⟩
  · rcases b with - | ⟨r, b⟩
    · exact .inl hrest
    · right
      refine ⟨r :: b, rfl, hrest, ⟨s, ?_, hname⟩, h.symbol, h.ended⟩
      rwa [List.getLast?_append_cons] at hs
  · rcases c with - | ⟨d, c⟩
    · exact .inl hrest.symm
    · obtain ⟨rfl, rfl⟩ := List.cons_eq_cons.1 hrest
      obtain ⟨u, hu, hnext⟩ := hrun.behind_dot h.symbol
      exact absurd hnext (h.ended u (by simp [List.head?_append, Option.mem_def.1 hu]))

/-- An outcome for the rest is one for the whole stream if no dot dangles in front of the rest. -/
theorem Outcome.behind {result : Except ParseError (List Token)} (h : Outcome ts us result)
    (front : List Token)
    (hbehind : ∀ {b d r}, Dangling (front ++ ts) b d r → ∃ c, b = front ++ c ∧ Dangling ts c d r)
    (f : List Token → List Token) : Outcome (front ++ ts) (f us) (f <$> result) := by
  cases h with
  | fused hnone =>
    refine .fused fun b d r hdangling => ?_
    obtain ⟨c, -, hdangling⟩ := hbehind hdangling
    exact hnone c d r hdangling
  | refused hfirst =>
    refine .refused ⟨hfirst.append front, fun b d r hother => ?_⟩
    obtain ⟨c, rfl, hinner⟩ := hbehind hother
    simpa using hfirst.first c d r hinner

section Outcome

variable {result : Except ParseError (List Token)} {e : ParseError}

theorem Outcome.fails_iff (h : Outcome ts us result) :
    (∃ e, result = .error e) ↔ ∃ before dot behind, Dangling ts before dot behind := by
  cases h with
  | fused hnone =>
    constructor
    · rintro ⟨e, he⟩
      cases he
    · rintro ⟨before, dot, behind, hdangling⟩
      exact absurd hdangling (hnone before dot behind)
  | refused hfirst => exact ⟨fun _ => ⟨_, _, _, hfirst.toDangling⟩, fun _ => ⟨_, rfl⟩⟩

theorem Outcome.eq_error_iff (h : Outcome ts us result) :
    result = .error e ↔ ∃ before dot behind,
      FirstDangling ts before dot behind ∧ SegmentMissing dot behind.head? e := by
  cases h with
  | fused hnone =>
    constructor
    · intro he
      cases he
    · rintro ⟨before, dot, behind, hfirst, -⟩
      exact absurd hfirst.toDangling (hnone before dot behind)
  | refused hfirst =>
    constructor
    · intro he
      cases he
      exact ⟨_, _, _, hfirst, segmentError_missing _ _⟩
    · rintro ⟨before, dot, behind, hother, hmissing⟩
      obtain ⟨-, rfl, rfl⟩ := hfirst.unique hother
      rw [hmissing.unique (segmentError_missing _ _)]

theorem Outcome.eq_ok_iff {vs : List Token} (h : Outcome ts us result) :
    result = .ok vs ↔ (¬∃ before dot behind, Dangling ts before dot behind) ∧ us = vs := by
  cases h with
  | fused hnone => simpa using fun _ => hnone
  | refused hfirst =>
    constructor
    · intro hok
      cases hok
    · rintro ⟨hnone, -⟩
      exact absurd ⟨_, _, _, hfirst.toDangling⟩ hnone

end Outcome

/-! ### The two passes along a description -/

def absorbs (before : List Token) : Bool := before.getLast?.any Token.absorbsNewline

theorem isLayout_iff : IsLayout before t ↔ t.lexeme = .newline ∧ absorbs before = true := by
  have habsorbs (s : Token) : s.absorbsNewline = true ↔ s.lexeme ∈ [.newline, .symbol .lparen,
      .symbol .lbrace, .symbol .lbracket, .symbol .comma] := by
    rw [Token.absorbsNewline]
    split
    · simp_all
    · rename_i b hb
      cases b <;> simp [hb, Symbol.absorbsNewline]
    · simp_all
  have hiff : absorbs before = true ↔ ∃ s ∈ before.getLast?, s.lexeme ∈ [.newline,
      .symbol .lparen, .symbol .lbrace, .symbol .lbracket, .symbol .comma] := by
    simp [absorbs, Option.any_eq_true, habsorbs]
  exact ⟨fun h => ⟨h.newline, hiff.2 h.behind⟩, fun h => ⟨h.1, hiff.1 h.2⟩⟩

theorem absorbs_append (before : List Token) (t : Token) :
    absorbs (before ++ [t]) = t.absorbsNewline := by
  simp [absorbs]

theorem absorbs_run (hrun : NameRun run) (before : List Token) :
    absorbs (before ++ run) = false := by
  obtain ⟨t, ht, hname⟩ := hrun.last
  obtain ⟨i, hi⟩ := kind_eq_identifier.1 hname
  rw [absorbs, List.mem_getLast?_append_of_mem_getLast? ht]
  exact Token.not_absorbsNewline_of_name hi

theorem elide_drop (h : IsLayout before t) :
    elide (absorbs before) (t :: ts) = elide (absorbs (before ++ [t])) ts := by
  obtain ⟨hnew, habsorbs⟩ := isLayout_iff.1 h
  have hnext : t.absorbsNewline = true := by simp [Token.absorbsNewline, hnew]
  rw [absorbs_append, habsorbs, hnext, elide_cons_newline hnew]

theorem elide_keep (h : ¬IsLayout before t) :
    elide (absorbs before) (t :: ts) = t :: elide (absorbs (before ++ [t])) ts := by
  rw [isLayout_iff, ← Token.isNewline_iff, ← Bool.and_eq_true] at h
  rw [absorbs_append, elide, if_neg h]

/-- A run becomes one name; if a dot follows it the dot dangles. -/
theorem outcome_run (hrun : NameRun run) (hended : Ended run ts) (hu : Fusion run u)
    (h : Outcome ts us (fuse .nothing (elide false ts))) :
    Outcome (run ++ ts) (u :: us) (fuse .nothing (run ++ elide false ts)) := by
  obtain ⟨c, hc, hfuse⟩ := fuse_run hrun
  rw [hfuse, ← hc.unique hu]
  by_cases hdot : ∃ dot rest, ts = dot :: rest ∧ dot.lexeme = .symbol .dot
  · obtain ⟨dot, rest, rfl, hdot⟩ := hdot
    have hapart : ∀ t ∈ rest.head?, t.kind ≠ .identifier := by
      intro t ht hname
      obtain ⟨others, rfl⟩ := List.head?_eq_some_iff.1 ht
      have hnone := hended [dot, t] ⟨others, rfl⟩ (hrun.longer hdot hname)
      exact List.cons_ne_nil _ _ hnone
    have herror : fuse (.name c) (elide false (dot :: rest)) =
        .error (segmentError dot rest.head?) := by
      rw [elide_cons false (by simp [hdot]), not_absorbsNewline_of_dot hdot, ← head_elide rest]
      simp only [fuse, hdot]
      exact fuse_dotted_apart c dot (head_elide rest ▸ hapart)
    have hdangling : Dangling (run ++ dot :: rest) run dot rest := ⟨rfl, hrun.last, hdot, hapart⟩
    rw [herror]
    -- a dot that dangles later stands behind the run and this dot
    refine .refused ⟨hdangling, fun b d r hother => ?_⟩
    rcases hother.behind_run hrun with hfirst | ⟨c, rfl, -⟩
    · have hlength := congrArg List.length hother.parts
      simp [hfirst] at hlength
      omega
    · simp
  · have hapart : ∀ t ∈ (elide false ts).head?, t.lexeme ≠ .symbol .dot := by
      rw [head_elide]
      intro t ht hsymbol
      obtain ⟨rest, rfl⟩ := List.head?_eq_some_iff.1 ht
      exact hdot ⟨t, rest, rfl, hsymbol⟩
    rw [fuse_name_apart c hapart]
    refine h.behind run (fun hother => ?_) (c.token :: ·)
    rcases hother.behind_run hrun with hfirst | hbehind
    · exact absurd ⟨_, _, hfirst, hother.symbol⟩ hdot
    · exact hbehind

/-- By induction on the description. -/
theorem outcome_of_condensed (h : Condensed before ts us) (hbare : ∀ t ∈ ts, t.Bare) :
    Outcome ts us (fuse .nothing (elide (absorbs before) ts)) := by
  induction h with
  | nil =>
    refine .fused fun b d r hdangling => ?_
    exact List.append_ne_nil_of_right_ne_nil _ (List.cons_ne_nil _ _) hdangling.parts.symm
  | @drop before ts us t hlayout _ ih =>
    have hname : t.kind ≠ .identifier := by
      rw [Token.kind, hlayout.newline]
      exact Kind.noConfusion
    rw [elide_drop hlayout]
    have h := ih fun t ht => hbare t (List.mem_cons_of_mem _ ht)
    rw [← id_map (fuse _ _)]
    exact h.behind [t] (·.behind_other hname) id
  | @fuse before run ts us u hlongest hu _ ih =>
    have h := ih fun t ht => hbare t (List.mem_append_right run ht)
    rw [absorbs_run hlongest.names] at h
    rw [elide_run hlongest.names]
    exact outcome_run hlongest.names hlongest.ended hu h
  | @keep before ts us t hlayout halone _ ih =>
    have h := ih fun t ht => hbare t (List.mem_cons_of_mem _ ht)
    rw [elide_keep hlayout]
    by_cases hname : t.kind = .identifier
    · have hrun : NameRun [t] := .name hname
      have hended : Ended [t] ts := by
        intro right hright hlong
        by_contra hne
        exact halone ⟨[], right, List.nil_suffix, hright, hlong, .inr hne⟩
      rw [absorbs_run hrun] at h ⊢
      exact outcome_run hrun hended (.single hname (hbare t List.mem_cons_self)) h
    · have hother : ∀ i, t.lexeme ≠ .identifier i := fun i hi =>
        hname (kind_eq_identifier.2 ⟨i, hi⟩)
      rw [fuse_cons_other hother]
      exact h.behind [t] (·.behind_other hname) (t :: ·)

/-- The normal form is what the description of the stream says if no dot dangles, and else the first
dot that dangles is reported. -/
theorem normalise_condenses (tokens : List Token) (hbare : ∀ t ∈ tokens, t.Bare) :
    ((∃ e, normalise tokens = .error e) ↔
      ∃ before dot behind, Dangling tokens before dot behind) ∧
    (∀ e, normalise tokens = .error e ↔ ∃ before dot behind,
      FirstDangling tokens before dot behind ∧ SegmentMissing dot behind.head? e) ∧
    ∀ normal, normalise tokens = .ok normal ↔
      (¬∃ before dot behind, Dangling tokens before dot behind) ∧ Condensed [] tokens normal := by
  obtain ⟨us, hus⟩ := exists_condensed (Apart.start tokens)
  have houtcome {vs : List Token} (h : Condensed [] tokens vs) :
      Outcome tokens vs (normalise tokens) := outcome_of_condensed h hbare
  refine ⟨(houtcome hus).fails_iff, fun e => (houtcome hus).eq_error_iff, fun normal => ?_⟩
  constructor
  · intro hok
    obtain ⟨hnone, rfl⟩ := (houtcome hus).eq_ok_iff.1 hok
    exact ⟨hnone, hus⟩
  · rintro ⟨hnone, hnormal⟩
    exact (houtcome hnormal).eq_ok_iff.2 ⟨hnone, rfl⟩

theorem normalise_condenses_dotted :
    (∀ t ∈ [Token.plain (.symbol .comma) none, .plain .newline none,
        .plain (.identifier (.simple "a")) (some ⟨"f", 2, 1, 2, 1⟩), .plain (.symbol .dot) none,
        .plain (.identifier (.simple "b")) (some ⟨"f", 2, 3, 2, 3⟩), .plain .newline none],
      t.Bare) ∧
    Condensed [] [.plain (.symbol .comma) none, .plain .newline none,
        .plain (.identifier (.simple "a")) (some ⟨"f", 2, 1, 2, 1⟩), .plain (.symbol .dot) none,
        .plain (.identifier (.simple "b")) (some ⟨"f", 2, 3, 2, 3⟩), .plain .newline none]
      [.plain (.symbol .comma) none,
        .plain (.identifier ⟨"a", ["b"]⟩) (some ⟨"f", 2, 1, 2, 3⟩), .plain .newline none] := by
  have hbare : ∀ t ∈ [Token.plain (.symbol .comma) none, .plain .newline none,
      .plain (.identifier (.simple "a")) (some ⟨"f", 2, 1, 2, 1⟩), .plain (.symbol .dot) none,
      .plain (.identifier (.simple "b")) (some ⟨"f", 2, 3, 2, 3⟩), .plain .newline none],
      t.Bare := by
    simp [Token.Bare, Token.plain, Lexeme.fixedText?]
  obtain ⟨-, -, hok⟩ := normalise_condenses _ hbare
  exact ⟨hbare, ((hok _).1 rfl).2⟩

end Pasture.Normal
