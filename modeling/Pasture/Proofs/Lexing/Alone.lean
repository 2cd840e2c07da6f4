import Mathlib.Data.List.TakeWhile
import Pasture.Lexing.Lex

/-! # Lexemes by themselves

A lexeme hardly depends on what follows it. Its text is read as the same lexeme in front of a gap, in
front of any text that goes on with the same character, and alone.
-/
namespace Pasture.Lexing

/-- Layout, a comment or a continued line may start with the character. No lexeme goes on with it. -/
def startsGap (c : Char) : Bool := isSpace c || isBreak c || c = '#' || c = '/' || c = '\\'

theorem startsGap_iff {c : Char} :
    startsGap c ↔
      c = ' ' ∨ c = '\t' ∨ c = '\n' ∨ c = '\r' ∨ c = '#' ∨ c = '/' ∨ c = '\\' := by
  simp [startsGap, isSpace, isBreak, or_assoc]

def Replaces (other rest : List Char) : Prop := ∀ c ∈ other.head?, c ∈ rest.head? ∨ startsGap c

namespace Replaces

variable {other rest ds cs : List Char}

theorem nil (rest : List Char) : Replaces [] rest := nofun

theorem refl (rest : List Char) : Replaces rest rest := fun _ hc => .inl hc

theorem of_gap {c : Char} (hc : startsGap c) (other rest : List Char) :
    Replaces (c :: other) rest := by
  rintro d ⟨⟩
  exact .inr hc

/-- What is so of the character behind a lexeme, and of those that start a gap, is so of the other
text. -/
theorem forall_head {P : Char → Prop} (h : Replaces other rest) (hrest : ∀ c ∈ rest.head?, P c)
    (hgap : P ' ' ∧ P '\t' ∧ P '\n' ∧ P '\r' ∧ P '#' ∧ P '/' ∧ P '\\') :
    ∀ c ∈ other.head?, P c := by
  intro c hc
  rcases h c hc with hsame | hstarts
  · exact hrest c hsame
  · obtain ⟨hspace, htab, hfeed, hreturn, hhash, hslash, hback⟩ := hgap
    rcases startsGap_iff.1 hstarts with rfl | rfl | rfl | rfl | rfl | rfl | rfl <;> assumption

theorem append (h : Replaces other rest) (hcs : ds ++ rest = cs) : Replaces (ds ++ other) cs := by
  subst hcs
  cases ds with
  | nil => exact h
  | cons d ds => exact fun c hc => .inl hc

end Replaces

/-- A character that starts no escape, whether or not anything follows. -/
theorem ne_backslash {c : Char} {cs : List Char} (hlast : c = '\\' → cs = [] → False)
    (hpair : ∀ mark ds, c = '\\' → cs = mark :: ds → False) : c ≠ '\\' := by
  intro hc
  cases cs with
  | nil => exact hlast hc rfl
  | cons mark ds => exact hpair mark ds hc rfl

namespace Item

theorem run_close {close : Char} (hclose : close ≠ '\\') (cs : List Char) :
    run close (close :: cs) = ([], close :: cs) := by
  unfold run
  split <;> simp_all

theorem run_plain {close c : Char} (hc : c ≠ '\\') (hclose : c ≠ close) (cs : List Char) :
    run close (c :: cs) = (.plain c :: (run close cs).1, (run close cs).2) := by
  rw [run.eq_def]
  split <;> simp_all

theorem run_stops (close : Char) (cs : List Char) :
    ∀ c ∈ (run close cs).2.head?, c = close ∨ c = '\\' := by
  fun_induction run close cs <;> simp_all

theorem run_stays {close : Char} (hclose : close ≠ '\\') (cs other : List Char) :
    run close ((run close cs).1.flatMap text ++ close :: other) =
      ((run close cs).1, close :: other) := by
  fun_induction run close cs with
  | case1 | case2 | case4 | case5 => exact run_close hclose other
  | case3 mark cs value h items rest hrun ih =>
    simp only [hrun] at ih
    simp [text, run, h, ih]
  | case6 c cs hlast hpair hc items rest hrun ih =>
    simp only [hrun] at ih
    simp [text, run_plain (ne_backslash hlast hpair) hc, ih]

end Item

namespace Numeral

variable {cs rest other : List Char} {n m : Numeral}

theorem mem_takeWhile_run {cs : List Char} : ∀ c ∈ cs.takeWhile isRunChar, isRunChar c :=
  List.all_eq_true.1 List.all_takeWhile

/-- A run ends where the text goes on with anything else. -/
theorem run_append {run more : List Char} (hrun : ∀ c ∈ run, isRunChar c)
    (hmore : ∀ c ∈ more.head?, isRunChar c = false) :
    (run ++ more).takeWhile isRunChar = run ∧ (run ++ more).dropWhile isRunChar = more := by
  rw [List.takeWhile_append_of_pos hrun, List.dropWhile_append_of_pos hrun]
  cases more with
  | nil => simp
  | cons c more => simp [hmore c rfl]

theorem replaces_run (h : Replaces other (cs.dropWhile isRunChar)) :
    ∀ c ∈ other.head?, isRunChar c = false := by
  refine h.forall_head (P := fun c => isRunChar c = false) ?_ (by decide)
  intro c hc
  have hnot := List.head?_dropWhile_not isRunChar cs
  rw [Option.mem_def.1 hc] at hnot
  exact hnot

theorem signAt_run {run : List Char} (h : ∀ c ∈ run, isRunChar c) (hne : run ≠ [])
    (other : List Char) : signAt (run ++ other) = (none, run ++ other) := by
  obtain ⟨c, run, rfl⟩ := List.exists_cons_of_ne_nil hne
  have hc := h c List.mem_cons_self
  unfold signAt
  split
  · rename_i hsign
    cases hsign
    exact absurd hc (by decide)
  · rename_i hsign
    cases hsign
    exact absurd hc (by decide)
  · rfl

theorem signAt_stays {run : List Char} (h : ∀ c ∈ run, isRunChar c) (hne : run ≠ [])
    (cs other : List Char) :
    signAt ((signAt cs).1.toList ++ (run ++ other)) = ((signAt cs).1, run ++ other) := by
  rw [signAt.eq_def cs]
  split
  · rfl
  · rfl
  · exact signAt_run h hne other

theorem withExponent_none (hrest : ∀ c ∈ rest.head?, c ≠ 'e' ∧ c ≠ 'E') :
    withExponent n rest = .ok (n, rest) := by
  cases rest with
  | nil => rfl
  | cons c rest =>
    obtain ⟨hlower, hupper⟩ := hrest c rfl
    simp [withExponent, hlower, hupper]

/-- The exponent, and what may stand behind it, go on as the text did. -/
theorem withExponent_replaces (hn : n.exponent = none) (h : withExponent n cs = .ok (m, rest))
    (hother : Replaces other rest) :
    Replaces ((m.exponent.map Exponent.text).getD [] ++ other) cs := by
  cases cs with
  | nil =>
    cases h
    rw [hn]
    exact hother
  | cons c cs =>
    simp only [withExponent] at h
    split at h
    · split at h
      · cases h
        exact fun d hd => .inl hd
      · cases h
    · cases h
      rw [hn]
      exact hother

theorem withExponent_stays (hn : n.exponent = none) (h : withExponent n cs = .ok (m, rest))
    (hother : Replaces other rest) :
    withExponent n ((m.exponent.map Exponent.text).getD [] ++ other) = .ok (m, other) := by
  cases cs with
  | nil =>
    cases h
    rw [hn]
    exact withExponent_none (hother.forall_head (by simp) (by decide))
  | cons c cs =>
    simp only [withExponent] at h
    split at h
    · rename_i hc
      split at h
      · rename_i hdigit
        cases h
        have hrun := @mem_takeWhile_run (signAt cs).2
        have hne : (signAt cs).2.takeWhile isRunChar ≠ [] := by
          intro hnil
          simp [hnil] at hdigit
        have hsign := signAt_stays hrun hne cs other
        obtain ⟨htake, hdrop⟩ := run_append hrun (replaces_run hother)
        simp only [Option.map_some, Option.getD_some, Exponent.text, List.cons_append,
          List.append_assoc, withExponent, hsign, hc, if_true, htake, hdigit, hdrop]
      · cases h
    · rename_i hc
      cases h
      rw [hn]
      refine withExponent_none (hother.forall_head ?_ (by decide))
      rintro d ⟨⟩
      exact not_or.1 hc

theorem read_stays (h : read cs = .ok (n, rest)) (hother : Replaces other rest) :
    read (n.text ++ other) = .ok (n, other) := by
  have hwhole := @mem_takeWhile_run cs
  unfold read at h
  split at h
  · rename_i after _
    have hfraction := @mem_takeWhile_run after
    split at h
    · cases h
    · rename_i hpoint
      obtain ⟨hw, hf⟩ := withExponent_keeps h
      have hmore := withExponent_replaces rfl h hother
      have hstays := withExponent_stays rfl h hother
      generalize hexponent : (n.exponent.map Exponent.text).getD [] ++ other = more at hmore hstays
      have hends : ∀ c ∈ ('.' :: (after.takeWhile isRunChar ++ more)).head?, isRunChar c = false := by
        rintro c ⟨⟩
        decide
      obtain ⟨htake, hdrop⟩ := run_append hwhole hends
      obtain ⟨htake', hdrop'⟩ := run_append hfraction (replaces_run hmore)
      simp only [text, hw, hf, Option.map_some, Option.getD_some, List.append_assoc,
        List.cons_append, hexponent, read, htake, hdrop, htake', hdrop']
      split
      · rename_i tail
        have hnone : ∀ c ∈ ('.' :: tail).head?, c ≠ '.' := by
          refine hmore.forall_head ?_ (by decide)
          rintro c hc rfl
          obtain ⟨ds, hds⟩ := List.head?_eq_some_iff.1 hc
          exact hpoint ds hds
        exact absurd rfl (hnone '.' rfl)
      · exact hstays
  · rename_i hpoint
    obtain ⟨hw, hf⟩ := withExponent_keeps h
    have hmore := withExponent_replaces rfl h hother
    have hstays := withExponent_stays rfl h hother
    generalize hexponent : (n.exponent.map Exponent.text).getD [] ++ other = more at hmore hstays
    obtain ⟨htake, hdrop⟩ := run_append hwhole (replaces_run hmore)
    simp only [text, hw, hf, Option.map_none, Option.getD_none, List.append_nil,
      List.append_assoc, hexponent, read, htake, hdrop]
    split
    · rename_i tail
      have hnone : ∀ c ∈ ('.' :: tail).head?, c ≠ '.' := by
        refine hmore.forall_head ?_ (by decide)
        rintro c hc rfl
        obtain ⟨ds, hds⟩ := List.head?_eq_some_iff.1 hc
        exact hpoint ds hds
      exact absurd rfl (hnone '.' rfl)
    · exact hstays

end Numeral

namespace Piece

variable {c : Char} {cs ds rest other : List Char} {p : Piece}

theorem number_eq_ok :
    number cs = .ok (p, rest) ↔
      ∃ n l, Numeral.read cs = .ok (n, rest) ∧ n.literal = .ok l ∧
        p = ⟨.lexeme (.literal l), n.text⟩ := by
  unfold number
  constructor
  · intro h
    cases hr : Numeral.read cs with
    | error e => simp [hr, bind, Except.bind] at h
    | ok r =>
      cases hl : r.1.literal with
      | error e => simp [hr, hl, bind, Except.bind] at h
      | ok l =>
        simp only [hr, hl, bind, Except.bind, pure, Except.pure] at h
        cases h
        exact ⟨r.1, l, rfl, hl, rfl⟩
  · rintro ⟨n, l, hr, hl, rfl⟩
    simp [hr, hl, bind, Except.bind, pure, Except.pure]

theorem number_stays (h : number cs = .ok (p, rest)) (hother : Replaces other rest) :
    number (p.text ++ other) = .ok (p, other) := by
  obtain ⟨n, l, hr, hl, rfl⟩ := number_eq_ok.1 h
  exact number_eq_ok.2 ⟨n, l, Numeral.read_stays hr hother, hl, rfl⟩

/-- A number that starts with a point keeps the digit behind it. -/
theorem number_point {d : Char} (hd : d.isDigit) (h : number ('.' :: d :: cs) = .ok (p, rest)) :
    ∃ ds, p.text = '.' :: d :: ds := by
  obtain ⟨n, l, hr, -, rfl⟩ := number_eq_ok.1 h
  have hpoint : isRunChar '.' = false := by decide
  have hrun : isRunChar d = true := by simp [isRunChar, hd]
  simp only [Numeral.read, List.dropWhile_cons, List.takeWhile_cons, hpoint, hrun,
    Bool.false_eq_true, if_false, if_true] at hr
  split at hr
  · cases hr
  · obtain ⟨hwhole, hfraction⟩ := Numeral.withExponent_keeps hr
    simp [Numeral.text, hwhole, hfraction]

theorem string_eq_ok (h : string cs = .ok (p, rest)) :
    ∃ items, Item.run '"' cs = (items, '"' :: rest) ∧
      p = ⟨.lexeme (.literal (.string (some (String.ofList (items.map Item.value))))),
        '"' :: items.flatMap Item.text ++ ['"']⟩ := by
  simp only [string] at h
  split at h
  · cases h
  · cases h
  · cases h
  · rename_i quote more hlast hpair hrest
    have hquote : quote = '"' := by
      rcases Item.run_stops '"' cs quote (by rw [hrest]; rfl) with hq | hq
      · exact hq
      · exact absurd hq (ne_backslash hlast hpair)
    subst hquote
    cases h
    exact ⟨(Item.run '"' cs).1, Prod.ext rfl hrest, rfl⟩

theorem string_stays (h : string cs = .ok (p, rest)) (other : List Char) :
    ∃ ds, p.text = '"' :: ds ∧ string (ds ++ other) = .ok (p, other) := by
  obtain ⟨items, hitems, rfl⟩ := string_eq_ok h
  have hrun := Item.run_stays (show '"' ≠ '\\' by decide) cs other
  rw [hitems] at hrun
  refine ⟨items.flatMap Item.text ++ ['"'], rfl, ?_⟩
  rw [List.append_assoc, List.singleton_append]
  simp only [string, hrun]
  rfl

theorem closeCharacter_eq_ok {item : Item} (h : closeCharacter item cs = .ok (p, rest)) :
    p = ⟨.lexeme (.literal (.char (some item.value.toString))), '\'' :: item.text ++ ['\'']⟩ := by
  unfold closeCharacter at h
  split at h
  · cases h
  · cases h
    rfl
  · cases h

theorem character_plain (hquote : c ≠ '\'') (hback : c ≠ '\\') (cs : List Char) :
    character (c :: cs) = closeCharacter (.plain c) cs := by
  unfold character
  split <;> simp_all

theorem character_stays (h : character cs = .ok (p, rest)) (other : List Char) :
    ∃ item : Item, p = ⟨.lexeme (.literal (.char (some item.value.toString))),
      '\'' :: item.text ++ ['\'']⟩ ∧ character (item.text ++ '\'' :: other) = .ok (p, other) := by
  unfold character at h
  split at h
  · cases h
  · cases h
  · cases h
  · rename_i mark cs
    split at h
    · rename_i value hvalue
      obtain rfl := closeCharacter_eq_ok h
      exact ⟨.escaped mark value, rfl, by simp [Item.text, character, hvalue, closeCharacter]⟩
    · cases h
  · rename_i c cs hquote hlast hpair
    obtain rfl := closeCharacter_eq_ok h
    refine ⟨.plain c, rfl, ?_⟩
    rw [Item.text, List.singleton_append, character_plain hquote (ne_backslash hlast hpair)]
    rfl

theorem word_stays (h : word cs = .ok (p, rest)) (hother : Replaces other rest) :
    word (p.text ++ other) = .ok (p, other) := by
  cases h
  have hword : ∀ c ∈ cs.takeWhile isWordChar, isWordChar c := List.all_eq_true.1 List.all_takeWhile
  have hends : ∀ c ∈ other.head?, isWordChar c = false := by
    refine hother.forall_head (P := fun c => isWordChar c = false) ?_ (by decide)
    intro c hc
    have hnot := List.head?_dropWhile_not isWordChar cs
    rw [Option.mem_def.1 hc] at hnot
    exact hnot
  have htake : (cs.takeWhile isWordChar ++ other).takeWhile isWordChar =
      cs.takeWhile isWordChar := by
    rw [List.takeWhile_append_of_pos hword]
    cases other with
    | nil => simp
    | cons d other => simp [hends d rfl]
  have hdrop : (cs.takeWhile isWordChar ++ other).dropWhile isWordChar = other := by
    rw [List.dropWhile_append_of_pos hword]
    cases other with
    | nil => rfl
    | cons d other => simp [hends d rfl]
  simp only [word, htake, hdrop]

/-! An operator has one character or two, and the second of two starts no gap. -/

theorem longest?_pair {op : Operator} (h : op.spelling.length = 2) (other : List Char) :
    Operator.longest? (op.spelling ++ other) = some op := by
  cases op <;> first | rfl | cases h

theorem longest?_spelling (op : Operator) : Operator.longest? op.spelling = some op := by
  cases op <;> decide

theorem spelling_length (op : Operator) : op.spelling.length = 2 ∨ ∃ c, op.spelling = [c] := by
  cases op <;> simp [Operator.spelling]

theorem longest?_fused {op : Operator} (h : op.isAssignable) (other : List Char) :
    Operator.longest? (op.spelling ++ '=' :: other) = some op := by
  cases op <;> first | rfl | cases h

theorem longest?_gap (c : Char) {d : Char} (hd : startsGap d) (other : List Char) :
    Operator.longest? (c :: d :: other) = Operator.longest? [c] := by
  have hpair : Operator.ofSpelling? [c, d] = none := by
    rw [Operator.ofSpelling?, List.find?_eq_none]
    intro op _ hop
    have hspelling : op.spelling = [c, d] := of_decide_eq_true hop
    cases op <;> cases hspelling <;> exact absurd hd (by decide)
  simp [Operator.longest?, hpair]

/-- The character by itself is what counts where the text behind it is another one. -/
theorem longest?_replaces (h : Replaces other rest) (c : Char) :
    Operator.longest? (c :: other) = Operator.longest? (c :: rest) ∨
      Operator.longest? (c :: other) = Operator.longest? [c] := by
  cases other with
  | nil => exact .inr rfl
  | cons d other =>
    rcases h d rfl with hsame | hgap
    · obtain ⟨more, rfl⟩ := List.head?_eq_some_iff.1 hsame
      exact .inl rfl
    · exact .inr (longest?_gap c hgap other)

theorem longest?_stays {op : Operator} (h : Operator.longest? (op.spelling ++ rest) = some op)
    (hother : Replaces other rest) : Operator.longest? (op.spelling ++ other) = some op := by
  rcases spelling_length op with hpair | ⟨c, hc⟩
  · exact longest?_pair hpair other
  · rw [hc] at h ⊢
    rcases longest?_replaces hother c with heq | heq
    · exact heq.trans h
    · exact heq.trans (hc ▸ longest?_spelling op)

theorem longest?_none_stays (h : Operator.longest? (c :: rest) = none)
    (hother : Replaces other rest) : Operator.longest? (c :: other) = none := by
  have hsingle : Operator.longest? [c] = none := by
    have hboth : Operator.ofSpelling? (c :: rest.take 1) = none ∧
        Operator.ofSpelling? [c] = none := by
      simpa [Operator.longest?] using h
    simpa [Operator.longest?] using hboth.2
  rcases longest?_replaces hother c with heq | heq
  · exact heq.trans h
  · exact heq.trans hsingle

theorem punctuation_stays (h : punctuation c cs = .ok (p, rest)) (hother : Replaces other rest) :
    ∃ ds, p.text = c :: ds ∧ punctuation c (ds ++ other) = .ok (p, other) := by
  obtain ⟨hne, htext⟩ := punctuation_tiles c cs p rest h
  obtain ⟨d, ds, hds⟩ := List.exists_cons_of_ne_nil hne
  have hd : d = c := by
    rw [hds] at htext
    exact (List.cons.inj htext).1
  subst hd
  refine ⟨ds, hds, ?_⟩
  unfold punctuation at h ⊢
  rw [← List.cons_append, ← hds]
  split at h
  · rename_i op hop
    simp only at h
    split at h
    · rename_i more hassign _
      cases h
      simp [longest?_fused hassign, hassign]
    · rename_i hfused
      cases h
      rw [← htext] at hop
      have hends : ∀ c ∈ other.head?, op.isAssignable = true → c ≠ '=' := by
        refine hother.forall_head ?_ (by simp)
        rintro c hc hassign rfl
        obtain ⟨more, hmore⟩ := List.head?_eq_some_iff.1 hc
        exact hfused more hassign hmore
      rw [longest?_stays hop hother]
      simp only [List.drop_left]
      split
      · rename_i hassign
        exact absurd rfl (hends '=' rfl hassign)
      · rfl
  · rename_i hnone
    split at h
    · rename_i s hs
      cases h
      obtain rfl : ds = [] := (List.cons.inj hds).2.symm
      simp [longest?_none_stays hnone hother]
    · cases h

/-- The text of a lexeme is that lexeme wherever the text behind it may be. -/
theorem first_stays {l : Lexeme} (h : first c cs = .ok (p, rest)) (hl : p.form = .lexeme l)
    (hother : Replaces other rest) :
    ∃ ds, p.text = c :: ds ∧ first c (ds ++ other) = .ok (p, other) := by
  obtain ⟨hne, htext⟩ := first_tiles c cs p rest h
  obtain ⟨d, ds, hds⟩ := List.exists_cons_of_ne_nil hne
  rw [hds] at htext
  obtain ⟨rfl, hcs⟩ := List.cons.inj htext
  refine ⟨ds, hds, ?_⟩
  have hhead := hother.append hcs
  unfold first at h ⊢
  split at h
  · cases h
    cases hl
  rename_i hlayout
  rw [if_neg hlayout]
  split at h
  · unfold continuation at h
    split at h <;> cases h
    cases hl
  rename_i hback
  rw [if_neg hback]
  split at h
  · unfold comment at h
    split at h <;> cases h
    cases hl
  rename_i hcomment
  have hstar : ¬(d = '/' && (ds ++ other).head? = some '*') = true := by
    simp only [Bool.and_eq_true, decide_eq_true_eq, not_and] at hcomment ⊢
    intro hslash
    have hnot : ∀ e ∈ (ds ++ other).head?, e ≠ '*' := by
      refine hhead.forall_head ?_ (by decide)
      rintro e he rfl
      exact hcomment hslash he
    exact fun hstar => hnot '*' hstar rfl
  rw [if_neg hstar]
  split at h
  · rename_i hnumber
    rw [if_pos ?_, ← List.cons_append, ← hds]
    · exact number_stays h hother
    · by_cases hdigit : d.isDigit
      · simp [hdigit]
      · obtain ⟨rfl, e, hhead, he⟩ : d = '.' ∧ ∃ e, cs.head? = some e ∧ e.isDigit := by
          simpa [hdigit, Option.any_eq_true] using hnumber
        obtain ⟨es, rfl⟩ := List.head?_eq_some_iff.1 hhead
        obtain ⟨fs, hfs⟩ := number_point he h
        rw [hds] at hfs
        cases hfs
        simp [he]
  rename_i hnumber
  have hdigit : ¬(d.isDigit || d = '.' && (ds ++ other).head?.any Char.isDigit) = true := by
    simp only [Bool.or_eq_true, Bool.and_eq_true, decide_eq_true_eq, not_or, not_and] at hnumber ⊢
    refine ⟨hnumber.1, fun hpoint hany => ?_⟩
    have hnot : ∀ e ∈ (ds ++ other).head?, e.isDigit = false := by
      refine hhead.forall_head (P := fun e => e.isDigit = false) ?_ (by decide)
      intro e he
      by_contra hdigit
      exact hnumber.2 hpoint ((Option.any_eq_true _ _).2 ⟨e, he, by simpa using hdigit⟩)
    obtain ⟨e, he, hdigit⟩ := (Option.any_eq_true _ _).1 hany
    rw [hnot e he] at hdigit
    cases hdigit
  rw [if_neg hdigit]
  split at h
  · rename_i hquote
    rw [if_pos hquote]
    obtain ⟨item, rfl, hstays⟩ := character_stays h other
    cases hds
    simpa using hstays
  rename_i hquote
  rw [if_neg hquote]
  split at h
  · rename_i hquote
    rw [if_pos hquote]
    obtain ⟨es, hes, hstays⟩ := string_stays h other
    rw [hds] at hes
    cases hes
    exact hstays
  rename_i hquote
  rw [if_neg hquote]
  split at h
  · rename_i hword
    rw [if_pos hword, ← List.cons_append, ← hds]
    exact word_stays h hother
  rename_i hword
  rw [if_neg hword]
  obtain ⟨es, hes, hstays⟩ := punctuation_stays h hother
  rw [hds] at hes
  cases hes
  exact hstays

/-- The text of a lexeme, read alone, is that lexeme and nothing else. -/
theorem first_alone {l : Lexeme} (h : first c cs = .ok (p, rest)) (hl : p.form = .lexeme l) :
    ∃ ds, p.text = c :: ds ∧ first c ds = .ok (p, []) := by
  obtain ⟨ds, hds, hstays⟩ := first_stays h hl (.nil rest)
  rw [List.append_nil] at hstays
  exact ⟨ds, hds, hstays⟩

end Piece

end Pasture.Lexing
