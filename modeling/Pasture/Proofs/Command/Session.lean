import Pasture.Command.Session
import Pasture.Proofs.Diagnostic.Renderer
import Pasture.Proofs.Failures

/-! # Sessions answer each line by itself

One renderer lives as long as a session, and the lines are all called by one name. Still the answer
to a line is the one that a session over this line alone gives, for the last text handed over is
the one that is shown. It makes no difference whether the input is there from the start or comes in
portions, as from a terminal.
-/
namespace Pasture.Command.Session

variable {r : Renderer} {line name : String} {lines : List (List Char)} {e : ParseError}

/-- The lines of an input in front of the first that ends the session. -/
def answered (input : String) : List (List Char) :=
  (Text.feedLines (Text.unifyBreaks input.toList)).takeWhile (!isExit ·)

def knowing (line : String) : Renderer := Renderer.register { color := true } file line

def alone (line : String) : Output := (answer (knowing line) line).1

/-- The report on a line that is rejected, by a renderer that knows no more than the line, whatever
files there are. -/
def Reports (line : String) (e : ParseError) (text : String) : Prop :=
  ∀ disk : Disk Id, ((knowing line).render disk e.diagnostic).1 = text

/-- What the two channels show in answer to a line: its tokens and its outline, its tokens and a
report, or a report alone. -/
inductive Answers (line : String) : String → String → Prop where
  | parsed {tokens m} : tokenise line file = .ok tokens → parseTokens tokens "repl" = .ok m →
      Answers line
        (" -- Tokens: " ++ Text.Quoted.encodeList (tokens.map Token.describe) ++ "\n" ++
          String.join ((m.outline.lines 0).map (· ++ "\n"))) ""
  | unparsed {tokens e text} : tokenise line file = .ok tokens →
      parseTokens tokens "repl" = .error e → Reports line e text →
      Answers line (" -- Tokens: " ++ Text.Quoted.encodeList (tokens.map Token.describe) ++ "\n")
        (text ++ "\n")
  | unread {e text} : tokenise line file = .error (.rejected e) → Reports line e text →
      Answers line "" (text ++ "\n")

/-- The excerpts of a report on a line come from the line, whatever was handed over before. -/
theorem report_register (hr : r.color = true)
    (h : parseSource line file name = .error (.rejected e)) :
    report (r.register file line) e =
      .complaint (e.diagnostic.render true fun _ => Text.lines line.toList) := by
  have hshown : e.diagnostic.render true (r.register file line).sourceOf =
      e.diagnostic.render true fun _ => Text.lines line.toList :=
    ParseError.render_congr h true (Renderer.sourceOf_register r file line)
  rw [report, ← hshown]
  simp [Renderer.register, hr]

/-- What was handed over before has no part in the answer. -/
theorem answer_register (hr : r.color = true) (line : String) :
    answer (r.register file line) line = answer (knowing line) line := by
  unfold answer knowing
  cases ht : tokenise line file with
  | error failure =>
    cases failure with
    | digitLimit n => rfl
    | rejected e =>
      have h := parseSource_of_tokenise ht "repl"
      simp only [report_register hr h, report_register (r := { color := true }) rfl h]
  | ok tokens =>
    cases hp : parseTokens tokens "repl" with
    | ok m => simp only [hp]
    | error e =>
      have h := parseSource_of_parseTokens ht hp
      simp only [hp, report_register hr h, report_register (r := { color := true }) rfl h]

theorem report_reports (h : parseSource line file name = .error (.rejected e)) :
    ∃ text, report (knowing line) e = .complaint text ∧ Reports line e text := by
  refine ⟨_, rfl, fun disk => ?_⟩
  have hknows : ∀ l ∈ e.diagnostic.labels, (knowing line).Knows l.span.file := by
    intro l hl
    rw [ParseError.label_in_file h l hl]
    exact Renderer.register_knows _ file line
  exact congrArg Prod.fst (Renderer.render_known disk hknows)

/-- Unless a line comes to an overlong integer, it is answered and the session goes on. -/
theorem answer_alone (h : ∀ n, ¬Lexing.MeetsOverlong n line.toList) :
    answer (knowing line) line = (alone line, none) ∧
      Answers line (alone line).out (alone line).err := by
  unfold alone
  cases ht : tokenise line file with
  | error failure =>
    have hparse := parseSource_of_tokenise ht "repl"
    cases failure with
    | digitLimit n => exact absurd (parseSource_digitLimit.1 hparse) (h n)
    | rejected e =>
      obtain ⟨text, hreport, hshown⟩ := report_reports hparse
      have hanswer : answer (knowing line) line = (.complaint text, none) := by
        simp only [answer, ht, hreport]
      rw [hanswer]
      exact ⟨rfl, .unread ht hshown⟩
  | ok tokens =>
    let listing := Output.line (" -- Tokens: " ++ Text.Quoted.encodeList (tokens.map Token.describe))
    cases hp : parseTokens tokens "repl" with
    | ok m =>
      have hanswer : answer (knowing line) line =
          (listing ++ .lines (m.outline.lines 0), none) := by
        simp only [answer, ht, hp, listing]
      rw [hanswer]
      exact ⟨rfl, .parsed ht hp⟩
    | error e =>
      obtain ⟨text, hreport, hshown⟩ := report_reports (parseSource_of_parseTokens ht hp)
      have hanswer : answer (knowing line) line = (listing ++ .complaint text, none) := by
        simp only [answer, ht, hp, hreport, listing]
      rw [hanswer]
      have hanswers := Answers.unparsed ht hp hshown
      refine ⟨rfl, ?_⟩
      simpa [listing, Output.line, Output.complaint] using hanswers

/-- One turn: a line that does not end the session is answered as if it were the only one. -/
theorem turn_alone (hr : r.color = true) {line : List Char} (hline : isExit line = false)
    (h : ∀ n, ¬Lexing.MeetsOverlong n line) :
    turn r line =
      .more (r.register file (String.ofList line)) (alone (String.ofList line)) := by
  have hshort : ∀ n, ¬Lexing.MeetsOverlong n (String.ofList line).toList := by simpa using h
  rw [turn, hline]
  simp only [Bool.false_eq_true, if_false]
  rw [answer_register hr, (answer_alone hshort).1]

theorem turn_exit {line : List Char} (hline : isExit line = true) :
    turn r line = .over (.success (.line "")) := by
  rw [turn, if_pos hline]

section Turns

variable {m : Type → Type} [Monad m] [LawfulMonad m] {emit : Output → m Unit}

theorem turns_append (r : Renderer) (front back : List (List Char)) :
    turns emit r (front ++ back) = (do
      match ← turns emit r front with
      | .ok r => turns emit r back
      | .error ending => return .error ending) := by
  induction front generalizing r with
  | nil => simp [turns]
  | cons line front ih =>
    rw [List.cons_append, turns, turns]
    rcases turn r line with ⟨r, output⟩ | o
    · simp [ih]
    · simp

/-- What is read up to a line feed may be answered before the rest of the input is there. -/
theorem turns_linesOf_append (r : Renderer) (front back : List Char) :
    turns emit r (linesOf (front ++ '\n' :: back)) = (do
      match ← turns emit r (linesOf (front ++ ['\n'])) with
      | .ok r => turns emit r (linesOf back)
      | .error ending => return .error ending) := by
  obtain ⟨text, hbreaks⟩ := Text.unifyBreaks_append front
  have hlines : linesOf (front ++ '\n' :: back) = linesOf (front ++ ['\n']) ++ linesOf back := by
    rw [linesOf, linesOf, linesOf, hbreaks, hbreaks, Text.feedLines_append]
    rfl
  rw [hlines, turns_append]

end Turns

theorem note_run (o before : Output) : (note o).run before = ((), before ++ o) := rfl

theorem run_bind {α β : Type} {x : StateM Output α} {a : α} {before after : Output}
    (h : x.run before = (a, after)) (f : α → StateM Output β) :
    (x >>= f).run before = (f a).run after := by
  rw [StateT.run_bind, h]
  rfl

def written (lines : List (List Char)) : Output where
  out := String.join (lines.map fun line => (alone (String.ofList line)).out ++ ":> ")
  err := String.join (lines.map fun line => (alone (String.ofList line)).err)

theorem written_cons (line : List Char) (lines : List (List Char)) :
    written (line :: lines) = alone (String.ofList line) ++ prompt ++ written lines := by
  change Output.mk _ _ = Output.mk _ _
  simp [written, prompt]

/-- By induction on the lines; of the renderer it matters only that it paints. -/
theorem turns_alone (hr : r.color = true) (hlines : ∀ line ∈ lines, isExit line = false)
    (h : ∀ line ∈ lines, ∀ n, ¬Lexing.MeetsOverlong n line) (o : Output) :
    ∃ r', (turns note r lines).run o = (.ok r', o ++ written lines) := by
  induction lines generalizing r o with
  | nil =>
    have hnothing : written [] = {} := rfl
    rw [hnothing, Output.append_empty]
    exact ⟨r, rfl⟩
  | cons line lines ih =>
    obtain ⟨hfirst, hlater⟩ := List.forall_mem_cons.1 h
    obtain ⟨hgoes, hmore⟩ := List.forall_mem_cons.1 hlines
    obtain ⟨r', hrest⟩ := ih (r := r.register file (String.ofList line)) hr hmore hlater
      (o ++ alone (String.ofList line) ++ prompt)
    refine ⟨r', ?_⟩
    rw [turns, turn_alone hr hgoes hfirst, run_bind (note_run ..), run_bind (note_run ..), hrest,
      written_cons]
    simp only [Output.append_assoc]

/-- With a prompt in front of all, a prompt behind every answer comes to one in front of every answer
and one behind all. -/
theorem join_prompted {α : Type} (out : α → String) (xs : List α) :
    ":> " ++ String.join (xs.map fun x => out x ++ ":> ") =
      String.join (xs.map fun x => ":> " ++ out x) ++ ":> " := by
  induction xs with
  | nil => rfl
  | cons x xs ih => simp [ih, String.append_assoc]

/-- A line that is answered is the only one of a session over it. -/
theorem answered_alone {input : String} {line : List Char} (h : line ∈ answered input) :
    answered (String.ofList line) = [line] := by
  have hmem : line ∈ Text.feedLines (Text.unifyBreaks input.toList) :=
    (List.takeWhile_sublist _).subset h
  have hline : (!isExit line) = true := List.all_eq_true.1 List.all_takeWhile line h
  have hreturn : '\r' ∉ line := by
    intro hc
    have htext := List.mem_flatten.2 ⟨line, hmem, hc⟩
    rw [Text.flatten_feedLines] at htext
    exact Text.not_mem_unifyBreaks _ htext
  rw [answered, String.toList_ofList, Text.unifyBreaks_of_not_mem hreturn,
    Text.feedLines_of_mem hmem]
  simpa using hline

/-- The lines behind those that are answered are none, or the first of them ends the session. -/
theorem turns_ended (r : Renderer) (lines : List (List Char)) (o : Output) :
    (turns note r (lines.dropWhile (!isExit ·))).run o = (.ok r, o) ∨
      (turns note r (lines.dropWhile (!isExit ·))).run o = (.error (.exit 0), o ++ .line "") := by
  cases h : lines.dropWhile (!isExit ·) with
  | nil => exact .inl rfl
  | cons line rest =>
    have hexit : isExit line = true := by
      have hhead := List.head?_dropWhile_not (!isExit ·) lines
      rw [h] at hhead
      simpa using hhead
    refine .inr ?_
    rw [turns, turn_exit hexit]
    rfl

theorem around_ended {talk : Renderer → StateM Output (Except Ending Renderer)} {o : Output}
    (h : (∃ r, (talk { color := true }).run (banner ++ prompt) = (.ok r, o)) ∨
      (talk { color := true }).run (banner ++ prompt) = (.error (.exit 0), o ++ .line "")) :
    (around note talk).run {} = (.exit 0, o ++ .line "") := by
  rcases h with ⟨r, h⟩ | h
  · rw [around, run_bind (note_run ..), Output.empty_append, run_bind (note_run ..), run_bind h]
    rfl
  · rw [around, run_bind (note_run ..), Output.empty_append, run_bind (note_run ..), run_bind h]
    rfl

theorem run_ended {input : String}
    (h : ∀ line ∈ answered input, ∀ n, ¬Lexing.MeetsOverlong n line) :
    run input = ⟨banner ++ prompt ++ written (answered input) ++ .line "", .exit 0⟩ := by
  have hgoes : ∀ line ∈ answered input, isExit line = false := fun line hline => by
    simpa using List.all_eq_true.1 List.all_takeWhile line hline
  have hlines : linesOf input.toList =
      answered input ++ (linesOf input.toList).dropWhile (!isExit ·) :=
    List.takeWhile_append_dropWhile.symm
  obtain ⟨r, hturns⟩ := turns_alone (r := { color := true }) rfl hgoes h (banner ++ prompt)
  rw [run, around_ended (o := banner ++ prompt ++ written (answered input))]
  rw [hlines, turns_append, run_bind hturns]
  exact (turns_ended r (linesOf input.toList) _).imp_left fun h => ⟨r, h⟩

theorem run_alone {input : String}
    (h : ∀ line ∈ answered input, ∀ n, ¬Lexing.MeetsOverlong n line) :
    run input = {
      output := {
        out := "SheepPig REPL v0.1.0\n" ++
          String.join ((answered input).map fun line => ":> " ++ (alone (String.ofList line)).out) ++
            ":> \n"
        err := String.join ((answered input).map fun line => (alone (String.ofList line)).err) }
      ending := .exit 0 } := by
  have hout : (banner ++ prompt ++ written (answered input) ++ .line "").out =
      banner.out ++ (":> " ++ String.join ((answered input).map fun line =>
        (alone (String.ofList line)).out ++ ":> ")) ++ "\n" := by
    simp [prompt, written, Output.line, String.append_assoc]
  have herr : (banner ++ prompt ++ written (answered input) ++ .line "").err =
      String.join ((answered input).map fun line => (alone (String.ofList line)).err) := by
    simp [banner, prompt, written, Output.line]
  have hlast : ":> " ++ "\n" = ":> \n" := rfl
  rw [join_prompted, String.append_assoc, String.append_assoc, hlast, ← String.append_assoc] at hout
  rw [run_ended h, ← herr]
  exact congrArg (Outcome.mk ⟨·, _⟩ (.exit 0)) hout

/-- A session prints its banner, then for every line up to the first `exit` a prompt and what a
session over this line alone prints between its prompts, and a last prompt; it ends well. -/
theorem run_answers_each_alone {input : String}
    (h : ∀ line ∈ answered input, ∀ n, ¬Lexing.MeetsOverlong n line) :
    run input = {
      output := {
        out := "SheepPig REPL v0.1.0\n" ++
          String.join ((answered input).map fun line => ":> " ++ (alone (String.ofList line)).out) ++
            ":> \n"
        err := String.join ((answered input).map fun line => (alone (String.ofList line)).err) }
      ending := .exit 0 } ∧
    ∀ line ∈ answered input,
      run (String.ofList line) = {
        output := {
          out := "SheepPig REPL v0.1.0\n" ++ (":> " ++ (alone (String.ofList line)).out) ++ ":> \n"
          err := (alone (String.ofList line)).err }
        ending := .exit 0 } ∧
      Answers (String.ofList line) (alone (String.ofList line)).out
        (alone (String.ofList line)).err := by
  refine ⟨run_alone h, fun line hline => ⟨?_, ?_⟩⟩
  · have honly := answered_alone hline
    rw [run_alone (by simpa [honly] using h line hline), honly]
    simp
  · exact (answer_alone (by simpa using h line hline)).2

/-- The first line is rejected, the third ends the session, and the fourth is not read. -/
theorem run_answers_unfinished :
    run "x =\nx\n exit \ny\n" = {
      output := {
        out := "SheepPig REPL v0.1.0\n" ++
          (":> " ++ (alone "x =\n").out ++ (":> " ++ (alone "x\n").out)) ++ ":> \n"
        err := (alone "x =\n").err ++ (alone "x\n").err }
      ending := .exit 0 } ∧
    run "x\n" = {
      output := {
        out := "SheepPig REPL v0.1.0\n" ++ (":> " ++ (alone "x\n").out) ++ ":> \n"
        err := (alone "x\n").err }
      ending := .exit 0 } ∧
    Answers "x =\n" (alone "x =\n").out (alone "x =\n").err ∧
    Answers "x\n" (alone "x\n").out (alone "x\n").err := by
  have hlines : answered "x =\nx\n exit \ny\n" = [['x', ' ', '=', '\n'], ['x', '\n']] := by decide
  have hshort : ∀ line ∈ answered "x =\nx\n exit \ny\n", ∀ n, ¬Lexing.MeetsOverlong n line := by
    intro line hline n hlong
    have hfew : ∀ line ∈ answered "x =\nx\n exit \ny\n", line.length ≤ 4 := by
      rw [hlines]
      decide
    have hlimit : 4300 < line.length := hlong.length_lt
    have hlength := hfew line hline
    omega
  obtain ⟨hrun, hanswers⟩ := run_answers_each_alone hshort
  rw [hlines] at hrun hanswers
  obtain ⟨-, hfirst⟩ := hanswers _ List.mem_cons_self
  obtain ⟨hsecond, hthird⟩ := hanswers _ (List.mem_cons_of_mem _ List.mem_cons_self)
  refine ⟨?_, hsecond, hfirst, hthird⟩
  simpa using hrun

end Pasture.Command.Session
