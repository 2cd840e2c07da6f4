import Mathlib.Data.List.Forall2
import Pasture.Proofs.Diagnostic.Renderer
import Pasture.Proofs.Text.Shown

/-! # Colour changes nothing but colour

A coloured text is the plain text with colour sequences spliced in. Splicing is a relation that
every part of an excerpt keeps, so removing the sequences from what a renderer shows in colour leaves
what it shows without.
-/
namespace Pasture
namespace Text

def codes : List (List Char) :=
  [Paint.red.code, Paint.yellow.code, Paint.cyan.code, Paint.blue.code, Paint.bold.code,
    "\x1b[0m"].map String.toList

/-- A text without the sequences of `codes`; every other escape character stays. -/
def eraseCodes : List Char → List Char
  | [] => []
  | c :: cs =>
    match codes.find? (·.isPrefixOf (c :: cs)) with
    | some code => eraseCodes (cs.drop (code.length - 1))
    | none => c :: eraseCodes cs
termination_by text => text.length

/-- The first text is the second, which has no escape character, with sequences spliced in. -/
inductive Painted : List Char → List Char → Prop
  | nil : Painted [] []
  | char {c : Char} {a b : List Char} (hc : c ≠ escapeChar) (h : Painted a b) :
    Painted (c :: a) (c :: b)
  | code {s a b : List Char} (hs : s ∈ codes) (h : Painted a b) : Painted (s ++ a) b

theorem find_code {s : List Char} (hs : s ∈ codes) (a : List Char) :
    codes.find? (·.isPrefixOf (s ++ a)) = some s := by
  simp only [codes, List.map_cons, List.map_nil, List.mem_cons, List.not_mem_nil, or_false] at hs
  rcases hs with rfl | rfl | rfl | rfl | rfl | rfl <;> rfl

theorem head_of_code {s : List Char} (hs : s ∈ codes) : ∃ rest, s = escapeChar :: rest := by
  have hall : ∀ s ∈ codes, s.head? = some escapeChar := by decide
  exact List.head?_eq_some_iff.1 (hall s hs)

theorem eraseCodes_code {s : List Char} (hs : s ∈ codes) (a : List Char) :
    eraseCodes (s ++ a) = eraseCodes a := by
  have hfind := find_code hs a
  obtain ⟨rest, rfl⟩ := head_of_code hs
  rw [List.cons_append] at hfind ⊢
  rw [eraseCodes, hfind]
  simp

theorem eraseCodes_char {c : Char} (hc : c ≠ escapeChar) (a : List Char) :
    eraseCodes (c :: a) = c :: eraseCodes a := by
  have hfind : codes.find? (·.isPrefixOf (c :: a)) = none := by
    rw [List.find?_eq_none]
    intro s hs
    obtain ⟨rest, rfl⟩ := head_of_code hs
    simp [List.isPrefixOf_cons_cons, Ne.symm hc]
  rw [eraseCodes, hfind]

namespace Painted

variable {a b a' b' : List Char}

theorem of_plain (h : escapeChar ∉ a) : Painted a a := by
  induction a with
  | nil => exact nil
  | cons c cs ih =>
    obtain ⟨hc, hcs⟩ := not_or.1 (mt List.mem_cons.2 h)
    exact char (Ne.symm hc) (ih hcs)

theorem append (h : Painted a b) (h' : Painted a' b') : Painted (a ++ a') (b ++ b') := by
  induction h with
  | nil => exact h'
  | char hc _ ih => exact char hc ih
  | code hs _ ih =>
    rw [List.append_assoc]
    exact code hs ih

theorem eraseCodes_eq (h : Painted a b) : eraseCodes a = b := by
  induction h with
  | nil => rw [eraseCodes]
  | char hc _ ih => rw [eraseCodes_char hc, ih]
  | code hs _ ih => rw [eraseCodes_code hs, ih]

/-- No line break is spliced in. -/
theorem count_feeds (h : Painted a b) : a.count '\n' = b.count '\n' := by
  induction h with
  | nil => rfl
  | char _ _ ih => rw [List.count_cons, List.count_cons, ih]
  | code hs _ ih =>
    have hnone : ∀ s ∈ codes, s.count '\n' = 0 := by decide
    rw [List.count_append, hnone _ hs, Nat.zero_add, ih]

/-- The sequences that are spliced in are among those a channel without colours removes. -/
theorem stripFrom_eq (h : Painted a b) : stripFrom .nothing a = b := by
  induction h with
  | nil => rfl
  | char hc _ ih => rw [stripFrom, if_neg hc, ih]
  | @code s a b hs _ ih =>
    have hstrip : stripFrom .nothing (s ++ a) = stripFrom .nothing a := by
      simp only [codes, List.map_cons, List.map_nil, List.mem_cons, List.not_mem_nil, or_false] at hs
      rcases hs with rfl | rfl | rfl | rfl | rfl | rfl <;> rfl
    rw [hstrip, ih]

end Painted

def Plain (s : String) : Prop := escapeChar ∉ s.toList

instance (s : String) : Decidable (Plain s) := inferInstanceAs (Decidable (escapeChar ∉ s.toList))

theorem plain_append {s t : String} (hs : Plain s) (ht : Plain t) : Plain (s ++ t) := by
  simp only [Plain, String.toList_append, List.mem_append, not_or]
  exact ⟨hs, ht⟩

theorem plain_pushn {c : Char} (hc : c ≠ escapeChar) (n : Nat) : Plain ("".pushn c n) := by
  rw [Plain, toList_pushn]
  intro h
  exact hc (List.eq_of_mem_replicate h).symm

theorem plain_intToString (n : Int) : Plain (toString n) := by
  intro h
  rcases isDigit_of_mem_intToString h with h | h
  · exact absurd h (by decide)
  · exact absurd h (by decide)

theorem plain_padLeft {s : String} (hs : Plain s) (width : Nat) : Plain (padLeft width s) :=
  plain_append (plain_pushn (by decide) _) hs

def Coloured (s t : String) : Prop := Painted s.toList t.toList

namespace Coloured

variable {s t s' t' : String}

theorem of_plain (h : Plain s) : Coloured s s := Painted.of_plain h

theorem append (h : Coloured s t) (h' : Coloured s' t') : Coloured (s ++ s') (t ++ t') := by
  rw [Coloured, String.toList_append, String.toList_append]
  exact Painted.append h h'

theorem append_plain {r : String} (h : Coloured s t) (hr : Plain r) : Coloured (s ++ r) (t ++ r) :=
  h.append (of_plain hr)

theorem paint (p : Paint) (h : Plain s) : Coloured (p.on true s) (p.on false s) := by
  have hcode : p.code.toList ∈ codes := by cases p <;> decide
  have hreset : "\x1b[0m".toList ∈ codes := by decide
  have hend : Painted (s.toList ++ ("\x1b[0m".toList ++ [])) (s.toList ++ []) :=
    (Painted.of_plain h).append (.code hreset .nil)
  have hall := Painted.code hcode hend
  simpa [Coloured, Paint.on] using hall

theorem intercalate {ss ts : List String} {sep : String} (hsep : Plain sep)
    (h : List.Forall₂ Coloured ss ts) : Coloured (sep.intercalate ss) (sep.intercalate ts) := by
  induction h with
  | nil => exact .nil
  | @cons s t ss ts hs hss ih =>
    cases hss with
    | nil => simpa using hs
    | cons h₁ h₂ =>
      rw [String.intercalate_cons_cons, String.intercalate_cons_cons]
      exact (hs.append (of_plain hsep)).append ih

end Coloured
end Text

open Text

structure Label.Plain (l : Label) : Prop where
  file : Text.Plain l.span.file
  message : Text.Plain l.message

structure Diagnostic.Plain (d : Diagnostic) : Prop where
  code : Text.Plain d.code
  message : Text.Plain d.message
  labels : ∀ l ∈ d.labels, l.Plain
  notes : ∀ note ∈ d.notes, Text.Plain note
  suggestions : ∀ s ∈ d.suggestions, Text.Plain s.message ∧ Text.Plain s.replacement

section Lists

variable {α β γ : Type} {R : β → γ → Prop} {l : List α}

theorem forall₂_map {f : α → β} {g : α → γ} (h : ∀ a ∈ l, R (f a) (g a)) :
    List.Forall₂ R (l.map f) (l.map g) := by
  rw [List.forall₂_map_left_iff, List.forall₂_map_right_iff, List.forall₂_same]
  exact h

theorem forall₂_flatMap {f : α → List β} {g : α → List γ}
    (h : ∀ a ∈ l, List.Forall₂ R (f a) (g a)) : List.Forall₂ R (l.flatMap f) (l.flatMap g) := by
  rw [List.flatMap_def, List.flatMap_def]
  exact List.rel_flatten (forall₂_map h)

end Lists

namespace Excerpt

variable {l : Label} {line : List Char} {source : List (List Char)}

theorem bar_coloured : Coloured (bar true) (bar false) :=
  (Coloured.of_plain (by decide)).append (.paint .blue (by decide))

theorem plain_mark (hl : l.Plain) (line : List Char) : Text.Plain (mark l line) := by
  simp only [mark]
  have hsign : (if l.style = "primary" then '^' else '-') ≠ escapeChar := by
    split <;> decide
  have hsigns := plain_pushn hsign (markWidth l.span line)
  split
  · exact hsigns
  · exact plain_append (plain_append hsigns (by decide)) hl.message

theorem plain_place (hl : l.Plain) : Text.Plain l.span.text := by
  have hrow : Text.Plain (l.span.file ++ ":" ++ toString l.span.startLine) :=
    plain_append (plain_append hl.file (by decide)) (plain_intToString _)
  exact plain_append (plain_append hrow (by decide)) (plain_intToString _)

theorem lineOf_mem {span : Span} (h : lineOf source span = some line) : line ∈ source := by
  unfold lineOf at h
  split at h
  · exact List.mem_of_getElem? h
  · cases h

theorem labelLines_coloured (paint : Paint) (hl : l.Plain)
    (hsource : ∀ line ∈ source, escapeChar ∉ line) :
    List.Forall₂ Coloured (labelLines true paint source l) (labelLines false paint source l) := by
  have hindent : Text.Plain "  " := by decide
  have hblank : Text.Plain " " := by decide
  have hpad : ' ' ≠ escapeChar := by decide
  have harrow : Coloured ("  " ++ Paint.blue.on true "-->" ++ " " ++ l.span.text)
      ("  " ++ Paint.blue.on false "-->" ++ " " ++ l.span.text) :=
    (((Coloured.of_plain hindent).append (.paint .blue (by decide))).append_plain hblank).append_plain
      (plain_place hl)
  have hhead := List.Forall₂.cons harrow (.cons bar_coloured .nil)
  simp only [labelLines]
  cases hline : lineOf source l.span with
  | none =>
    dsimp only
    split
    · exact hhead
    · exact List.rel_append hhead
        (.cons ((bar_coloured.append_plain hblank).append (.paint paint hl.message)) .nil)
  | some line =>
    have hnumber : Text.Plain (padLeft 4 (toString l.span.startLine) ++ " |") :=
      plain_append (plain_padLeft (plain_intToString _) 4) (by decide)
    have hshown : Text.Plain (String.ofList line) := by
      rw [Text.Plain, String.toList_ofList]
      exact hsource line (lineOf_mem hline)
    have hexcerpt := (((Coloured.of_plain hindent).append (.paint .blue hnumber)).append_plain
      hblank).append_plain hshown
    have hunder := ((bar_coloured.append_plain hblank).append_plain
      (plain_pushn hpad (l.span.startColumn - 1).toNat)).append
        (.paint paint (plain_mark hl line))
    exact List.rel_append hhead (.cons hexcerpt (.cons hunder .nil))

end Excerpt

namespace Diagnostic

variable {d : Diagnostic} {sourceOf : String → List (List Char)}

theorem lines_coloured (hd : d.Plain)
    (hsource : ∀ l ∈ d.labels, ∀ line ∈ sourceOf l.span.file, escapeChar ∉ line) :
    List.Forall₂ Coloured (d.lines true sourceOf) (d.lines false sourceOf) := by
  have hname : Text.Plain (d.severity.name ++ "[" ++ d.code ++ "]") := by
    have hseverity : Text.Plain d.severity.name := by cases d.severity <;> decide
    exact plain_append (plain_append (plain_append hseverity (by decide)) hd.code) (by decide)
  have htitle := (Coloured.paint d.severity.paint hname).append
    (.paint .bold (plain_append (show Text.Plain ": " by decide) hd.message))
  have hgutter : Coloured ("  " ++ Paint.blue.on true "=") ("  " ++ Paint.blue.on false "=") :=
    (Coloured.of_plain (by decide)).append (.paint .blue (by decide))
  have hlabels := forall₂_flatMap fun l hl =>
    Excerpt.labelLines_coloured d.severity.paint (hd.labels l hl) (hsource l hl)
  have hnotes := forall₂_map fun note hnote =>
    (hgutter.append_plain (show Text.Plain " note: " by decide)).append_plain (hd.notes note hnote)
  have hhelp := forall₂_map fun s hs =>
    (((hgutter.append_plain (show Text.Plain " help: " by decide)).append_plain
      (hd.suggestions s hs).1).append_plain (show Text.Plain ": " by decide)).append_plain
        (hd.suggestions s hs).2
  exact List.rel_append (List.rel_append (.cons htitle hlabels) hnotes) hhelp

theorem render_coloured (hd : d.Plain)
    (hsource : ∀ l ∈ d.labels, ∀ line ∈ sourceOf l.span.file, escapeChar ∉ line) :
    Coloured (d.render true sourceOf) (d.render false sourceOf) :=
  Coloured.intercalate (by decide) (lines_coloured hd hsource)

/-- A channel that shows no colours shows what is rendered without. -/
theorem stripAnsi_render (hd : d.Plain)
    (hsource : ∀ l ∈ d.labels, ∀ line ∈ sourceOf l.span.file, escapeChar ∉ line) :
    stripAnsi (d.render true sourceOf) = d.render false sourceOf := by
  rw [stripAnsi, (render_coloured hd hsource).stripFrom_eq, String.ofList_toList]

end Diagnostic

namespace Renderer

/-- What may be asked of a renderer. The files may change from one step to the next. -/
inductive Step where
  | register (file source : String)
  | render (disk : Disk Id) (d : Diagnostic)

def take (r : Renderer) : Step → Option String × Renderer
  | .register file source => (none, r.register file source)
  | .render disk d => ((r.render disk d).1, (r.render disk d).2)

def run (r : Renderer) : List Step → List (Option String)
  | [] => []
  | step :: steps => (r.take step).1 :: (r.take step).2.run steps

/-- Neither the diagnostic that a step shows nor the sources it points to have escape characters;
these are the sources that the renderer knows by then. -/
def Clean (r : Renderer) : Step → Prop
  | .register .. => True
  | .render disk d => d.Plain ∧
      ∀ l ∈ d.labels, ∀ line ∈ (r.loadAll disk d).sourceOf l.span.file, escapeChar ∉ line

def CleanRun (r : Renderer) : List Step → Prop
  | [] => True
  | step :: steps => r.Clean step ∧ (r.take step).2.CleanRun steps

theorem load_recoloured (disk : Disk Id) (r : Renderer) (file : String) (color : Bool) :
    load disk { r with color } file = ({ r.load disk file with color } : Renderer) := by
  by_cases h : r.Knows file
  · have hleft : load disk { r with color } file = { r with color } :=
      load_known (m := Id) disk h
    have hright : r.load disk file = r := load_known (m := Id) disk h
    rw [hleft, hright]
  · unfold Knows at h
    simp only [load, h]
    rfl

/-- Colour has no part in what is read. -/
theorem loadAll_recoloured (disk : Disk Id) (r : Renderer) (d : Diagnostic) (color : Bool) :
    loadAll disk { r with color } d = ({ r.loadAll disk d with color } : Renderer) := by
  unfold loadAll
  induction d.labels generalizing r with
  | nil => rfl
  | cons l ls ih =>
    have hrest := ih (r.load disk l.span.file)
    rw [← load_recoloured] at hrest
    exact hrest

/-- Two renderers that differ in colour answer a step alike but for colour, and go on so. -/
theorem take_recoloured {r : Renderer} {step : Step} (h : r.Clean step) :
    Option.Rel Coloured (take { r with color := true } step).1
        (take { r with color := false } step).1 ∧
      ∀ color, (take { r with color } step).2 = { (r.take step).2 with color } := by
  cases step with
  | register file source => exact ⟨.none, fun _ => rfl⟩
  | render disk d =>
    obtain ⟨hd, hsource⟩ := h
    have hload := loadAll_recoloured disk r d
    have hshown : ∀ color, take { r with color } (.render disk d) =
        (some (d.render color (r.loadAll disk d).sourceOf), { r.loadAll disk d with color }) := by
      intro color
      have htake : take { r with color } (.render disk d) =
          (some (d.render (loadAll disk { r with color } d).color
            (loadAll disk { r with color } d).sourceOf), loadAll disk { r with color } d) := rfl
      rw [htake, hload color]
      rfl
    rw [hshown true, hshown false]
    refine ⟨.some (Diagnostic.render_coloured hd hsource), ?_⟩
    intro color
    rw [hshown color]
    rfl

theorem run_coloured {r : Renderer} {steps : List Step} (h : r.CleanRun steps) :
    List.Forall₂ (Option.Rel Coloured) (run { r with color := true } steps)
      (run { r with color := false } steps) := by
  induction steps generalizing r with
  | nil => exact .nil
  | cons step steps ih =>
    obtain ⟨hstep, hsteps⟩ := h
    obtain ⟨hanswer, hnext⟩ := take_recoloured hstep
    refine .cons hanswer ?_
    rw [hnext true, hnext false]
    exact ih hsteps

/-- Whatever is registered and shown, and whatever files change in between: without the sequences
of `codes`, each text that a renderer with colour shows is the text that one without shows, and it
has as many lines. -/
theorem colour_only {r : Renderer} {steps : List Step} (h : r.CleanRun steps) :
    List.Forall₂
      (Option.Rel fun painted plain => eraseCodes painted.toList = plain.toList ∧
        painted.toList.count '\n' = plain.toList.count '\n')
      (run { r with color := true } steps) (run { r with color := false } steps) := by
  refine (run_coloured h).imp fun painted plain hanswer => ?_
  cases hanswer with
  | none => exact .none
  | some hcoloured => exact .some ⟨hcoloured.eraseCodes_eq, hcoloured.count_feeds⟩

/-- A label below its line, one past the end of its file and one in a file that is not there. -/
def remarks : Diagnostic where
  severity := .warning
  code := "W1"
  message := "odd\nname"
  labels := [⟨⟨"a.sp", 1, 5, 2, 1⟩, "here", "primary"⟩, ⟨⟨"a.sp", 9, 1, 9, 1⟩, "ends", "primary"⟩,
    ⟨⟨"b.sp", 1, 1, 1, 3⟩, "", "other"⟩]
  suggestions := [⟨"write", "x"⟩]
  notes := ["see above"]

def remarkSteps : List Step := [.register "a.sp" "let x\n", .render (FileSet.disk ⟨[]⟩ []) remarks]

theorem colour_only_remarks : CleanRun { color := true } remarkSteps ∧
    List.Forall₂
      (Option.Rel fun painted plain => eraseCodes painted.toList = plain.toList ∧
        painted.toList.count '\n' = plain.toList.count '\n')
      (run { color := true } remarkSteps) (run { color := false } remarkSteps) := by
  have hplain : remarks.Plain := by
    refine ⟨by decide, by decide, ?_, by decide, by decide⟩
    intro l hl
    have hall : ∀ l ∈ remarks.labels, Text.Plain l.span.file ∧ Text.Plain l.message := by decide
    exact ⟨(hall l hl).1, (hall l hl).2⟩
  have hclean : CleanRun { color := true } remarkSteps :=
    ⟨trivial, ⟨hplain, by decide +kernel⟩, trivial⟩
  exact ⟨hclean, colour_only hclean⟩

end Renderer
end Pasture
