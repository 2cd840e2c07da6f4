import Mathlib.Data.List.Basic
import Pasture.Diagnostic.Renderer
import Pasture.Proofs.Grammar.Places

/-! # What a renderer shows

A diagnostic is shown with lines of the files that its labels name, and of no others. A renderer
keeps the lines of the files it has read, and as long as the files stay as they are it shows what a
renderer shows that has read none of them before.
-/
namespace Pasture

theorem Diagnostic.render_congr {d : Diagnostic} {f g : String → List (List Char)} (color : Bool)
    (h : ∀ l ∈ d.labels, f l.span.file = g l.span.file) : d.render color f = d.render color g := by
  have hlabels : d.labels.flatMap (fun l =>
        Excerpt.labelLines color d.severity.paint (f l.span.file) l) =
      d.labels.flatMap fun l => Excerpt.labelLines color d.severity.paint (g l.span.file) l :=
    List.flatMap_congr fun l hl => by rw [h l hl]
  rw [render, render, lines, lines, hlabels]

/-- All that is said of a rejected text is said of the file by whose name it is called. -/
theorem ParseError.label_in_file {source file name : String} {e : ParseError}
    (h : parseSource source file name = .error (.rejected e)) :
    ∀ l ∈ e.diagnostic.labels, l.span.file = file := by
  obtain ⟨s, hs, -, -, hfile, -⟩ := parseSource_placed h
  rw [Option.mem_def] at hs
  intro l hl
  simp only [diagnostic, hs, List.mem_singleton] at hl
  rw [hl]
  exact hfile

/-- Of all files, only the lines of the rejected one matter to what is shown. -/
theorem ParseError.render_congr {source file name : String} {e : ParseError}
    {f g : String → List (List Char)} (h : parseSource source file name = .error (.rejected e))
    (color : Bool) (hlines : f file = g file) :
    e.diagnostic.render color f = e.diagnostic.render color g := by
  apply Diagnostic.render_congr
  intro l hl
  rw [label_in_file h l hl]
  exact hlines

namespace Renderer

variable {r s : Renderer} {d : Diagnostic} {file : String}

def Knows (r : Renderer) (file : String) : Prop := (r.sources.lookup file).isSome

theorem register_knows (r : Renderer) (file source : String) : (r.register file source).Knows file := by
  simp [Knows, register]

theorem Knows.register (h : r.Knows file) (other source : String) :
    (r.register other source).Knows file := by
  by_cases hfile : file = other
  · rw [hfile]
    exact register_knows r other source
  · have hne : (file == other) = false := by simpa using hfile
    simpa [Knows, Renderer.register, List.lookup_cons, hne] using h

@[simp] theorem sourceOf_register (r : Renderer) (file source : String) :
    (r.register file source).sourceOf file = Text.lines source.toList := by
  simp [sourceOf, register]

section Known

variable {m : Type → Type} [Monad m]

/-- A renderer reads no file that it knows. -/
theorem load_known (disk : Disk m) (h : r.Knows file) : r.load disk file = pure r := by
  unfold Knows at h
  simp [load, h]

theorem render_known [LawfulMonad m] (disk : Disk m) (h : ∀ l ∈ d.labels, r.Knows l.span.file) :
    r.render disk d = pure (d.render r.color r.sourceOf, r) := by
  have hload : ∀ ls : List Label, (∀ l ∈ ls, r.Knows l.span.file) →
      ls.foldlM (fun r l => r.load disk l.span.file) r = pure r := by
    intro ls hls
    induction ls with
    | nil => rfl
    | cons l ls ih =>
      obtain ⟨hl, hls⟩ := List.forall_mem_cons.1 hls
      rw [List.foldlM_cons, load_known disk hl, pure_bind, ih hls]
  rw [render, loadAll, hload d.labels h, pure_bind]

end Known

section Fixed

variable {disk : Disk Id}

def linesOn (disk : Disk Id) (file : String) : List (List Char) :=
  Text.lines (((disk.read? (.ofText file)).bind Text.ofBytes?).getD "").toList

/-- What the renderer keeps of a file is what the disk has. -/
def Agrees (disk : Disk Id) (r : Renderer) : Prop :=
  ∀ file ls, r.sources.lookup file = some ls → ls = linesOn disk file

theorem agrees_fresh (disk : Disk Id) (color : Bool) : Agrees disk { color } := by
  intro file ls h
  cases h

theorem Agrees.sourceOf (h : r.Agrees disk) (hfile : r.Knows file) :
    r.sourceOf file = linesOn disk file := by
  obtain ⟨ls, hls⟩ := Option.isSome_iff_exists.1 hfile
  rw [Renderer.sourceOf, hls, Option.getD_some]
  exact h file ls hls

/-- The renderer `s` is `r` with more files read, these among them. -/
structure Extends (disk : Disk Id) (files : List String) (r s : Renderer) : Prop where
  color : s.color = r.color
  agrees : s.Agrees disk
  keeps : ∀ file, r.Knows file → s.Knows file
  knows : ∀ file ∈ files, s.Knows file

theorem load_extends (h : r.Agrees disk) (file : String) :
    Extends disk [file] r (r.load disk file) := by
  by_cases hknows : r.Knows file
  · have hload : r.load disk file = r := load_known disk hknows
    rw [hload]
    exact ⟨rfl, h, fun _ hk => hk, by simpa using hknows⟩
  · have hload : r.load disk file =
        r.register file (((disk.read? (.ofText file)).bind Text.ofBytes?).getD "") := by
      unfold Knows at hknows
      simp only [load, hknows]
      rfl
    rw [hload]
    refine ⟨rfl, ?_, fun _ hk => hk.register _ _, by simpa using register_knows r file _⟩
    intro other ls hls
    by_cases hother : other = file
    · subst hother
      simp only [register, List.lookup_cons_self, Option.some.injEq] at hls
      exact hls.symm
    · have hne : (other == file) = false := by simpa using hother
      simp only [register, List.lookup_cons, hne] at hls
      exact h other ls hls

theorem Extends.trans {t : Renderer} {files more : List String} (h : Extends disk files r s)
    (k : Extends disk more s t) : Extends disk (files ++ more) r t := by
  refine ⟨k.color.trans h.color, k.agrees, fun file hf => k.keeps file (h.keeps file hf), ?_⟩
  intro file hfile
  rcases List.mem_append.1 hfile with hf | hf
  · exact k.keeps file (h.knows file hf)
  · exact k.knows file hf

theorem loadAll_extends (h : r.Agrees disk) (d : Diagnostic) :
    Extends disk (d.labels.map (·.span.file)) r (r.loadAll disk d) := by
  unfold loadAll
  induction d.labels generalizing r with
  | nil => exact ⟨rfl, h, fun _ hk => hk, by simp⟩
  | cons l ls ih =>
    have hfirst := load_extends h l.span.file
    exact hfirst.trans (ih hfirst.agrees)

/-- A renderer that agrees with the disk shows what is on the disk, and goes on to agree. -/
theorem render_agrees (h : r.Agrees disk) (d : Diagnostic) :
    (r.render disk d).1 = d.render r.color (linesOn disk) ∧
      (r.render disk d).2.color = r.color ∧ (r.render disk d).2.Agrees disk := by
  have hall := loadAll_extends h d
  refine ⟨?_, hall.color, hall.agrees⟩
  have hlines : ∀ l ∈ d.labels,
      (r.loadAll disk d).sourceOf l.span.file = linesOn disk l.span.file := by
    intro l hl
    exact hall.agrees.sourceOf (hall.knows _ (List.mem_map_of_mem hl))
  have hshown := Diagnostic.render_congr r.color hlines
  rw [← hshown, ← hall.color]
  rfl

end Fixed
end Renderer
end Pasture
