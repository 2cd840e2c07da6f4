import Pasture.Command.Run
import Pasture.Proofs.Diagnostic.Renderer
import Pasture.Proofs.Failures

/-! # Checks report each rejected file by itself

One renderer lives as long as a check and keeps the lines of the files it has shown. As long as the
files stay as they are, a report is the one that a renderer gives that has shown nothing before.
-/
namespace Pasture.Command.Project

variable {disk : Disk Id} {r : Renderer} {file : Path} {files : List Path} {settings : Manifest}

def textAt (disk : Disk Id) (file : Path) : Option String :=
  if file.isOverlong then none else (disk.read? file).bind Text.ofBytes?

def rejectionOf {α : Type} : Except Failure α → Option ParseError
  | .error (.rejected e) => some e
  | .error (.digitLimit _) | .ok _ => none

theorem rejectionOf_eq_some {α : Type} {x : Except Failure α} {e : ParseError} :
    rejectionOf x = some e ↔ x = .error (.rejected e) := by
  rcases x with (e | n) | a <;> simp [rejectionOf]

def rejection? (disk : Disk Id) (file : Path) : Option ParseError :=
  (textAt disk file).bind fun text => rejectionOf (parseSource text file.text file.stem)

/-- The report on a file that is rejected, by a renderer that has shown nothing before. -/
def report? (disk : Disk Id) (color : Bool) (file : Path) : Option String :=
  (rejection? disk file).map fun e => (Renderer.render disk { color } e.diagnostic).1

/-- The file can be read, and does not come to an overlong integer. -/
def Legible (disk : Disk Id) (file : Path) : Prop :=
  ∃ text, textAt disk file = some text ∧ ∀ n, ¬Lexing.MeetsOverlong n text.toList

def reports (disk : Disk Id) (color : Bool) (files : List Path) : String :=
  String.join ((files.filterMap (report? disk color)).map (· ++ "\n"))

def failures (disk : Disk Id) (files : List Path) : Nat :=
  files.countP fun file => (rejection? disk file).isSome

/-- The settings of the project to which a path belongs, and the source files they lead to. -/
structure Opens (disk : Disk Id) (path : String) (settings : Manifest) (files : List Path) :
    Prop where
  there : (kindOf disk path).isSome
  loaded : ∃ manifest bytes, Manifest.find? disk (.ofText path) = .ok (some manifest) ∧
    disk.read? manifest = some bytes ∧ settingsOf bytes = .ok settings ∧
    settings.sourceFiles disk { manifest with names := manifest.names.dropLast } = .ok files

/-- A file that can be read is accepted or rejected. -/
theorem verdict_of_legible (h : Legible disk file) :
    verdict file (disk.read? file) = .accepted ∧ rejection? disk file = none ∨
      ∃ e, verdict file (disk.read? file) = .rejected e ∧ rejection? disk file = some e := by
  obtain ⟨text, htext, hshort⟩ := h
  have hrejection : rejection? disk file = rejectionOf (parseSource text file.text file.stem) := by
    rw [rejection?, htext, Option.bind_some]
  unfold textAt at htext
  split at htext
  · cases htext
  · rename_i hlong
    obtain ⟨bytes, hbytes, hdecoded⟩ := Option.bind_eq_some_iff.1 htext
    simp only [verdict, if_neg hlong, hbytes, sourceText, hdecoded, hrejection]
    cases hparse : parseSource text file.text file.stem with
    | ok m => exact .inl ⟨rfl, rfl⟩
    | error failure =>
      cases failure with
      | rejected e => exact .inr ⟨e, rfl, rfl⟩
      | digitLimit n => exact absurd (parseSource_digitLimit.1 hparse) (hshort n)

theorem reports_cons_accepted {color : Bool} (h : rejection? disk file = none) :
    reports disk color (file :: files) = reports disk color files := by
  simp [reports, report?, h]

theorem reports_cons_rejected {color : Bool} {e : ParseError} (h : rejection? disk file = some e) :
    reports disk color (file :: files) =
      (Renderer.render disk { color } e.diagnostic).1 ++ "\n" ++ reports disk color files := by
  simp [reports, report?, h]

theorem parseSource_of_rejection {e : ParseError} (h : rejection? disk file = some e) :
    ∃ text, parseSource text file.text file.stem = .error (.rejected e) := by
  obtain ⟨text, -, he⟩ := Option.bind_eq_some_iff.1 h
  exact ⟨text, rejectionOf_eq_some.1 he⟩

theorem fresh_report (disk : Disk Id) (color : Bool) (d : Diagnostic) :
    (Renderer.render disk { color } d).1 = d.render color (Renderer.linesOn disk) :=
  (Renderer.render_agrees (Renderer.agrees_fresh disk color) d).1

/-- By induction on the files; the renderer that is handed on agrees with the disk. -/
theorem tally_alone (hr : r.Agrees disk) (h : ∀ file ∈ files, Legible disk file) :
    tally disk r files =
      ({ output := ⟨"", reports disk r.color files⟩, failed := failures disk files } : Tally) := by
  induction files generalizing r with
  | nil => rfl
  | cons file files ih =>
    obtain ⟨hfile, hfiles⟩ := List.forall_mem_cons.1 h
    rcases verdict_of_legible hfile with ⟨hverdict, hnone⟩ | ⟨e, hverdict, hsome⟩
    · have hcount : failures disk (file :: files) = failures disk files := by
        simp [failures, hnone]
      have hstep : tally disk r (file :: files) = tally disk r files := by
        simp only [tally, bind, hverdict]
      rw [hstep, ih hr hfiles, reports_cons_accepted hnone, hcount]
    · have hcount : failures disk (file :: files) = failures disk files + 1 := by
        simp [failures, hsome]
      obtain ⟨hshown, hcolor, hagrees⟩ := Renderer.render_agrees hr e.diagnostic
      have hstep : tally disk r (file :: files) =
          let t := tally disk (r.render disk e.diagnostic).2 files
          ({ t with
            output := .complaint (r.render disk e.diagnostic).1 ++ t.output
            failed := t.failed + 1 } : Tally) := by
        simp only [tally, bind, hverdict]
        rfl
      rw [hstep, ih hagrees hfiles, hcolor, reports_cons_rejected hsome, hcount, hshown,
        fresh_report]
      rfl

/-- The output and the ending of a check over files that can be read. -/
theorem checkFiles_alone (hne : files ≠ []) (h : ∀ file ∈ files, Legible disk file) :
    checkFiles disk settings files =
      (summary settings.package.name (failures disk files) files.length).after
        ⟨"", reports disk settings.diagnostics.color files⟩ := by
  have hsome : files.isEmpty = false := by simpa using hne
  have htally := tally_alone (Renderer.agrees_fresh disk settings.diagnostics.color) h
  simp only [checkFiles, hsome, Bool.false_eq_true, if_false, bind, htally]
  rfl

/-- Once a project has been opened, its files are checked. -/
theorem Opens.run_eq {path : String} (h : Opens disk path settings files) (input : String) :
    (Invocation.check path).run disk input =
      (checkFiles disk settings files : Outcome).after
        (.line ("checking " ++ settings.package.name ++ "...")) := by
  obtain ⟨manifest, bytes, hmanifest, hbytes, hsettings, hfiles⟩ := h.loaded
  have hthere : (kindOf disk path).isNone = false := by
    rw [← Option.not_isSome, h.there]
    rfl
  simp only [Invocation.run, check, bind, hthere, Bool.false_eq_true, if_false, hmanifest, hbytes,
    hsettings, hfiles]
  rfl

theorem failures_pos : 0 < failures disk files ↔ ∃ file ∈ files, (rejection? disk file).isSome :=
  List.countP_pos_iff

/-- The report on a file depends on no other file. -/
theorem report?_congr {other : Disk Id} (color : Bool)
    (hfile : other.read? file = disk.read? file)
    (hshown : other.read? (.ofText file.text) = disk.read? (.ofText file.text)) :
    report? other color file = report? disk color file := by
  have hsame : rejection? other file = rejection? disk file := by
    rw [rejection?, rejection?, textAt, textAt, hfile]
  rw [report?, report?, hsame]
  cases hrejection : rejection? disk file with
  | none => rw [Option.map_none, Option.map_none]
  | some e =>
    obtain ⟨text, hparse⟩ := parseSource_of_rejection hrejection
    have hlines : Renderer.linesOn other file.text = Renderer.linesOn disk file.text := by
      rw [Renderer.linesOn, Renderer.linesOn, hshown]
    rw [Option.map_some, Option.map_some, fresh_report, fresh_report,
      ParseError.render_congr hparse color hlines]

/-- What the last line of a check tells. -/
theorem summary_tells (name : String) (failed count : Nat) :
    (summary name failed count).output.err =
        (if failed = 0 then "" else "checked " ++ name ++ ": " ++ toString failed ++ " of " ++
          toString count ++ " file(s) failed" ++ "\n") ∧
      (summary name failed count).ending = .exit (if failed = 0 then 0 else 1) := by
  by_cases hnone : failed = 0
  · rw [summary, if_pos hnone, if_pos hnone, if_pos hnone]
    exact ⟨rfl, rfl⟩
  · rw [summary, if_neg hnone, if_neg hnone, if_neg hnone]
    exact ⟨rfl, rfl⟩

/-- The error channel of a check that has files to check holds a report for each file that is
rejected, in the order of the files, and the counts if there is any; the check fails just if there
is. What is reported on a file depends on no other file. -/
theorem check_reports_each {path : String} (input : String)
    (hopens : Opens disk path settings files) (hne : files ≠ [])
    (h : ∀ file ∈ files, Legible disk file) :
    let o : Outcome := (Invocation.check path).run disk input
    let failed := failures disk files
    o.output.err = reports disk settings.diagnostics.color files ++
        (if failed = 0 then "" else "checked " ++ settings.package.name ++ ": " ++ toString failed ++
          " of " ++ toString files.length ++ " file(s) failed" ++ "\n") ∧
      o.ending = .exit (if failed = 0 then 0 else 1) ∧
      (o.ending.code = 1 ↔ ∃ file ∈ files, (rejection? disk file).isSome) ∧
      ∀ (file : Path) (other : Disk Id), other.read? file = disk.read? file →
        other.read? (.ofText file.text) = disk.read? (.ofText file.text) →
        report? other settings.diagnostics.color file =
          report? disk settings.diagnostics.color file := by
  intro o failed
  have ho : o = ((summary settings.package.name failed files.length).after
      ⟨"", reports disk settings.diagnostics.color files⟩).after
        (.line ("checking " ++ settings.package.name ++ "...")) := by
    have hrun := hopens.run_eq input
    rw [checkFiles_alone hne h] at hrun
    exact hrun
  obtain ⟨herr, hending⟩ := summary_tells settings.package.name failed files.length
  have hexit : o.ending = .exit (if failures disk files = 0 then 0 else 1) := by
    rw [ho]
    exact hending
  refine ⟨?_, hexit, ?_, fun file other => report?_congr _⟩
  · rw [ho, ← herr]
    exact String.empty_append
  · rw [hexit, ← failures_pos]
    by_cases hnone : failures disk files = 0
    · simp [hnone, Ending.code]
    · simp [hnone, Ending.code, Nat.pos_of_ne_zero hnone]

/-- A project of two files, of which the second is rejected. -/
def farm : FileSet where
  entries := [
    (["farm"], none),
    (["farm", "sheeppig.toml"], some "".toUTF8),
    (["farm", "ewe.sp"], some "x = 1\n".toUTF8),
    (["farm", "hog.sp"], some "x =\n".toUTF8)]

def lonelyFarm : FileSet where
  entries := [(["farm"], none), (["farm", "hog.sp"], some "x =\n".toUTF8)]

theorem check_reports_hog :
    let disk := farm.disk ["farm"]
    let hog : Path := ⟨true, ["farm", "hog.sp"]⟩
    let o : Outcome := (Invocation.check ".").run disk ""
    o.output.err = reports disk true [⟨true, ["farm", "ewe.sp"]⟩, hog] ++
        "checked untitled: 1 of 2 file(s) failed\n" ∧
      o.ending = .exit 1 ∧
      report? (lonelyFarm.disk ["farm"]) true hog = report? disk true hog := by
  intro disk hog o
  have hopens : Opens disk "." {} [⟨true, ["farm", "ewe.sp"]⟩, hog] := by
    refine ⟨by decide +kernel, ⟨true, ["farm", "sheeppig.toml"]⟩, "".toUTF8, rfl, rfl, rfl, ?_⟩
    have hsources : ((disk.below ⟨true, ["farm"]⟩).map Prod.fst).filter Manifest.isSource =
        [⟨false, ["ewe.sp"]⟩, ⟨false, ["hog.sp"]⟩] := by decide +kernel
    have hsorted : List.mergeSort [⟨false, ["ewe.sp"]⟩, ⟨false, ["hog.sp"]⟩]
        (fun p q : Path => Manifest.namesLe p.names q.names) =
          [⟨false, ["ewe.sp"]⟩, ⟨false, ["hog.sp"]⟩] :=
      List.mergeSort_of_pairwise (by decide +kernel)
    change Manifest.sourceFilesBelow disk ⟨true, ["farm"]⟩ = _
    unfold Manifest.sourceFilesBelow
    simp only [bind, hsources, hsorted]
    rfl
  have hlegible : ∀ file ∈ [⟨true, ["farm", "ewe.sp"]⟩, hog], Legible disk file := by
    intro file hfile
    rcases List.mem_pair.1 hfile with rfl | rfl
    · refine ⟨"x = 1\n", by decide +kernel, fun n hlong => ?_⟩
      have hlimit : 4300 < "x = 1\n".toList.length := hlong.length_lt
      simp at hlimit
    · refine ⟨"x =\n", by decide +kernel, fun n hlong => ?_⟩
      have hlimit : 4300 < "x =\n".toList.length := hlong.length_lt
      simp at hlimit
  have hone : failures disk [⟨true, ["farm", "ewe.sp"]⟩, hog] = 1 := by decide +kernel
  obtain ⟨herr, hending, -, hreport⟩ := check_reports_each "" hopens (by simp) hlegible
  have ho : o = (Invocation.check ".").run disk "" := rfl
  rw [hone] at herr hending
  rw [ho]
  refine ⟨herr.trans (congrArg (reports disk true _ ++ ·) ?_), hending,
    hreport hog (lonelyFarm.disk ["farm"]) ?_ ?_⟩
  · decide +kernel
  · change (_ : Option ByteArray) = _
    decide +kernel
  · change (_ : Option ByteArray) = _
    decide +kernel

end Pasture.Command.Project
