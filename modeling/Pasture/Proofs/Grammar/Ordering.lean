import Pasture.Proofs.Grammar.Concatenation

/-! # The order of a module

Parts that can each be read on their own, one behind the other, make a module if they start with one
block of imports at most and no function is behind a statement. The first part that breaks this order
is refused at its first word.
-/
namespace Pasture.Grammar

open Pasture.Parser

inductive Part where
  | imports (is : List Import)
  | function (f : Function)
  | statement (s : Statement)

namespace Part

def next : Stage → Part → Option Stage
  | .opening, imports _ => some .definitions
  | .opening, function _ | .definitions, function _ => some .definitions
  | _, statement _ => some .statements
  | _, _ => none

def addTo : Part → Contents → Contents
  | imports is, c => { c with imports := is ++ c.imports }
  | function f, c => { c with functions := f :: c.functions }
  | statement s, c => { c with statements := s :: c.statements }

def Spelled (ts : List Token) : Part → Prop
  | imports is => ∃ w us, ts = w :: us ∧ w.lexeme = .keyword .importing ∧
      Grammar.imports.run us = .ok is []
  | function f => ∃ w us, ts = w :: us ∧ w.lexeme = .keyword .function ∧
      Grammar.function.run us = .ok f []
  | statement s => ∃ last, last.lexeme = .endOfInput ∧ item.run (ts ++ [last]) = .ok s [last]

end Part

section Order

variable {stage : Stage} {ps : List Part} {block : Option (List Import)} {fs : List Function}
  {ss : List Statement}

/-- An import block if there is one, then functions, then statements. -/
def arranged (block : Option (List Import)) (fs : List Function) (ss : List Statement) :
    List Part :=
  block.toList.map .imports ++ (fs.map .function ++ ss.map .statement)

def Ordered (ps : List Part) : Prop := ∃ block fs ss, ps = arranged block fs ss

def stageBehind (stage : Stage) (ps : List Part) : Option Stage := ps.foldlM Part.next stage

theorem stageBehind_cons (stage : Stage) (p : Part) (ps : List Part) :
    stageBehind stage (p :: ps) = (p.next stage).bind fun s => stageBehind s ps := by
  simp [stageBehind, List.foldlM_cons]

theorem stageBehind_append (stage : Stage) (ps qs : List Part) :
    stageBehind stage (ps ++ qs) = (stageBehind stage ps).bind fun s => stageBehind s qs := by
  simp [stageBehind, List.foldlM_append]

theorem stageBehind_statements (stage : Stage) (ss : List Statement) :
    (stageBehind stage (ss.map .statement)).isSome := by
  induction ss generalizing stage with
  | nil => rfl
  | cons s ss ih =>
    rw [List.map_cons, stageBehind_cons]
    cases stage <;> exact ih .statements

theorem stageBehind_functions (hstage : stage ≠ .statements) (fs : List Function)
    (ss : List Statement) : (stageBehind stage (fs.map .function ++ ss.map .statement)).isSome := by
  induction fs generalizing stage with
  | nil => exact stageBehind_statements stage ss
  | cons f fs ih =>
    rw [List.map_cons, List.cons_append, stageBehind_cons]
    cases stage with
    | opening | definitions => exact ih (by simp)
    | statements => exact absurd rfl hstage

theorem statements_of_stageBehind (h : (stageBehind .statements ps).isSome) :
    ∃ ss, ps = List.map .statement ss := by
  induction ps with
  | nil => exact ⟨[], rfl⟩
  | cons p ps ih =>
    rw [stageBehind_cons] at h
    cases p with
    | statement s =>
      obtain ⟨ss, rfl⟩ := ih h
      exact ⟨s :: ss, rfl⟩
    | imports is | function f => cases h

theorem functions_of_stageBehind (h : (stageBehind .definitions ps).isSome) :
    ∃ fs ss, ps = List.map .function fs ++ List.map .statement ss := by
  induction ps with
  | nil => exact ⟨[], [], rfl⟩
  | cons p ps ih =>
    rw [stageBehind_cons] at h
    cases p with
    | imports is => cases h
    | function f =>
      obtain ⟨fs, ss, rfl⟩ := ih h
      exact ⟨f :: fs, ss, rfl⟩
    | statement s =>
      obtain ⟨ss, rfl⟩ := statements_of_stageBehind h
      exact ⟨[], s :: ss, rfl⟩

/-- A module comes to its end with just the parts that are in order. -/
theorem ordered_iff : Ordered ps ↔ (stageBehind .opening ps).isSome := by
  constructor
  · rintro ⟨block, fs, ss, rfl⟩
    cases block with
    | none => exact stageBehind_functions (by simp) fs ss
    | some is =>
      have hstage : Stage.definitions ≠ .statements := by simp
      simpa [arranged, stageBehind_cons, Part.next] using stageBehind_functions hstage fs ss
  · intro h
    cases ps with
    | nil => exact ⟨none, [], [], rfl⟩
    | cons p ps =>
      rw [stageBehind_cons] at h
      cases p with
      | imports is =>
        obtain ⟨fs, ss, rfl⟩ := functions_of_stageBehind h
        exact ⟨some is, fs, ss, rfl⟩
      | function f =>
        obtain ⟨fs, ss, rfl⟩ := functions_of_stageBehind h
        exact ⟨none, f :: fs, ss, rfl⟩
      | statement s =>
        obtain ⟨ss, rfl⟩ := statements_of_stageBehind h
        exact ⟨none, [], s :: ss, rfl⟩

/-- Parts that are out of order are so from a first one on. -/
theorem stageBehind_eq_none (h : stageBehind stage ps = none) :
    ∃ front p back stage', ps = front ++ p :: back ∧ stageBehind stage front = some stage' ∧
      p.next stage' = none := by
  induction ps generalizing stage with
  | nil => cases h
  | cons p ps ih =>
    rw [stageBehind_cons] at h
    cases hp : p.next stage with
    | none => exact ⟨[], p, ps, stage, rfl, rfl, hp⟩
    | some mid =>
      rw [hp] at h
      obtain ⟨front, q, back, last, rfl, hfront, hq⟩ := ih h
      refine ⟨p :: front, q, back, last, rfl, ?_, hq⟩
      rw [stageBehind_cons, hp]
      exact hfront

end Order

structure Entry where
  part : Part
  tokens : List Token
  spelled : part.Spelled tokens

/-- The entries one behind the other, with newlines between each two of them, and the end. -/
inductive Joined : List Entry → List Token → Prop where
  | nil {last} : last.lexeme = .endOfInput → Joined [] [last]
  | cons {x xs gap ts} : (∀ t ∈ gap, t.lexeme = .newline) → (gap = [] → xs = []) →
      Joined xs ts → Joined (x :: xs) (x.tokens ++ gap ++ ts)

section Reading

variable {n : Nat} {ends : Option Span} {stage stage' : Stage} {p : Part} {x : Entry}
  {xs front back : List Entry} {gap ts us : List Token}

def Part.Opens (w : Token) : Part → Prop
  | .imports _ => w.lexeme = .keyword .importing
  | .function _ => w.lexeme = .keyword .function
  | .statement _ => w.lexeme.opensStatement

theorem Part.Spelled.first (h : p.Spelled ts) : ∃ w us, ts = w :: us ∧ p.Opens w := by
  cases p with
  | imports is =>
    obtain ⟨w, us, rfl, hw, -⟩ := h
    exact ⟨w, us, rfl, hw⟩
  | function f =>
    obtain ⟨w, us, rfl, hw, -⟩ := h
    exact ⟨w, us, rfl, hw⟩
  | statement s =>
    obtain ⟨last, hlast, hitem⟩ := h
    cases ts with
    | nil =>
      have hopens : last.lexeme.opensStatement := item_first hitem
      simp [hlast, Lexeme.opensStatement, Lexeme.opensExpression] at hopens
    | cons w us => exact ⟨w, us, rfl, item_first hitem⟩

theorem Part.Opens.noElse {w : Token} (h : p.Opens w) (ts : List Token) : NoElse (w :: ts) := by
  cases p with
  | imports is =>
    rw [Opens] at h
    exact noElse_cons (by simp [h]) (by simp [h]) ts
  | function f =>
    rw [Opens] at h
    exact noElse_cons (by simp [h]) (by simp [h]) ts
  | statement s =>
    exact noElse_cons (Lexeme.ne_of_opensStatement h rfl) (Lexeme.ne_of_opensStatement h rfl) ts

theorem Joined.noElse (h : Joined xs ts) : NoElse ts := by
  cases h with
  | nil hlast => exact noElse_cons (by simp [hlast]) (by simp [hlast]) []
  | @cons x =>
    obtain ⟨w, us, hw, hopens⟩ := x.spelled.first
    rw [hw]
    exact hopens.noElse _

theorem noElse_gap (hgap : ∀ t ∈ gap, t.lexeme = .newline) (h : NoElse ts) :
    NoElse (gap ++ ts) := by
  induction gap with
  | nil => exact h
  | cons t gap ih =>
    obtain ⟨ht, hgap⟩ := List.forall_mem_cons.1 hgap
    exact noElse_cons_newline ht (ih hgap)

theorem contents_gap (hgap : ∀ t ∈ gap, t.lexeme = .newline) :
    contents (n + gap.length) stage ends (gap ++ ts) = contents n stage ends ts := by
  induction gap with
  | nil => rfl
  | cons t gap ih =>
    obtain ⟨ht, hgap⟩ := List.forall_mem_cons.1 hgap
    exact (contents_newline ht).trans (ih hgap)

/-- A statement that is read on its own is read in front of what follows, with the newline that ends
it or without. -/
theorem statement_in_front {s : Statement} (hs : (Part.statement s).Spelled us)
    (hgap : ∀ t ∈ gap, t.lexeme = .newline) (hsome : gap = [] → xs = []) (h : Joined xs ts)
    (ends : Option Span) :
    ∃ gap', (∀ t ∈ gap', t.lexeme = .newline) ∧ gap'.length ≤ gap.length ∧
      item ends (us ++ (gap ++ ts)) = .ok s (gap' ++ ts) := by
  obtain ⟨last, hlast, hitem⟩ := hs
  have hno : NoElse [last] := noElse_cons (by simp [hlast]) (by simp [hlast]) []
  cases gap with
  | nil =>
    obtain rfl := hsome rfl
    cases h with
    | @nil last' hlast' =>
      have honward : Onward [last] [last'] :=
        ⟨fun _ => noElse_cons (by simp [hlast']) (by simp [hlast']) [],
          fun _ => ⟨last', rfl, .inr hlast'⟩⟩
      exact ⟨[], by simp, Nat.le_refl _, item_local.carries hitem (Nat.le_refl _) honward⟩
  | cons t gap =>
    obtain ⟨ht, hgap'⟩ := List.forall_mem_cons.1 hgap
    obtain ⟨left, hleft, hread⟩ :=
      item_newline hitem ht (fun _ => noElse_gap hgap' h.noElse) ends
    rcases hleft with rfl | rfl
    · exact ⟨gap, hgap', Nat.le_succ _, hread⟩
    · exact ⟨t :: gap, hgap, Nat.le_refl _, hread⟩

/-- A part where it may stand takes one round and, with the newlines behind it, its tokens. -/
theorem contents_entry (hx : x.part.next stage = some stage')
    (hgap : ∀ t ∈ gap, t.lexeme = .newline) (hsome : gap = [] → xs = []) (h : Joined xs ts)
    (hn : (x.tokens ++ gap ++ ts).length ≤ n) (ends : Option Span) :
    ∃ m, ts.length ≤ m ∧ contents n stage ends (x.tokens ++ gap ++ ts) =
      (contents m stage' >>= fun c => pure (x.part.addTo c)) ends ts := by
  have behind : ∀ {k} {gap' : List Token} (f : Contents → Contents),
      (∀ t ∈ gap', t.lexeme = .newline) → (gap' ++ ts).length ≤ k →
      ∃ m, ts.length ≤ m ∧ (contents k stage' >>= fun c => pure (f c)) ends (gap' ++ ts) =
        (contents m stage' >>= fun c => pure (f c)) ends ts := by
    intro k gap' f hgap' hk
    rw [List.length_append] at hk
    obtain ⟨m, rfl⟩ : ∃ m, k = m + gap'.length := ⟨k - gap'.length, by omega⟩
    refine ⟨m, by omega, ?_⟩
    rw [bind_apply, bind_apply, contents_gap hgap']
  obtain ⟨part, tokens, spelled⟩ := x
  change part.next stage = some stage' at hx
  cases part with
  | imports is =>
    obtain ⟨w, us, rfl, hw, hrun⟩ := spelled
    obtain rfl : stage = .opening := by
      cases stage with
      | opening => rfl
      | definitions | statements => cases hx
    cases hx
    simp only [List.append_assoc, List.cons_append, List.length_cons] at hn ⊢
    obtain ⟨n, rfl⟩ : ∃ k, n = k + 1 := ⟨n - 1, by omega⟩
    have hread : imports ends (us ++ (gap ++ ts)) = .ok is (gap ++ ts) := by
      have hown : imports (Token.endOf us) (us ++ []) = .ok is [] := by
        rw [List.append_nil]
        exact hrun
      exact imports_local.carries hown (Nat.le_refl _) trivial
    rw [contents_imports_then hw hread]
    exact behind _ hgap (by simp at hn ⊢; omega)
  | function f =>
    obtain ⟨w, us, rfl, hw, hrun⟩ := spelled
    have hstage : stage ≠ .statements := by
      rintro rfl
      cases hx
    obtain rfl : stage' = .definitions := by
      cases stage with
      | opening | definitions =>
        cases hx
        rfl
      | statements => cases hx
    simp only [List.append_assoc, List.cons_append, List.length_cons] at hn ⊢
    obtain ⟨n, rfl⟩ : ∃ k, n = k + 1 := ⟨n - 1, by omega⟩
    have hread : function ends (us ++ (gap ++ ts)) = .ok f (gap ++ ts) := by
      have hown : function (Token.endOf us) (us ++ []) = .ok f [] := by
        rw [List.append_nil]
        exact hrun
      exact function_local.carries hown (Nat.le_refl _) trivial
    rw [contents_function_then hw hstage hread]
    exact behind _ hgap (by simp at hn ⊢; omega)
  | statement s =>
    obtain rfl : stage' = .statements := by
      cases stage <;> cases hx <;> rfl
    obtain ⟨w, us, rfl, hopens⟩ := Part.Spelled.first spelled
    obtain ⟨gap', hgap', hlength, hread⟩ := statement_in_front spelled hgap hsome h ends
    simp only [List.append_assoc, List.cons_append, List.length_cons] at hn hread ⊢
    obtain ⟨n, rfl⟩ : ∃ k, n = k + 1 := ⟨n - 1, by omega⟩
    rw [contents_item_then hopens hread]
    exact behind _ hgap' (by simp at hn ⊢; omega)

theorem contents_joined (h : Joined xs ts)
    (hxs : (stageBehind stage (xs.map Entry.part)).isSome) (hn : ts.length ≤ n) :
    contents n stage ends ts = .ok ((xs.map Entry.part).foldr Part.addTo {}) [] := by
  induction h generalizing stage n with
  | nil hlast =>
    obtain ⟨n, rfl⟩ : ∃ k, n = k + 1 := ⟨n - 1, by simp at hn; omega⟩
    exact contents_end hlast
  | @cons x xs gap ts hgap hsome h ih =>
    rw [List.map_cons, stageBehind_cons] at hxs
    cases hx : x.part.next stage with
    | none =>
      rw [hx] at hxs
      cases hxs
    | some stage' =>
      rw [hx] at hxs
      obtain ⟨m, hm, hround⟩ := contents_entry hx hgap hsome h hn ends
      rw [hround, bind_of_ok (ih hxs hm)]
      rfl

/-- A part that may not stand where it is is refused at its first word. -/
theorem contents_misplaced (hx : x.part.next stage = none) :
    ∃ w, x.tokens.head? = some w ∧
      (w.lexeme = .keyword .importing ∨ w.lexeme = .keyword .function) ∧
      ∀ n ends us, ∃ e left, contents (n + 1) stage ends (x.tokens ++ us) = .error e left ∧
        e.phase = .syntactic ∧ e.token = some w := by
  obtain ⟨part, tokens, spelled⟩ := x
  change part.next stage = none at hx
  cases part with
  | imports is =>
    obtain ⟨w, us, rfl, hw, -⟩ := spelled
    have hstage : stage ≠ .opening := by
      rintro rfl
      cases hx
    refine ⟨w, rfl, .inl hw, fun n ends vs =>
      ⟨.syntactic .misplacedImports ends (some w), w :: us ++ vs, ?_, rfl, rfl⟩⟩
    rw [contents, bind_of_ok current_apply]
    simp only [List.cons_append, List.head?_cons, Option.map_some, hw, hstage, if_false]
    rfl
  | function f =>
    obtain ⟨w, us, rfl, hw, -⟩ := spelled
    obtain rfl : stage = .statements := by
      cases stage with
      | opening | definitions => cases hx
      | statements => rfl
    refine ⟨w, rfl, .inr hw, fun n ends vs =>
      ⟨.syntactic .misplacedFunction ends (some w), w :: us ++ vs, ?_, rfl, rfl⟩⟩
    rw [contents, bind_of_ok current_apply]
    simp only [List.cons_append, List.head?_cons, Option.map_some, hw, if_true]
    rfl
  | statement s => cases stage <;> cases hx

/-- By induction on the parts in front, which may stand where they are. -/
theorem contents_refused (h : Joined (front ++ x :: back) ts)
    (hfront : stageBehind stage (front.map Entry.part) = some stage')
    (hx : x.part.next stage' = none) (hn : ts.length ≤ n) :
    ∃ w e left, x.tokens.head? = some w ∧
      (w.lexeme = .keyword .importing ∨ w.lexeme = .keyword .function) ∧
      contents n stage ends ts = .error e left ∧ e.phase = .syntactic ∧ e.token = some w := by
  induction front generalizing stage ts n with
  | nil =>
    cases hfront
    cases h with
    | cons _ _ _ =>
      obtain ⟨w, hw, hword, hrefused⟩ := contents_misplaced hx
      obtain ⟨v, us, hv, -⟩ := x.spelled.first
      obtain ⟨n, rfl⟩ : ∃ k, n = k + 1 := ⟨n - 1, by simp [hv] at hn; omega⟩
      obtain ⟨e, left, herror, hphase, htoken⟩ := hrefused n ends _
      rw [List.append_assoc]
      exact ⟨w, e, left, hw, hword, herror, hphase, htoken⟩
  | cons y front ih =>
    rw [List.map_cons, stageBehind_cons] at hfront
    cases hy : y.part.next stage with
    | none =>
      rw [hy] at hfront
      cases hfront
    | some mid =>
      rw [hy] at hfront
      cases h with
      | cons hgap hsome h =>
        obtain ⟨m, hm, hround⟩ := contents_entry hy hgap hsome h hn ends
        obtain ⟨w, e, left, hw, hword, herror, hphase, htoken⟩ := ih h hfront hm
        refine ⟨w, e, left, hw, hword, ?_, hphase, htoken⟩
        rw [hround, bind_apply, herror]

end Reading

section Modules

variable {xs : List Entry} {ts : List Token}

theorem addTo_statements (c : Contents) (ss : List Statement) :
    (ss.map Part.statement).foldr Part.addTo c =
      { c with statements := ss ++ c.statements } := by
  induction ss with
  | nil => rfl
  | cons s ss ih => simp [ih, Part.addTo]

theorem addTo_functions (c : Contents) (fs : List Function) :
    (fs.map Part.function).foldr Part.addTo c =
      { c with functions := fs ++ c.functions } := by
  induction fs with
  | nil => rfl
  | cons f fs ih => simp [ih, Part.addTo]

theorem addTo_arranged (block : Option (List Import)) (fs : List Function) (ss : List Statement) :
    (arranged block fs ss).foldr Part.addTo {} = ⟨block.getD [], fs, ss⟩ := by
  cases block <;> simp [arranged, addTo_statements, addTo_functions, Part.addTo]

/-- Parts one behind the other are a module just if they are in order, and then they are its imports,
its functions and its statements in the order they are written in. The first part that is out of
order is refused at its first word, which is `using` or `fun`. -/
theorem parseTokens_joined (h : Joined xs ts) (name : String) :
    ((∃ m, parseTokens ts name = .ok m) ↔ Ordered (xs.map Entry.part)) ∧
    (∀ block fs ss, xs.map Entry.part = arranged block fs ss →
      parseTokens ts name = .ok ⟨.simple name, block.getD [], fs, ss⟩) ∧
    (¬Ordered (xs.map Entry.part) → ∃ front x back w e, xs = front ++ x :: back ∧
      Ordered (front.map Entry.part) ∧ ¬Ordered ((front ++ [x]).map Entry.part) ∧
      x.tokens.head? = some w ∧
      (w.lexeme = .keyword .importing ∨ w.lexeme = .keyword .function) ∧
      parseTokens ts name = .error e ∧ e.phase = .syntactic ∧ e.token = some w) := by
  have accepted : ∀ block fs ss, xs.map Entry.part = arranged block fs ss →
      parseTokens ts name = .ok ⟨.simple name, block.getD [], fs, ss⟩ := by
    intro block fs ss hxs
    have hsome := ordered_iff.1 ⟨block, fs, ss, hxs⟩
    have hread : contents ts.length .opening (Token.endOf ts) ts = _ :=
      contents_joined h hsome (Nat.le_refl _)
    rw [hxs, addTo_arranged] at hread
    exact parseTokens_eq_ok.2 ⟨_, _, hread, rfl⟩
  have refused : ¬Ordered (xs.map Entry.part) → ∃ front x back w e, xs = front ++ x :: back ∧
      Ordered (front.map Entry.part) ∧ ¬Ordered ((front ++ [x]).map Entry.part) ∧
      x.tokens.head? = some w ∧
      (w.lexeme = .keyword .importing ∨ w.lexeme = .keyword .function) ∧
      parseTokens ts name = .error e ∧ e.phase = .syntactic ∧ e.token = some w := by
    intro hnot
    have hnone : stageBehind .opening (xs.map Entry.part) = none := by
      rw [ordered_iff, Option.not_isSome_iff_eq_none] at hnot
      exact hnot
    obtain ⟨ps, p, qs, stage, hsplit, hfront, hp⟩ := stageBehind_eq_none hnone
    obtain ⟨front, ys, rfl, rfl, hys⟩ := List.map_eq_append_iff.1 hsplit
    obtain ⟨x, back, rfl, rfl, rfl⟩ := List.map_eq_cons_iff.1 hys
    obtain ⟨w, e, left, hw, hword, herror, hphase, htoken⟩ :=
      @contents_refused _ (Token.endOf ts) _ _ _ _ _ _ h hfront hp (Nat.le_refl _)
    refine ⟨front, x, back, w, e, rfl, ?_, ?_, hw, hword, parseTokens_eq_error herror, hphase,
      htoken⟩
    · rw [ordered_iff, hfront]
      rfl
    · rw [ordered_iff, List.map_append, stageBehind_append, hfront]
      simp [stageBehind_cons, hp]
  refine ⟨⟨fun ⟨m, hm⟩ => ?_, ?_⟩, accepted, refused⟩
  · by_contra hnot
    obtain ⟨-, -, -, -, e, -, -, -, -, -, herror, -⟩ := refused hnot
    rw [hm] at herror
    cases herror
  · rintro ⟨block, fs, ss, hxs⟩
    exact ⟨_, accepted block fs ss hxs⟩

def emptyBlock (line : Int) : Entry where
  part := .imports []
  tokens := [.plain (.keyword .importing) (some ⟨"m", line, 1, line, 5⟩),
    .plain (.symbol .lbrace) none, .plain (.symbol .rbrace) none]
  spelled := ⟨_, _, rfl, rfl, rfl⟩

/-- An empty block is a block: a second one is refused. -/
theorem parseTokens_joined_blocks :
    parseTokens ((emptyBlock 1).tokens ++ [.plain .endOfInput none]) "main" =
      .ok ⟨.simple "main", [], [], []⟩ ∧
    ∃ e, parseTokens ((emptyBlock 1).tokens ++ [.plain .newline none] ++
        ((emptyBlock 2).tokens ++ [.plain .endOfInput none])) "main" = .error e ∧
      e.phase = .syntactic ∧ e.token = (emptyBlock 2).tokens.head? := by
  have hlast : Joined [] [.plain .endOfInput none] := .nil rfl
  have hone : ∀ line, Joined [emptyBlock line]
      ((emptyBlock line).tokens ++ [] ++ [.plain .endOfInput none]) :=
    fun line => .cons (List.forall_mem_nil _) (fun _ => rfl) hlast
  have htwo : Joined [emptyBlock 1, emptyBlock 2] ((emptyBlock 1).tokens ++ [.plain .newline none] ++
      ((emptyBlock 2).tokens ++ [] ++ [.plain .endOfInput none])) :=
    .cons (List.forall_mem_singleton.2 rfl) nofun (hone 2)
  have hnot : ¬Ordered ([emptyBlock 1, emptyBlock 2].map Entry.part) := by
    rw [ordered_iff]
    exact Bool.false_ne_true
  refine ⟨(parseTokens_joined (hone 1) "main").2.1 (some []) [] [] rfl, ?_⟩
  obtain ⟨front, x, back, w, e, hsplit, -, hbreaks, hw, -, herror, hphase, htoken⟩ :=
    (parseTokens_joined htwo "main").2.2 hnot
  refine ⟨e, herror, hphase, htoken.trans (hw.symm.trans ?_)⟩
  -- the first block alone is in order, so that the second one is the one refused
  rcases front with _ | ⟨y, _ | ⟨z, front⟩⟩
  · obtain ⟨rfl, -⟩ := List.cons.inj hsplit
    exact absurd ⟨some [], [], [], rfl⟩ hbreaks
  · obtain ⟨-, hrest⟩ := List.cons.inj hsplit
    obtain ⟨rfl, -⟩ := List.cons.inj hrest
    rfl
  · simp at hsplit

end Modules

end Pasture.Grammar
