import Pasture.Proofs.Grammar.Cursor
import Pasture.Proofs.Grammar.StatementRecursion

/-! # Walks of a cursor

Whatever is asked of a cursor, it never goes back and never leaves its stream, also when it is
refused. A single step that is refused does not move it at all. A parser that succeeds moves it, but
for the cut of a statement, which may keep nothing.
-/
namespace Pasture

namespace Entry

def least : Entry → Nat
  | statementTokens => 0
  | _ => 1

theorem parser_advances (e : Entry) : Grammar.Advances e.least e.parser := by
  cases e with
  | atom => exact Grammar.atom_advances
  | expression => exact Grammar.expression_advances
  | statement => exact Grammar.statement_advances
  | item => exact Grammar.item_advances
  | block => exact Grammar.block_advances
  | branch => exact Grammar.branch_advances
  | loop => exact Grammar.loop_advances
  | function => exact Grammar.function_advances
  | imports => exact Grammar.imports_advances
  | moduleNamed name => exact Grammar.moduleNamed_advances name
  | statementTokens => exact Grammar.statementTokens_advances

end Entry

namespace Step

/-- A step that is refused, or that finds none of the operators it asks for. -/
def Refused : (s : Step) → Except Refusal s.Answer → Prop
  | operatorIn _, answer => answer = .ok none
  | _, answer => ∃ e, answer = .error e

/-- Whether a step is a parser, and one that does not succeed without a token. -/
def Consumes : Step → Prop
  | parse e => e.least = 1
  | _ => False

end Step

structure Step.Moves (s : Step) (c : Cursor) : Prop where
  tokens : (c.step s).2.tokens = c.tokens
  forward : c.position ≤ (c.step s).2.position
  inside : (c.step s).2.position ≤ c.tokens.length
  stays : (∀ e, s ≠ .parse e) → s.Refused (c.step s).1 → (c.step s).2 = c
  consumes : s.Consumes → ∀ a, (c.step s).1 = .ok a → c.position < (c.step s).2.position

namespace Cursor

variable {α : Type} {c : Cursor} {p : Parser α} {d : Nat}

theorem length_rest (c : Cursor) : c.rest.length = c.tokens.length - c.position :=
  List.length_drop

/-- Where a parser leaves a part at the back of the rest, the cursor is in front of that part. -/
theorem run_moves (hp : Grammar.Advances d p) (hc : c.position ≤ c.tokens.length) :
    (c.run p).2.tokens = c.tokens ∧ c.position ≤ (c.run p).2.position ∧
      (c.run p).2.position ≤ c.tokens.length ∧
      ∀ a, (c.run p).1 = .ok a → c.position + d ≤ (c.run p).2.position := by
  have hrest := c.length_rest
  unfold run
  cases h : p (Token.endOf c.tokens) c.rest with
  | ok a left =>
    have hleft := hp.length_le h
    refine ⟨rfl, ?_, Nat.sub_le .., fun b _ => ?_⟩
    · show c.position ≤ c.tokens.length - left.length
      omega
    · show c.position + d ≤ c.tokens.length - left.length
      omega
  | error e left =>
    have hleft := (hp.leaves h).length_le
    refine ⟨rfl, ?_, Nat.sub_le .., nofun⟩
    show c.position ≤ c.tokens.length - left.length
    omega

/-- A parser that leaves its stream as it was leaves the cursor where it was. -/
theorem run_stays (hc : c.position ≤ c.tokens.length)
    (h : (∃ a, p (Token.endOf c.tokens) c.rest = .ok a c.rest) ∨
      ∃ e, p (Token.endOf c.tokens) c.rest = .error e c.rest) : (c.run p).2 = c := by
  have hrest := c.length_rest
  have hplace : c.tokens.length - c.rest.length = c.position := by omega
  rcases h with ⟨a, h⟩ | ⟨e, h⟩ <;> simp only [run, h, hplace]

/-- Whoever is refused takes nothing. -/
theorem refused_stays (hc : c.position ≤ c.tokens.length)
    (hp : ∀ {ends ts e left}, p ends ts = .error e left → left = ts)
    (h : ∃ e, (c.run p).1 = .error e) : (c.run p).2 = c := by
  obtain ⟨e, h⟩ := h
  unfold run at h
  cases hrun : p (Token.endOf c.tokens) c.rest with
  | ok a left =>
    rw [hrun] at h
    cases h
  | error e left =>
    obtain rfl := hp hrun
    exact run_stays hc (.inr ⟨e, hrun⟩)

theorem answer_eq_ok {a : α} : (c.answer p).1 = .ok a ↔ (c.run p).1 = .ok a := by
  simp only [answer]
  cases (c.run p).1 <;> simp [Except.mapError]

theorem answer_eq_error {why : Step.Refusal} :
    (c.answer p).1 = .error why ↔ ∃ e, (c.run p).1 = .error e ∧ why = .rejected e := by
  simp only [answer]
  cases (c.run p).1 <;> simp [Except.mapError, eq_comm]

theorem moves_of_answer {s : Step} {p : Parser s.Answer} (hc : c.position ≤ c.tokens.length)
    (hs : c.step s = c.answer p) (hp : Grammar.Advances d p) (hd : s.Consumes → d = 1)
    (hstays : (∀ e, s ≠ .parse e) → s.Refused (c.answer p).1 → (c.run p).2 = c) : s.Moves c := by
  obtain ⟨htokens, hforward, hinside, htakes⟩ := run_moves hp hc
  have hstop : (c.step s).2 = (c.run p).2 := by
    rw [hs]
    rfl
  rw [← hstop] at htokens hforward hinside htakes hstays
  rw [← hs] at hstays
  refine ⟨htokens, hforward, hinside, hstays, fun hconsumes a ha => ?_⟩
  rw [hs, answer_eq_ok] at ha
  have hleast := htakes a ha
  rwa [hd hconsumes] at hleast

/-- A single step that takes nothing where it is refused. -/
theorem moves_of_kept {s : Step} {p : Parser s.Answer} (hc : c.position ≤ c.tokens.length)
    (hs : c.step s = c.answer p) (hp : Grammar.Advances d p) (hno : ¬s.Consumes)
    (herror : s.Refused (c.answer p).1 → ∃ why, (c.answer p).1 = .error why)
    (hkept : ∀ {ends ts e left}, p ends ts = .error e left → left = ts) : s.Moves c := by
  refine moves_of_answer hc hs hp (absurd · hno) fun _ hrefused => ?_
  obtain ⟨why, hwhy⟩ := herror hrefused
  obtain ⟨e, he, -⟩ := answer_eq_error.1 hwhy
  exact refused_stays hc hkept ⟨e, he⟩

theorem step_moves (hc : c.position ≤ c.tokens.length) (s : Step) : s.Moves c := by
  cases s with
  | current => exact moves_of_kept hc rfl Grammar.current_advances id id nofun
  | peek offset => exact ⟨rfl, Nat.le_refl _, hc, fun _ _ => rfl, nofun⟩
  | sees k => exact moves_of_kept hc rfl (Grammar.sees_advances k) id id nofun
  | seesAny ks => exact moves_of_kept hc rfl (Grammar.seesAny_advances ks) id id nofun
  | atEnd => exact moves_of_kept hc rfl Grammar.atEnd_advances id id nofun
  | exhausted => exact moves_of_kept hc rfl Grammar.exhausted_advances id id nofun
  | operatorIn ops =>
    -- no error is raised, but no operator may be found either
    refine moves_of_answer hc rfl (Grammar.operatorIn_advances ops) nofun fun _ hnone => ?_
    obtain ⟨left, hp⟩ := ok_of_run (Prod.ext (answer_eq_ok.1 hnone) rfl)
    obtain ⟨rfl, -⟩ := Parser.operatorIn_eq_none.1 hp
    exact run_stays hc (.inl ⟨none, hp⟩)
  | advance => exact moves_of_kept hc rfl Grammar.advance_advances id id Grammar.advance_refused
  | take k complaint =>
    exact moves_of_kept hc rfl (Grammar.take_advances k complaint) id id Grammar.take_refused
  | skipNewlines => exact moves_of_kept hc rfl Grammar.skipNewlines_advances id id nofun
  | fail complaint found suggestions =>
    cases found with
    | none =>
      refine moves_of_kept (d := 0) hc rfl (Grammar.fail_advances complaint suggestions) id id ?_
      rintro ends ts _ _ ⟨⟩
      rfl
    | some t =>
      refine moves_of_kept (d := 0) hc rfl
        (Grammar.refuse_advances (some t) complaint suggestions) id id ?_
      rintro ends ts _ _ ⟨⟩
      rfl
  | parse e => exact moves_of_answer hc rfl e.parser_advances id fun hno => absurd rfl (hno e)

theorem walk_inside (hc : c.position ≤ c.tokens.length) (steps : List Step) :
    (c.walk steps).tokens = c.tokens ∧ c.position ≤ (c.walk steps).position ∧
      (c.walk steps).position ≤ c.tokens.length := by
  induction steps generalizing c with
  | nil => exact ⟨rfl, Nat.le_refl _, hc⟩
  | cons s steps ih =>
    have hmoves := step_moves hc s
    have hinside : (c.step s).2.position ≤ (c.step s).2.tokens.length := by
      rw [hmoves.tokens]
      exact hmoves.inside
    obtain ⟨htokens, hforward, hlast⟩ := ih hinside
    rw [hmoves.tokens] at htokens hlast
    exact ⟨htokens, Nat.le_trans hmoves.forward hforward, hlast⟩

/-- On its way through a stream a cursor never goes back and never leaves the stream. So the grammar
comes to an end on every stream. -/
theorem walk_progress (tokens : List Token) (steps : List Step) :
    let c := ({ tokens } : Cursor).walk steps
    c.tokens = tokens ∧ c.position ≤ tokens.length ∧ (∀ s, Step.Moves s c) ∧
      (∀ more, c.position ≤ (c.walk more).position) ∧ Grammar.GrammarTerminates := by
  intro c
  obtain ⟨htokens, -, hinside⟩ := walk_inside (c := { tokens }) (Nat.zero_le _) steps
  have hc : c.position ≤ c.tokens.length := by
    rw [htokens]
    exact hinside
  exact ⟨htokens, hinside, step_moves hc, fun more => (walk_inside hc more).2.1,
    Grammar.grammarTerminates⟩

/-- A statement that is refused has been taken nevertheless, and a brace that is missed has not. -/
theorem walk_progress_refused :
    let tokens := [.newline, .identifier (.simple "a"), .operator .plus, .newline,
      .identifier (.simple "b"), .newline].map (Token.plain · none)
    let c := ({ tokens } : Cursor).walk [.skipNewlines, .parse .statement]
    let brace := Step.take (.symbol .rbrace) (.expected .blockClose)
    c.position = 4 ∧ (∃ e, (c.step brace).1 = .error e) ∧ (c.step brace).2 = c ∧
      (∃ s, (c.step (.parse .statement)).1 = .ok s) ∧
      c.position < (c.step (.parse .statement)).2.position := by
  intro tokens c brace
  obtain ⟨-, -, hmoves, -, -⟩ := walk_progress tokens [.skipNewlines, .parse .statement]
  have hmissed : ∃ e, (c.step brace).1 = .error e := ⟨_, rfl⟩
  have hfound : (c.step (.parse .statement)).1 = .ok (.expression (.name (.simple "b"))) := rfl
  exact ⟨rfl, hmissed, (hmoves brace).stays nofun hmissed, ⟨_, hfound⟩,
    (hmoves (.parse .statement)).consumes rfl _ hfound⟩

end Cursor
end Pasture
