import Mathlib.Logic.Function.Iterate
import Pasture.Proofs.Grammar.Steps

/-! # Progress of parsers

A parser never steps back: whatever comes of it, it leaves a part at the back of its stream. The
loops and recursions of the grammar go on behind a token that they have taken. So what a round of
them does depends on what the later rounds would do with shorter streams only, and no stream has
more rounds than tokens.
-/
namespace Pasture.Grammar

open Pasture.Parser

variable {α β ι : Type} {c d n k m : Nat} {p q : Parser α}

/-- Whatever comes of the parser, it leaves a part at the back of its stream. A success has taken
`d` tokens at least. -/
structure Advances {α : Type} (d : Nat) (p : Parser α) : Prop where
  takes : ∀ {ends ts a rest}, p ends ts = .ok a rest → ∃ read, ts = read ++ rest ∧ d ≤ read.length
  leaves : ∀ {ends ts e rest}, p ends ts = .error e rest → rest <:+ ts

/-- On streams of fewer than `n` tokens `p` does what `q` does, and `q` advances. -/
structure Coincides {α : Type} (d n : Nat) (p q : Parser α) : Prop extends Advances d q where
  same : ∀ {ends ts}, ts.length < n → p ends ts = q ends ts

namespace Advances

theorem length_le (h : Advances d p) {ends : Option Span} {ts rest : List Token} {a : α}
    (hp : p ends ts = .ok a rest) : rest.length + d ≤ ts.length := by
  obtain ⟨read, rfl, hread⟩ := h.takes hp
  rw [List.length_append]
  omega

theorem weaken (hc : c ≤ d) (h : Advances d p) : Advances c p := by
  refine ⟨fun hp => ?_, h.leaves⟩
  obtain ⟨read, hts, hread⟩ := h.takes hp
  exact ⟨read, hts, Nat.le_trans hc hread⟩

theorem eased (h : Advances 1 p) : Advances 0 p := h.weaken (Nat.zero_le 1)

/-- What takes a token fails where there is none. -/
theorem fails_empty (h : Advances 1 p) (ends : Option Span) : ∃ e, p ends [] = .error e [] := by
  cases hp : p ends [] with
  | ok a rest =>
    have := h.length_le hp
    simp at this
  | error e rest =>
    obtain rfl := List.eq_nil_of_suffix_nil (h.leaves hp)
    exact ⟨e, rfl⟩

theorem ite {b : Prop} [Decidable b] (hp : Advances d p) (hq : Advances d q) :
    Advances d (if b then p else q) := by
  split
  · exact hp
  · exact hq

theorem coincides (h : Advances d p) : Coincides d n p p := ⟨h, fun _ => rfl⟩

end Advances

namespace Coincides

theorem mono (hm : m ≤ n) (h : Coincides d n p q) : Coincides d m p q :=
  ⟨h.toAdvances, fun hts => h.same (Nat.lt_of_lt_of_le hts hm)⟩

theorem weaken (hc : c ≤ d) (h : Coincides d n p q) : Coincides c n p q :=
  ⟨h.toAdvances.weaken hc, h.same⟩

theorem eased (h : Coincides 1 n p q) : Coincides 0 n p q := h.weaken (Nat.zero_le 1)

/-- One parser after another. What is left to take and to go on with depends on what the first has
taken. -/
theorem follow {f g : α → Parser β} (hp : Coincides 0 n p q)
    (h : ∀ {ends ts a mid}, q ends ts = .ok a mid → ∃ read, ts = read ++ mid ∧
      Coincides (d - read.length) (n - read.length) (f a) (g a)) :
    Coincides d n (p >>= f) (q >>= g) := by
  refine ⟨⟨fun {ends ts b rest} hb => ?_, fun {ends ts e rest} he => ?_⟩, fun {ends ts} hts => ?_⟩
  · obtain ⟨a, mid, hqa, hga⟩ := bind_eq_ok.1 hb
    obtain ⟨read, rfl, hf⟩ := h hqa
    obtain ⟨more, rfl, hmore⟩ := hf.takes hga
    exact ⟨read ++ more, by simp, by rw [List.length_append]; omega⟩
  · rw [bind_apply] at he
    cases hqa : q ends ts with
    | ok a mid =>
      rw [hqa] at he
      obtain ⟨read, rfl, hf⟩ := h hqa
      exact (hf.leaves he).trans (List.suffix_append read mid)
    | error e' mid =>
      rw [hqa] at he
      cases he
      exact hp.leaves hqa
  · rw [bind_apply, bind_apply, hp.same hts]
    cases hqa : q ends ts with
    | ok a mid =>
      obtain ⟨read, rfl, hf⟩ := h hqa
      rw [List.length_append] at hts
      exact hf.same (by omega)
    | error e mid => rfl

theorem bind_of {f g : α → Parser β} (hp : Coincides c n p q)
    (hf : ∀ a, Coincides d (n - c) (f a) (g a)) : Coincides (c + d) n (p >>= f) (q >>= g) := by
  refine (hp.weaken (Nat.zero_le c)).follow fun {ends ts a mid} hq => ?_
  obtain ⟨read, hts, hread⟩ := hp.takes hq
  exact ⟨read, hts, ((hf a).weaken (by omega)).mono (by omega)⟩

theorem bind {f g : α → Parser β} (hp : Coincides 0 n p q)
    (hf : ∀ a, Coincides d n (f a) (g a)) : Coincides d n (p >>= f) (q >>= g) :=
  (hp.bind_of hf).weaken (Nat.le_add_left d 0)

theorem next {f g : α → Parser β} (hp : Coincides 1 n p q)
    (hf : ∀ a, Coincides 0 (n - 1) (f a) (g a)) : Coincides 1 n (p >>= f) (q >>= g) :=
  hp.bind_of hf

theorem ite {p' q' : Parser α} {b : Prop} [Decidable b] (h : Coincides d n p q)
    (h' : Coincides d n p' q') : Coincides d n (if b then p else p') (if b then q else q') := by
  split
  · exact h
  · exact h'

theorem eq_of_forall (h : ∀ n, Coincides d n p q) : p = q := by
  funext ends ts
  exact (h (ts.length + 1)).same (Nat.lt_succ_self _)

/-- A loop that takes a token in every round: a bound of as many rounds as there are tokens is never
met, whatever it is. -/
theorem rounds {P Q : Nat → ι → Parser α} (hzero : ∀ i, Advances d (Q 0 i))
    (hempty : 0 < n → ∀ k m i ends, P k i ends [] = Q m i ends [])
    (hsucc : ∀ {j k m}, j ≤ n → j ≤ k + 2 → j ≤ m + 2 →
      (∀ i, Coincides d (j - 1) (P k i) (Q m i)) → ∀ i, Coincides d j (P (k + 1) i) (Q (m + 1) i))
    (hk : n ≤ k + 1) (hm : n ≤ m + 1) (i : ι) : Coincides d n (P k i) (Q m i) := by
  have all : ∀ m {j k}, j ≤ n → j ≤ k + 1 → j ≤ m + 1 → ∀ i, Coincides d j (P k i) (Q m i) := by
    intro m
    induction m with
    | zero =>
      intro j k hj _ hm i
      refine ⟨hzero i, fun {ends ts} hts => ?_⟩
      obtain rfl := List.eq_nil_of_length_eq_zero (by omega : ts.length = 0)
      exact hempty (Nat.lt_of_lt_of_le hts hj) k 0 i ends
    | succ m ih =>
      intro j k hj hk hm i
      cases k with
      | zero =>
        -- there is no round on the one side, so that the stream is empty
        have hnone := hsucc (k := 0) (Nat.zero_le n) (by omega) (by omega)
          (ih (k := 0) (Nat.zero_le n) (by omega) (by omega)) i
        refine ⟨hnone.toAdvances, fun {ends ts} hts => ?_⟩
        obtain rfl := List.eq_nil_of_length_eq_zero (by omega : ts.length = 0)
        exact hempty (Nat.lt_of_lt_of_le hts hj) 0 (m + 1) i ends
      | succ k => exact hsucc hj hk hm (ih (by omega) (by omega) (by omega)) i
  exact all m (Nat.le_refl n) hk hm i

end Coincides

namespace Advances

theorem bind {f : α → Parser β} (hp : Advances c p) (hf : ∀ a, Advances d (f a)) :
    Advances (c + d) (p >>= f) :=
  (Coincides.bind_of (n := 0) hp.coincides fun a => (hf a).coincides).toAdvances

/-- What is taken first is taken at all. -/
theorem andThen {f : α → Parser β} (hp : Advances 1 p) (hf : ∀ a, Advances 0 (f a)) :
    Advances 1 (p >>= f) :=
  hp.bind hf

end Advances

/-! ## Bounds and rounds -/

def sized (P : Nat → Parser α) : Parser α := fun ends ts => P ts.length ends ts

namespace Coincides

variable {P : Nat → Parser α}

theorem sized_left (h : ∀ {j k}, j ≤ n → j ≤ k + 1 → Coincides d j (P k) q) :
    Coincides d n (sized P) q := by
  have hnone := h (Nat.zero_le n) (Nat.zero_le (0 + 1))
  refine ⟨hnone.toAdvances, fun {ends ts} hts => ?_⟩
  exact (h (k := ts.length) hts (Nat.le_refl _)).same (Nat.lt_succ_self _)

theorem sized_right (h : ∀ {j m}, j ≤ n → j ≤ m + 1 → Coincides d j p (P m)) :
    Coincides d n p (sized P) := by
  have hown : ∀ m, Advances d (P m) := fun m => (h (Nat.zero_le n) (Nat.zero_le _)).toAdvances
  refine ⟨⟨fun {ends ts a rest} hp => ?_, fun {ends ts e rest} hp => ?_⟩, fun {ends ts} hts => ?_⟩
  · exact (hown ts.length).takes hp
  · exact (hown ts.length).leaves hp
  · exact (h (m := ts.length) hts (Nat.le_refl _)).same (Nat.lt_succ_self _)

/-- What a parser does under a bound that is long enough it does without a bound. -/
theorem sized_eq (hP : ∀ {n k m}, n ≤ k + 1 → n ≤ m + 1 → Coincides d n (P k) (P m))
    (hnext : ∀ {n k}, n ≤ k + 1 → Coincides d n (P (k + 1)) q) : sized P = q := by
  refine eq_of_forall (d := d) fun n => sized_left fun {j k} _ hk => ?_
  have hq : Coincides d j (P (k + 1)) q := hnext hk
  refine ⟨hq.toAdvances, fun hts => ?_⟩
  rw [← hq.same hts]
  exact (hP hk (Nat.le_succ_of_le hk)).same hts

end Coincides

/-- The parser `p` takes `d` tokens at least and does what a round of it does that goes on with `p`.
And it does so in finitely many rounds: with more rounds than tokens it does not matter what would
be done behind the last. -/
structure Terminates (d : Nat) (round : (ι → Parser α) → ι → Parser α) (p : ι → Parser α) :
    Prop where
  advances : ∀ i, Advances d (p i)
  unfolds : ∀ i, p i = round p i
  settles : ∀ base {k i ends ts}, ts.length < k → round^[k] base i ends ts = p i ends ts

/-- Each round goes on behind a token at least. -/
theorem Terminates.of_unfolds {round : (ι → Parser α) → ι → Parser α} {p : ι → Parser α}
    (hp : ∀ i, Advances d (p i)) (hunfolds : ∀ i, p i = round p i)
    (hround : ∀ {n f}, (∀ i, Coincides d (n - 1) (f i) (p i)) →
      ∀ i, Coincides d n (round f i) (round p i)) : Terminates d round p := by
  refine ⟨hp, hunfolds, fun base {k i ends ts} hk => ?_⟩
  have all : ∀ k i, Coincides d k (round^[k] base i) (p i) := by
    intro k
    induction k with
    | zero => exact fun i => ⟨hp i, nofun⟩
    | succ k ih =>
      intro i
      rw [Function.iterate_succ_apply', hunfolds i]
      exact hround (n := k + 1) ih i
  exact (all k i).same hk

/-- A loop whose bound is counted down from the length of its stream. -/
theorem Terminates.of_rounds {round : (ι → Parser α) → ι → Parser α} {P : Nat → ι → Parser α}
    (hP : ∀ k i, P (k + 1) i = round (P k) i)
    (hfuel : ∀ {n k m}, n ≤ k + 1 → n ≤ m + 1 → ∀ i, Coincides d n (P k i) (P m i))
    (hround : ∀ {n} {f g : ι → Parser α}, (∀ i, Coincides d (n - 1) (f i) (g i)) →
      ∀ i, Coincides d n (round f i) (round g i)) :
    Terminates d round fun i => sized (P · i) := by
  have bounded : ∀ {n k} i, n ≤ k + 1 → Coincides d n (P k i) (sized (P · i)) :=
    fun i hk => .sized_right fun hj hm => hfuel (Nat.le_trans hj hk) hm i
  refine .of_unfolds (fun i => (bounded (n := 0) (k := 0) i (Nat.zero_le _)).toAdvances)
    (fun i => ?_) hround
  refine Coincides.sized_eq (fun hk hm => hfuel hk hm i) fun hk => ?_
  rw [hP]
  exact hround (fun i => bounded i (Nat.le_trans (Nat.sub_le _ 1) hk)) i

/-! ## Single steps -/

section Steps

theorem pure_advances (a : α) : Advances 0 (pure a : Parser α) := by
  refine ⟨?_, nofun⟩
  rintro ends ts _ _ ⟨⟩
  exact ⟨[], rfl, Nat.le_refl 0⟩

theorem refuse_advances (found : Option Token) (complaint : Complaint)
    (suggestions : List Suggestion) :
    Advances d (refuse found complaint suggestions : Parser α) := by
  refine ⟨nofun, ?_⟩
  rintro ends ts _ _ ⟨⟩
  exact List.suffix_refl ts

theorem fail_advances (complaint : Complaint) (suggestions : List Suggestion) :
    Advances d (fail complaint suggestions : Parser α) := by
  refine ⟨nofun, ?_⟩
  rintro ends ts _ _ ⟨⟩
  exact List.suffix_refl ts

/-- A look at the stream. -/
theorem look_advances (f : List Token → α) : Advances 0 (fun _ ts => .ok (f ts) ts : Parser α) := by
  refine ⟨?_, nofun⟩
  rintro ends ts _ _ ⟨⟩
  exact ⟨[], rfl, Nat.le_refl 0⟩

theorem current_advances : Advances 0 current := look_advances _

theorem sees_advances (k : Kind) : Advances 0 (sees k) := look_advances _

theorem seesAny_advances (ks : List Kind) : Advances 0 (seesAny ks) := look_advances _

theorem atEnd_advances : Advances 0 atEnd := look_advances _

theorem exhausted_advances : Advances 0 exhausted := look_advances _

theorem elseFollows_advances : Advances 0 elseFollows := look_advances _

theorem advance_refused {ends : Option Span} {ts left : List Token} {e : ParseError}
    (h : advance ends ts = .error e left) : left = ts := by
  cases ts <;> cases h
  rfl

theorem take_refused {ends : Option Span} {ts left : List Token} {e : ParseError} {k : Kind}
    {complaint : Complaint} (h : take k complaint ends ts = .error e left) : left = ts := by
  cases ts with
  | nil =>
    cases h
    rfl
  | cons t ts =>
    simp only [take] at h
    split at h <;> cases h
    rfl

theorem advance_advances : Advances 1 advance := by
  refine ⟨fun {ends ts t rest} h => ?_, fun {ends ts e left} h => ?_⟩
  · obtain rfl := advance_eq_ok.1 h
    exact ⟨[t], rfl, Nat.le_refl 1⟩
  · obtain rfl := advance_refused h
    exact List.suffix_refl left

theorem take_advances (k : Kind) (complaint : Complaint) : Advances 1 (take k complaint) := by
  refine ⟨fun {ends ts t rest} h => ?_, fun {ends ts e left} h => ?_⟩
  · cases ts with
    | nil => cases h
    | cons u ts =>
      simp only [take] at h
      split at h <;> cases h
      exact ⟨[t], rfl, Nat.le_refl 1⟩
  · obtain rfl := take_refused h
    exact List.suffix_refl left

theorem expect_advances (k : Kind) (what : Expectation) : Advances 1 (expect k what) :=
  (take_advances k _).andThen fun _ => pure_advances ()

theorem identifier_advances (what : Expectation) : Advances 1 (identifier what) := by
  refine ⟨fun {ends ts i rest} h => ?_, fun {ends ts e rest} h => ?_⟩
  · obtain ⟨t, -, rfl⟩ := identifier_eq_ok.1 h
    exact ⟨[t], rfl, Nat.le_refl 1⟩
  · cases ts with
    | nil =>
      cases h
      exact List.suffix_refl []
    | cons t ts =>
      simp only [identifier] at h
      split at h <;> cases h
      exact List.suffix_refl (t :: ts)

theorem operatorIn_advances (ops : List Operator) : Advances 0 (operatorIn ops) := by
  refine ⟨fun {ends ts o rest} h => ?_, fun {ends ts e rest} h => ?_⟩
  · cases o with
    | some op =>
      obtain ⟨-, t, -, rfl⟩ := operatorIn_eq_some.1 h
      exact ⟨[t], rfl, Nat.zero_le 1⟩
    | none =>
      obtain ⟨rfl, -⟩ := operatorIn_eq_none.1 h
      exact ⟨[], rfl, Nat.le_refl 0⟩
  · cases ts with
    | nil => cases h
    | cons t ts =>
      simp only [operatorIn] at h
      split at h
      · split at h <;> cases h
      · cases h

theorem skip_advances (k : Kind) : Advances 0 (skip k) := by
  refine ⟨fun {ends ts b rest} h => ?_, fun {ends ts e rest} h => ?_⟩
  · cases b with
    | true =>
      obtain ⟨t, -, rfl⟩ := skip_eq_true.1 h
      exact ⟨[t], rfl, Nat.zero_le 1⟩
    | false =>
      obtain ⟨rfl, -⟩ := skip_eq_false.1 h
      exact ⟨[], rfl, Nat.le_refl 0⟩
  · cases ts with
    | nil => cases h
    | cons t ts =>
      simp only [skip] at h
      split at h <;> cases h

theorem skipNewlines_advances : Advances 0 skipNewlines := by
  refine ⟨?_, nofun⟩
  rintro ends ts _ _ ⟨⟩
  exact ⟨_, List.takeWhile_append_dropWhile.symm, Nat.zero_le _⟩

/-- Where an operator is taken, less is left to take and to go on with. -/
theorem operatorIn_next {ops : List Operator} {f g : Option Operator → Parser β}
    (hsome : ∀ op, Coincides (d - 1) (n - 1) (f (some op)) (g (some op)))
    (hnone : Coincides d n (f none) (g none)) :
    Coincides d n (operatorIn ops >>= f) (operatorIn ops >>= g) := by
  refine (operatorIn_advances ops).coincides.follow fun {ends ts o mid} ho => ?_
  cases o with
  | some op =>
    obtain ⟨-, t, -, rfl⟩ := operatorIn_eq_some.1 ho
    exact ⟨[t], rfl, hsome op⟩
  | none =>
    obtain ⟨rfl, -⟩ := operatorIn_eq_none.1 ho
    exact ⟨[], rfl, hnone⟩

/-- Where a token is skipped, less is left to take and to go on with. -/
theorem skip_next {k : Kind} {f g : Bool → Parser β}
    (htrue : Coincides (d - 1) (n - 1) (f true) (g true))
    (hfalse : Coincides d n (f false) (g false)) :
    Coincides d n (skip k >>= f) (skip k >>= g) := by
  refine (skip_advances k).coincides.follow fun {ends ts b mid} hb => ?_
  cases b with
  | true =>
    obtain ⟨t, -, rfl⟩ := skip_eq_true.1 hb
    exact ⟨[t], rfl, htrue⟩
  | false =>
    obtain ⟨rfl, -⟩ := skip_eq_false.1 hb
    exact ⟨[], rfl, hfalse⟩

def newlineRound (next : Unit → Parser Unit) (_ : Unit) : Parser Unit := do
  if ← skip .newline then next ()
  else return ()

theorem skipNewlines_eq : skipNewlines = newlineRound (fun _ => skipNewlines) () := by
  funext ends ts
  cases ts with
  | nil => rfl
  | cons t ts =>
    by_cases ht : t.kind = .newline
    · have hskip : skip .newline ends (t :: ts) = .ok true ts := skip_eq_true.2 ⟨t, ht, rfl⟩
      rw [newlineRound, bind_of_ok hskip, if_pos rfl, skipNewlines_apply, skipNewlines_apply,
        List.dropWhile_cons_of_pos (Token.isNewline_iff.2 (Token.kind_eq_newline.1 ht))]
    · have hskip : skip .newline ends (t :: ts) = .ok false (t :: ts) :=
        skip_eq_false.2 ⟨rfl, by simpa using ht⟩
      rw [newlineRound, bind_of_ok hskip, if_neg Bool.false_ne_true, skipNewlines_apply,
        List.dropWhile_cons_of_neg]
      · rfl
      · rw [Token.isNewline_iff, ← Token.kind_eq_newline]
        exact ht

theorem skipNewlines_terminates : Terminates 0 newlineRound fun _ => skipNewlines :=
  .of_unfolds (fun _ => skipNewlines_advances) (fun _ => skipNewlines_eq) fun h _ =>
    skip_next (h ()) (pure_advances ()).coincides

end Steps

end Pasture.Grammar
