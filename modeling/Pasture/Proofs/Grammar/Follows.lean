import Mathlib.Data.List.TakeWhile
import Pasture.Proofs.Grammar.Steps

/-! # Parsers on a stream that is cut off

A parser on the front of a stream follows the same parser on the whole of it, token by token, until
it sees the end of the front. From there on it finds nothing to take, so that it either fails for
want of tokens or gives a value and leaves next to nothing. Bounds on the loops may differ between
the two streams; it is enough that both are no less than the front.
-/
namespace Pasture.Grammar

open Pasture.Parser

structure Starved (e : ParseError) : Prop where
  phase : e.phase = .syntactic
  token : e.token = none
  atEnd : e.atEnd

def Spends {α : Type} (E : List Token → Prop) : EStateM.Result ParseError (List Token) α → Prop
  | .ok _ left => E left
  | .error e _ => Starved e

/-- The parser `q`, on at most `n` tokens, follows `p` on a stream that goes on behind them. A
success takes `d` tokens at least. Where `D` tells what is left, `q` goes on to a failure or to what
`E` tells; and what `p` gives, `q` gives too, unless it has come to such an end. -/
structure Follows {α : Type} (d n : Nat) (D E : List Token → Prop) (p q : Parser α) : Prop where
  takes : ∀ {ends ts a rest}, q ends ts = .ok a rest → ∃ read, ts = read ++ rest ∧ d ≤ read.length
  spends : ∀ {ends ts}, ts.length ≤ n → D ts → Spends E (q ends ts)
  follows : ∀ {ends ends' ts cut a rest}, ts.length ≤ n → p ends (ts ++ cut) = .ok a rest →
    Spends E (q ends' ts) ∨ ∃ left, q ends' ts = .ok a left ∧ rest = left ++ cut

def AtEmpty (ts : List Token) : Prop := ts = []

def AtBreaks (ts : List Token) : Prop := ∀ t ∈ ts, t.lexeme = .newline

/-- The case of most parsers: they look at one token at a time and leave no token they have seen. -/
abbrev Tracks {α : Type} (d n : Nat) (p q : Parser α) : Prop := Follows d n AtEmpty AtEmpty p q

variable {α β : Type} {d m n k : Nat} {D D' E E' F : List Token → Prop} {p q : Parser α}
  {ends : Option Span} {ts : List Token}

theorem AtEmpty.atBreaks (h : AtEmpty ts) : AtBreaks ts := by
  subst h
  exact List.forall_mem_nil _

theorem starved_syntactic (complaint : Complaint) (ends : Option Span)
    (suggestions : List Suggestion) :
    Starved (.syntactic complaint ends none suggestions) :=
  ⟨rfl, rfl, rfl⟩

namespace Follows

theorem length_le (h : Follows d n D E p q) {a : α} {rest : List Token}
    (hq : q ends ts = .ok a rest) : rest.length + d ≤ ts.length := by
  obtain ⟨read, rfl, hread⟩ := h.takes hq
  rw [List.length_append]
  omega

theorem eased (h : Follows 1 n D E p q) : Follows 0 n D E p q := by
  refine ⟨fun hq => ?_, h.spends, h.follows⟩
  obtain ⟨read, hts, -⟩ := h.takes hq
  exact ⟨read, hts, Nat.zero_le _⟩

theorem mono (hm : m ≤ n) (h : Follows d n D E p q) : Follows d m D E p q where
  takes := h.takes
  spends hts := h.spends (Nat.le_trans hts hm)
  follows hts := h.follows (Nat.le_trans hts hm)

theorem weaken (hD : ∀ {ts}, D' ts → D ts) (hE : ∀ {ts}, E ts → E' ts) (h : Follows d n D E p q) :
    Follows d n D' E' p q := by
  have hspends : ∀ {r : EStateM.Result ParseError (List Token) α}, Spends E r → Spends E' r := by
    intro r hr
    cases r with
    | ok a left => exact hE hr
    | error e left => exact hr
  refine ⟨h.takes, fun hts hd => hspends (h.spends hts (hD hd)), fun hts hp => ?_⟩
  rcases h.follows hts hp with hspent | hsame
  · exact .inl (hspends hspent)
  · exact .inr hsame

/-- Without tokens there is nothing to follow. -/
theorem at_zero {p' : Parser α} (h : Follows d 0 D E p q) (hD : D []) :
    Follows d 0 D' E p' q := by
  have hempty : ∀ {ends ts}, ts.length ≤ 0 → Spends E (q ends ts) := by
    intro ends ts hts
    obtain rfl := List.eq_nil_of_length_eq_zero (Nat.le_zero.1 hts)
    exact h.spends hts hD
  exact ⟨h.takes, fun hts _ => hempty hts, fun hts _ => .inl (hempty hts)⟩

/-- A parser that decides by the first token, or finds none. -/
theorem of_first
    (htakes : ∀ {ends ts a rest}, p ends ts = .ok a rest →
      ∃ read, ts = read ++ rest ∧ d ≤ read.length)
    (hempty : ∀ {ends}, Spends E (p ends []))
    (hfirst : ∀ {ends ends' t ts cut a rest}, p ends (t :: (ts ++ cut)) = .ok a rest →
      ∃ left, p ends' (t :: ts) = .ok a left ∧ rest = left ++ cut) :
    Follows d n AtEmpty E p p := by
  refine ⟨htakes, fun {ends ts} _ hts => ?_, fun {ends ends' ts cut a rest} _ hp => ?_⟩
  · subst hts
    exact hempty
  · cases ts with
    | nil => exact .inl hempty
    | cons t ts => exact .inr (hfirst hp)

/-- One parser after another: if the first has come to the end, the second starts there. The bound
of the second may depend on what the first has taken for its value. -/
theorem bind_of {f g : α → Parser β} {d' : Nat} (hp : Follows d n D E p q)
    (hf : ∀ a, ∃ m, (∀ {ends ts rest}, q ends ts = .ok a rest → ts.length ≤ n → rest.length ≤ m) ∧
      Follows d' m E F (f a) (g a)) :
    Follows (d' + d) n D F (p >>= f) (q >>= g) := by
  have onward : ∀ {ends ts}, ts.length ≤ n → Spends E (q ends ts) →
      Spends F ((q >>= g) ends ts) := by
    intro ends ts hts hspent
    rw [bind_apply]
    cases hq : q ends ts with
    | error e left =>
      rw [hq] at hspent
      exact hspent
    | ok a left =>
      rw [hq] at hspent
      obtain ⟨m, hm, hfollows⟩ := hf a
      exact hfollows.spends (hm hq hts) hspent
  refine ⟨?_, fun hts hd => onward hts (hp.spends hts hd), ?_⟩
  · intro ends ts b rest h
    obtain ⟨a, mid, hq, hg⟩ := bind_eq_ok.1 h
    obtain ⟨m, -, hfollows⟩ := hf a
    obtain ⟨read, rfl, hread⟩ := hp.takes hq
    obtain ⟨more, rfl, hmore⟩ := hfollows.takes hg
    refine ⟨read ++ more, by simp, ?_⟩
    rw [List.length_append]
    omega
  · intro ends ends' ts cut b rest hts h
    obtain ⟨a, mid, hpa, hfa⟩ := bind_eq_ok.1 h
    rcases hp.follows hts hpa with hspent | ⟨left, hq, rfl⟩
    · exact .inl (onward hts hspent)
    · obtain ⟨m, hm, hfollows⟩ := hf a
      rw [bind_of_ok hq]
      exact hfollows.follows (hm hq hts) hfa

theorem bind {f g : α → Parser β} (hp : Follows 0 n D E p q)
    (hf : ∀ a, Follows d n E F (f a) (g a)) : Follows d n D F (p >>= f) (q >>= g) := by
  refine hp.bind_of fun a => ⟨n, fun hq hts => ?_, hf a⟩
  exact Nat.le_trans (hp.length_le hq) hts

/-- Behind a token that is taken, the bound is one less. -/
theorem next {f g : α → Parser β} (hp : Follows 1 n D E p q)
    (hf : ∀ a, Follows 0 (n - 1) E F (f a) (g a)) : Follows 1 n D F (p >>= f) (q >>= g) := by
  refine hp.bind_of fun a => ⟨n - 1, fun hq hts => ?_, hf a⟩
  have htaken := hp.length_le hq
  omega

theorem ite {p' q' : Parser α} {c : Prop} [Decidable c] (h : Follows d n D E p q)
    (h' : Follows d n D E p' q') :
    Follows d n D E (if c then p else p') (if c then q else q') := by
  split
  · exact h
  · exact h'

/-- A parser that is handed the length of its stream as a bound. -/
theorem sized {P : Nat → Parser α} (h : ∀ {n m k}, n ≤ m → m ≤ k → Follows d n D E (P k) (P m)) :
    Follows d n D E (fun ends ts => P ts.length ends ts) (fun ends ts => P ts.length ends ts) where
  takes {ends ts a rest} hq := by
    have hown := h (Nat.le_refl ts.length) (Nat.le_refl ts.length)
    exact hown.takes hq
  spends {ends ts} _ hd := by
    have hown := h (Nat.le_refl ts.length) (Nat.le_refl ts.length)
    exact hown.spends (Nat.le_refl _) hd
  follows {ends ends' ts cut a rest} _ hp := by
    have hlonger : ts.length ≤ (ts ++ cut).length := by simp
    have hboth := h (Nat.le_refl ts.length) hlonger
    exact hboth.follows (Nat.le_refl _) hp

end Follows

section Steps

theorem pure_follows (a : α) : Follows 0 n D D (pure a : Parser α) (pure a) := by
  refine ⟨?_, fun _ hd => hd, ?_⟩
  · rintro ends ts _ _ ⟨⟩
    exact ⟨[], rfl, Nat.le_refl 0⟩
  · rintro ends ends' ts cut _ _ _ ⟨⟩
    exact .inr ⟨ts, rfl, rfl⟩

theorem fail_follows (complaint : Complaint) (suggestions : List Suggestion) :
    Follows d n AtEmpty E (fail complaint suggestions : Parser α) (fail complaint suggestions) :=
  .of_first nofun (starved_syntactic complaint _ suggestions) nofun

theorem take_follows (k : Kind) (complaint : Complaint) :
    Tracks 1 n (take k complaint) (take k complaint) := by
  refine .of_first ?_ (starved_syntactic complaint _ []) ?_
  · intro ends ts t rest h
    cases ts with
    | nil => cases h
    | cons u ts =>
      simp only [take] at h
      split at h
      · cases h
        exact ⟨[t], rfl, Nat.le_refl 1⟩
      · cases h
  · intro ends ends' t ts cut a rest h
    simp only [take] at h ⊢
    split at h
    · cases h
      rename_i hk
      exact ⟨ts, by rw [if_pos hk], rfl⟩
    · cases h

theorem expect_follows (k : Kind) (what : Expectation) :
    Tracks 1 n (expect k what) (expect k what) :=
  (take_follows k _).next fun _ => pure_follows ()

theorem identifier_follows (what : Expectation) :
    Tracks 1 n (identifier what) (identifier what) := by
  refine .of_first ?_ (starved_syntactic (.expected what) _ []) ?_
  · intro ends ts i rest h
    obtain ⟨t, -, rfl⟩ := identifier_eq_ok.1 h
    exact ⟨[t], rfl, Nat.le_refl 1⟩
  · intro ends ends' t ts cut i rest h
    obtain ⟨u, hu, heq⟩ := identifier_eq_ok.1 h
    cases heq
    exact ⟨ts, identifier_eq_ok.2 ⟨t, hu, rfl⟩, rfl⟩

theorem advance_follows : Follows 1 n AtEmpty E advance advance := by
  refine .of_first ?_ (starved_syntactic (.expected .more) _ []) ?_
  · intro ends ts t rest h
    obtain rfl := advance_eq_ok.1 h
    exact ⟨[t], rfl, Nat.le_refl 1⟩
  · intro ends ends' t ts cut u rest h
    cases advance_eq_ok.1 h
    exact ⟨ts, rfl, rfl⟩

/-- A look at the first token. -/
theorem look_follows (f : Option Token → α) :
    Tracks 0 n (fun _ ts => .ok (f ts.head?) ts : Parser α)
      (fun _ ts => .ok (f ts.head?) ts) := by
  refine .of_first ?_ rfl ?_
  · rintro ends ts _ _ ⟨⟩
    exact ⟨[], rfl, Nat.le_refl 0⟩
  · rintro ends ends' t ts cut _ _ ⟨⟩
    exact ⟨t :: ts, rfl, rfl⟩

theorem current_follows : Tracks 0 n current current := look_follows id

/-- A parser that goes by the first token goes on in front of it. -/
theorem current_then {f g : Option Token → Parser β}
    (hnone : Follows 0 n AtEmpty F (f none) (g none))
    (hsome : ∀ t, Follows 0 n (fun ts => D ts ∧ ts.head? = some t) F (f (some t)) (g (some t))) :
    Follows 0 n D F (current >>= f) (current >>= g) := by
  refine ⟨fun {ends ts a rest} h => ?_, fun {ends ts} hts hd => ?_,
    fun {ends ends' ts cut a rest} hts h => ?_⟩
  · rw [bind_of_ok current_apply] at h
    cases ts with
    | nil => exact hnone.takes h
    | cons t ts => exact (hsome t).takes h
  · rw [bind_of_ok current_apply]
    cases ts with
    | nil => exact hnone.spends hts rfl
    | cons t ts => exact (hsome t).spends hts ⟨hd, rfl⟩
  · rw [bind_of_ok current_apply] at h ⊢
    cases ts with
    | nil => exact .inl (hnone.spends hts rfl)
    | cons t ts => exact (hsome t).follows hts h

theorem sees_follows (k : Kind) : Tracks 0 n (sees k) (sees k) := look_follows _

theorem seesAny_follows (ks : List Kind) : Tracks 0 n (seesAny ks) (seesAny ks) := look_follows _

theorem atEnd_follows : Tracks 0 n atEnd atEnd := look_follows _

theorem skip_follows (k : Kind) : Tracks 0 n (skip k) (skip k) := by
  refine .of_first ?_ rfl ?_
  · intro ends ts b rest h
    cases b with
    | true =>
      obtain ⟨t, -, rfl⟩ := skip_eq_true.1 h
      exact ⟨[t], rfl, Nat.zero_le _⟩
    | false =>
      obtain ⟨rfl, -⟩ := skip_eq_false.1 h
      exact ⟨[], rfl, Nat.le_refl 0⟩
  · intro ends ends' t ts cut b rest h
    simp only [skip] at h ⊢
    split at h
    · cases h
      rename_i hk
      exact ⟨ts, by rw [if_pos hk], rfl⟩
    · cases h
      rename_i hk
      exact ⟨t :: ts, by rw [if_neg hk], rfl⟩

theorem operatorIn_follows (ops : List Operator) :
    Tracks 0 n (operatorIn ops) (operatorIn ops) := by
  refine .of_first ?_ rfl ?_
  · intro ends ts o rest h
    cases o with
    | some op =>
      obtain ⟨-, t, -, rfl⟩ := operatorIn_eq_some.1 h
      exact ⟨[t], rfl, Nat.zero_le _⟩
    | none =>
      obtain ⟨rfl, -⟩ := operatorIn_eq_none.1 h
      exact ⟨[], rfl, Nat.le_refl 0⟩
  · intro ends ends' t ts cut o rest h
    cases o with
    | none =>
      obtain ⟨rfl, hnone⟩ := operatorIn_eq_none.1 h
      exact ⟨t :: ts, operatorIn_eq_none.2 ⟨rfl, hnone⟩, rfl⟩
    | some op =>
      obtain ⟨hop, u, hu, heq⟩ := operatorIn_eq_some.1 h
      cases heq
      exact ⟨ts, operatorIn_eq_some.2 ⟨hop, t, hu, rfl⟩, rfl⟩

theorem skip_then {k : Kind} {f g : Bool → Parser β}
    (htrue : Follows 0 (n - 1) AtEmpty F (f true) (g true))
    (hfalse : Follows 0 n AtEmpty F (f false) (g false)) :
    Follows 0 n AtEmpty F (skip k >>= f) (skip k >>= g) := by
  refine (skip_follows k).bind_of fun b => ?_
  cases b with
  | true =>
    refine ⟨n - 1, fun {ends ts rest} hq hts => ?_, htrue⟩
    obtain ⟨t, -, rfl⟩ := skip_eq_true.1 hq
    exact Nat.le_sub_one_of_lt hts
  | false =>
    refine ⟨n, fun {ends ts rest} hq hts => ?_, hfalse⟩
    obtain ⟨rfl, -⟩ := skip_eq_false.1 hq
    exact hts

theorem operatorIn_then {ops : List Operator} {f g : Option Operator → Parser β}
    (hsome : ∀ op, Follows 0 (n - 1) AtEmpty F (f (some op)) (g (some op)))
    (hnone : Follows 0 n AtEmpty F (f none) (g none)) :
    Follows 0 n AtEmpty F (operatorIn ops >>= f) (operatorIn ops >>= g) := by
  refine (operatorIn_follows ops).bind_of fun o => ?_
  cases o with
  | some op =>
    refine ⟨n - 1, fun {ends ts rest} hq hts => ?_, hsome op⟩
    obtain ⟨-, t, -, rfl⟩ := operatorIn_eq_some.1 hq
    exact Nat.le_sub_one_of_lt hts
  | none =>
    refine ⟨n, fun {ends ts rest} hq hts => ?_, hnone⟩
    obtain ⟨rfl, -⟩ := operatorIn_eq_none.1 hq
    exact hts

/-- The line breaks at the end of the front may go on behind it. -/
theorem skipNewlines_follows : Follows 0 n AtBreaks AtEmpty skipNewlines skipNewlines := by
  have hall : ∀ {ts : List Token}, AtBreaks ts → ts.dropWhile Token.isNewline = [] := by
    intro ts hts
    exact List.dropWhile_eq_nil_iff.2 fun t ht => Token.isNewline_iff.2 (hts t ht)
  refine ⟨?_, fun _ hts => hall hts, ?_⟩
  · rintro ends ts _ _ ⟨⟩
    exact ⟨_, List.takeWhile_append_dropWhile.symm, Nat.zero_le _⟩
  · rintro ends ends' ts cut _ _ _ ⟨⟩
    cases hdrop : ts.dropWhile Token.isNewline with
    | nil => exact .inl hdrop
    | cons t left =>
      refine .inr ⟨t :: left, congrArg _ hdrop, ?_⟩
      rw [List.dropWhile_append, hdrop]
      rfl

theorem skipNewlines_tracks : Tracks 0 n skipNewlines skipNewlines :=
  skipNewlines_follows.weaken AtEmpty.atBreaks id

end Steps

section Expressions

variable {operand operand' nested nested' : Parser Expr}

theorem leftChain_follows (ops : List Operator) (ho : Tracks 0 n operand operand') (hm : n ≤ m)
    (hk : m ≤ k) (left : Expr) :
    Tracks 0 n (leftChain ops operand k left) (leftChain ops operand' m left) := by
  induction m generalizing n k left with
  | zero =>
    obtain rfl := Nat.le_zero.1 hm
    exact (pure_follows left).at_zero rfl
  | succ m ih =>
    obtain ⟨k, rfl⟩ : ∃ j, k = j + 1 := ⟨k - 1, by omega⟩
    refine operatorIn_then (fun op => ?_) (pure_follows left)
    have hless := ho.mono (Nat.sub_le n 1)
    exact hless.bind fun right => ih hless (by omega) (by omega) _

theorem rightChain_follows (ops : List Operator) (ho : Tracks 0 n operand operand') (hm : n ≤ m)
    (hk : m ≤ k) : Tracks 0 n (rightChain ops operand k) (rightChain ops operand' m) := by
  induction m generalizing n k with
  | zero =>
    obtain rfl := Nat.le_zero.1 hm
    exact ho.at_zero rfl
  | succ m ih =>
    obtain ⟨k, rfl⟩ : ∃ j, k = j + 1 := ⟨k - 1, by omega⟩
    refine ho.bind fun left => operatorIn_then (fun op => ?_) (pure_follows left)
    have hless := ho.mono (Nat.sub_le n 1)
    exact (ih hless (by omega) (by omega)).bind fun right => pure_follows _

theorem prefixChain_follows (ops : List Operator) (ho : Tracks 0 n operand operand') (hm : n ≤ m)
    (hk : m ≤ k) : Tracks 0 n (prefixChain ops operand k) (prefixChain ops operand' m) := by
  induction m generalizing n k with
  | zero =>
    obtain rfl := Nat.le_zero.1 hm
    exact ho.at_zero rfl
  | succ m ih =>
    obtain ⟨k, rfl⟩ : ∃ j, k = j + 1 := ⟨k - 1, by omega⟩
    refine (sees_follows .operator).bind fun seen => .ite ?_ ho
    refine operatorIn_then (fun op => ?_) (fail_follows .notUnary [])
    have hless := ho.mono (Nat.sub_le n 1)
    exact (ih hless (by omega) (by omega)).bind fun inner => pure_follows _

theorem climb_follows (ho : Tracks 0 n operand operand') (hm : n ≤ m) (hk : m ≤ k)
    (rows : List PrecedenceRow) : Tracks 0 n (climb operand k rows) (climb operand' m rows) := by
  induction rows with
  | nil => exact ho
  | cons row rows ih =>
    unfold climb
    split
    · exact ih.bind fun first => leftChain_follows row.operators ih hm hk first
    · exact rightChain_follows row.operators ih hm hk
    · exact prefixChain_follows row.operators ih hm hk

theorem commaList_follows {item item' : Parser α} (hi : Tracks 0 n item item') (close : Symbol)
    (what : Expectation) (hm : n ≤ m) (hk : m ≤ k) :
    Tracks 0 n (commaList close what item k) (commaList close what item' m) := by
  induction m generalizing n k with
  | zero =>
    obtain rfl := Nat.le_zero.1 hm
    exact (hi.bind fun x => pure_follows [x]).at_zero rfl
  | succ m ih =>
    obtain ⟨k, rfl⟩ : ∃ j, k = j + 1 := ⟨k - 1, by omega⟩
    refine skipNewlines_tracks.bind fun _ => hi.bind fun x => ?_
    refine skipNewlines_tracks.bind fun _ => skip_then ?_ ?_
    · have hless := hi.mono (Nat.sub_le n 1)
      exact (ih hless (by omega) (by omega)).bind fun xs => pure_follows _
    · exact ((expect_follows _ what).next fun _ => pure_follows _).eased

theorem listItems_follows {item item' : Parser α} (hi : Tracks 0 n item item') (close : Symbol)
    (what : Expectation) (hm : n ≤ m) (hk : m ≤ k) :
    Tracks 0 n (listItems close what item k) (listItems close what item' m) :=
  skipNewlines_tracks.bind fun _ => (skip_follows _).bind fun _ =>
    .ite (pure_follows []) (commaList_follows hi close what hm hk)

theorem listItem_follows (hn : Tracks 0 n nested nested') (close : Symbol) (what : Expectation) :
    Tracks 0 n (listItem nested close what) (listItem nested' close what) :=
  (seesAny_follows _).bind fun _ => .ite (fail_follows (.expected what) []) hn

theorem bound_follows (hn : Tracks 0 n nested nested') (next : Symbol) :
    Tracks 0 n (bound nested next) (bound nested' next) :=
  (sees_follows _).bind fun _ => .ite (pure_follows none) (hn.bind fun _ => pure_follows _)

theorem index_follows (hn : Tracks 0 n nested nested') :
    Tracks 0 n (index nested) (index nested') := by
  refine (bound_follows hn .colon).bind fun start => (skip_follows _).bind fun colon => ?_
  have hclose : ∀ (what : Expectation) (i : Index Expr), Tracks 0 n (do
      expect (.symbol .rbracket) what
      return i) (do
      expect (.symbol .rbracket) what
      return i) := fun what i =>
    ((expect_follows _ what).next fun _ => pure_follows i).eased
  have hslice := (bound_follows hn .rbracket).bind fun stop =>
    hclose .sliceClose (.slice start stop)
  cases start with
  | none => exact hslice
  | some value =>
    cases colon with
    | true => exact hslice
    | false => exact hclose .indexClose (.single value)

theorem indices_follows (hn : Tracks 0 (n - 1) nested nested') (hm : n ≤ m) (hk : m ≤ k)
    (base : Expr) : Tracks 0 n (indices nested k base) (indices nested' m base) := by
  induction m generalizing n k base with
  | zero =>
    obtain rfl := Nat.le_zero.1 hm
    exact (pure_follows base).at_zero rfl
  | succ m ih =>
    obtain ⟨k, rfl⟩ : ∃ j, k = j + 1 := ⟨k - 1, by omega⟩
    refine skip_then ?_ (pure_follows base)
    have hless := hn.mono (Nat.sub_le (n - 1) 1)
    exact (index_follows hn).bind fun i => ih hless (by omega) (by omega) _

/-- Behind the first token of an atom the bound is one less, which is the bound of nested
expressions. -/
theorem primary_follows (hn : Tracks 0 (n - 1) nested nested') (hm : n ≤ m) (hk : m ≤ k) :
    Tracks 0 n (primary nested k) (primary nested' m) := by
  have hless : n - 1 ≤ m := by omega
  have hlist : ∀ (close : Symbol) (what what' : Expectation) (f : List Expr → Expr),
      Tracks 0 (n - 1)
        (listItems close what (listItem nested close what') k >>= fun es => pure (f es))
        (listItems close what (listItem nested' close what') m >>= fun es => pure (f es)) :=
    fun close what what' f =>
      (listItems_follows (listItem_follows hn close what') close what hless hk).bind
        fun es => pure_follows (f es)
  have hother : Tracks 0 n (fail (.expected .expression) : Parser Expr)
      (fail (.expected .expression)) := fail_follows _ []
  refine current_follows.bind fun t => ?_
  cases t.map Token.lexeme with
  | none => exact hother
  | some l =>
    cases l with
    | literal value => exact (advance_follows.next fun _ => pure_follows _).eased
    | identifier i =>
      refine (advance_follows.next fun _ => (skip_follows _).bind fun called => .ite ?_ ?_).eased
      · exact hlist .rparen .argumentsClose .argument (.call i)
      · exact pure_follows _
    | symbol b =>
      cases b with
      | lparen =>
        refine (advance_follows.next fun _ => hn.bind fun inner => ?_).eased
        exact ((expect_follows _ .groupClose).next fun _ => pure_follows _).eased
      | lbracket =>
        have hitems := hlist .rbracket .elementsClose .element .array
        exact (advance_follows.next fun _ => hitems).eased
      | _ => exact hother
    | _ => exact hother

theorem atomOver_follows (hn : Tracks 0 (n - 1) nested nested') (hm : n ≤ m) (hk : m ≤ k) :
    Tracks 0 n (atomOver nested k) (atomOver nested' m) :=
  (primary_follows hn hm hk).bind fun base => indices_follows hn hm hk base

theorem expressionOver_follows (hn : Tracks 0 (n - 1) nested nested') (hm : n ≤ m) (hk : m ≤ k) :
    Tracks 0 n (expressionOver nested k) (expressionOver nested' m) := by
  refine (climb_follows (atomOver_follows hn hm hk) hm hk precedence).bind fun condition => ?_
  refine skip_then (hn.bind fun whenTrue => ?_) (pure_follows condition)
  refine ((expect_follows _ .ternaryColon).next fun _ => ?_).eased
  exact (hn.mono (Nat.sub_le (n - 1) 1)).bind fun whenFalse => pure_follows _

theorem expressionWithin_follows (hm : n ≤ m) (hk : m ≤ k) :
    Tracks 0 n (expressionWithin k) (expressionWithin m) := by
  induction m generalizing n k with
  | zero =>
    obtain rfl := Nat.le_zero.1 hm
    exact (fail_follows (.expected .expression) []).at_zero rfl
  | succ m ih =>
    obtain ⟨k, rfl⟩ : ∃ j, k = j + 1 := ⟨k - 1, by omega⟩
    exact expressionOver_follows (ih (by omega) (by omega)) hm hk

theorem expression_follows : Tracks 0 n expression expression :=
  .sized expressionWithin_follows

end Expressions

end Pasture.Grammar
