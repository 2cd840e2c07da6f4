import Pasture.Proofs.Grammar.RoundTrip
import Pasture.Proofs.Grammar.Truncation

/-! # What parsers see of the rest

What a parser gives depends on the tokens that it takes, and on little of what is behind them. Most
parsers look at one token behind their own at most, and those that end with a bracket at none; only
a branch looks for `else` behind the line breaks, and a simple statement for what ends it.
-/
namespace Pasture.Grammar

open Pasture.Parser

def Endless (ts : List Token) : Prop := ∀ t ∈ ts, t.lexeme ≠ .endOfInput

/-- What `p` gives for the tokens it takes, `q` gives for them too, if they are at most `n`, and
takes no more, if `R` relates the rests of the two streams. At least `d` tokens that are no line
breaks are taken, and the end of the input is not. -/
structure Local {α : Type} (d n : Nat) (R : List Token → List Token → Prop) (p q : Parser α) :
    Prop where
  takes : ∀ {ends ts a rest}, p ends ts = .ok a rest →
    ∃ read, ts = read ++ rest ∧ d ≤ (unbroken read).length ∧ Endless read
  carries : ∀ {ends ends' read rest rest' a}, p ends (read ++ rest) = .ok a rest →
    read.length ≤ n → R rest rest' → q ends' (read ++ rest') = .ok a rest'

/-- Behind `d` tokens of their own that are no line breaks, rests that `S` relates are related by
`R`. -/
def Bears (d : Nat) (S R : List Token → List Token → Prop) : Prop :=
  ∀ {read rest rest' : List Token}, d ≤ (unbroken read).length → S rest rest' →
    R (read ++ rest) (read ++ rest')

section Rests

variable {rest rest' : List Token}

def Unseen (_ _ : List Token) : Prop := True

def SameHead (rest rest' : List Token) : Prop := rest.head? = rest'.head?

def Halts (ts : List Token) : Prop :=
  ∃ t ∈ ts.head?, t.lexeme = .symbol .rbrace ∨ t.lexeme = .endOfInput

structure Onward (rest rest' : List Token) : Prop where
  noElse : NoElse rest → NoElse rest'
  halts : Halts rest → Halts rest'

theorem Endless.append {ts us : List Token} (ht : Endless ts) (hu : Endless us) :
    Endless (ts ++ us) :=
  List.forall_mem_append.2 ⟨ht, hu⟩

theorem noElse_append {read : List Token} (h : NoElse rest → NoElse rest') :
    NoElse (read ++ rest) → NoElse (read ++ rest') := by
  induction read with
  | nil => exact h
  | cons t read ih =>
    by_cases ht : t.lexeme = .newline
    · unfold NoElse at ih ⊢
      rw [List.cons_append, List.cons_append,
        List.dropWhile_cons_of_pos (Token.isNewline_iff.2 ht),
        List.dropWhile_cons_of_pos (Token.isNewline_iff.2 ht)]
      exact ih
    · intro hread
      refine noElse_cons ht ?_ _
      unfold NoElse at hread
      rw [List.cons_append, List.dropWhile_cons_of_neg (by simpa using ht)] at hread
      exact hread t rfl

/-- A token that is no line break tells whether `else` is next. -/
theorem noElse_of_solid {read : List Token} (hread : 1 ≤ (unbroken read).length)
    (h : NoElse (read ++ rest)) : NoElse (read ++ rest') := by
  induction read with
  | nil => cases hread
  | cons t read ih =>
    by_cases ht : t.lexeme = .newline
    · have hnew : t.isNewline = true := Token.isNewline_iff.2 ht
      refine noElse_cons_newline ht (ih ?_ ?_)
      · simpa [unbroken, hnew] using hread
      · unfold NoElse at h
        rwa [List.cons_append, List.dropWhile_cons_of_pos hnew] at h
    · refine noElse_cons ht ?_ _
      unfold NoElse at h
      rw [List.cons_append, List.dropWhile_cons_of_neg (by simpa using ht)] at h
      exact h t rfl

theorem solid_length_le (read : List Token) : (unbroken read).length ≤ read.length :=
  List.length_filter_le ..

theorem bears_sameHead {S : List Token → List Token → Prop} : Bears 1 S SameHead := by
  intro read rest rest' hread _
  cases read with
  | nil => cases hread
  | cons t read => rfl

theorem bears_same : Bears 0 SameHead SameHead := by
  intro read rest rest' _ h
  cases read with
  | nil => exact h
  | cons t read => rfl

theorem bears_onward {S : List Token → List Token → Prop} : Bears 1 S Onward := by
  intro read rest rest' hread _
  refine ⟨noElse_of_solid hread, ?_⟩
  cases read with
  | nil => cases hread
  | cons t read => exact id

end Rests

section Combinators

variable {α β : Type} {c d n : Nat} {R S : List Token → List Token → Prop} {p q : Parser α}

namespace Local

theorem weaken {m c : Nat} (hm : m ≤ n) (hc : c ≤ d) (hR : ∀ {rest rest'}, S rest rest' → R rest rest')
    (h : Local d n R p q) : Local c m S p q := by
  refine ⟨fun hp => ?_, fun hp hread hrest => ?_⟩
  · obtain ⟨read, hts, hsolid, hend⟩ := h.takes hp
    exact ⟨read, hts, Nat.le_trans hc hsolid, hend⟩
  · exact h.carries hp (Nat.le_trans hread hm) (hR hrest)

theorem eased (h : Local 1 n R p q) : Local 0 n R p q := h.weaken (Nat.le_refl n) (Nat.zero_le 1) id

theorem of_read (h : ∀ {ends ts a rest}, p ends ts = .ok a rest →
    ∃ read, ts = read ++ rest ∧ d ≤ (unbroken read).length ∧ Endless read ∧
      ∀ {ends' rest'}, read.length ≤ n → R rest rest' → q ends' (read ++ rest') = .ok a rest') :
    Local d n R p q := by
  refine ⟨fun hp => ?_, fun {ends ends' read rest rest' a} hp hn hrest => ?_⟩
  · obtain ⟨read, hts, hsolid, hend, -⟩ := h hp
    exact ⟨read, hts, hsolid, hend⟩
  · obtain ⟨us, hus, -, -, hq⟩ := h hp
    obtain rfl := List.append_cancel_right hus
    exact hq hn hrest

theorem of_fails (h : ∀ {ends ts a rest}, p ends ts ≠ .ok a rest) : Local d n R p q :=
  ⟨fun hp => absurd hp h, fun hp => absurd hp h⟩

/-- What takes a token does not come from none. -/
theorem at_zero {q' : Parser α} (h : Local 1 n R p q) : Local 1 0 R p q' := by
  refine ⟨h.takes, fun {ends ends' read rest rest' a} hp hread _ => ?_⟩
  obtain ⟨us, hus, hsolid, -⟩ := h.takes hp
  obtain rfl := List.append_cancel_right hus
  have := solid_length_le read
  omega

/-- One parser after another. What the first sees of the rest is in what the second takes and in
what the second sees of the rest. -/
theorem bind_of {f g : α → Parser β} (hp : Local c n R p q)
    (hf : ∀ a, Local d (n - c) S (f a) (g a))
    (hS : ∀ {a ends read rest rest' b}, f a ends (read ++ rest) = .ok b rest →
      d ≤ (unbroken read).length → S rest rest' → R (read ++ rest) (read ++ rest')) :
    Local (c + d) n S (p >>= f) (q >>= g) := by
  refine ⟨fun {ends ts b rest} h => ?_, fun {ends ends' read rest rest' b} h hn hrest => ?_⟩
  · obtain ⟨a, mid, hpa, hfa⟩ := bind_eq_ok.1 h
    obtain ⟨read, rfl, hread, hend⟩ := hp.takes hpa
    obtain ⟨more, rfl, hmore, hend'⟩ := (hf a).takes hfa
    refine ⟨read ++ more, by simp, ?_, hend.append hend'⟩
    rw [unbroken_append, List.length_append]
    omega
  · obtain ⟨a, mid, hpa, hfa⟩ := bind_eq_ok.1 h
    obtain ⟨us, hus, hc, -⟩ := hp.takes hpa
    obtain ⟨vs, rfl, hd, -⟩ := (hf a).takes hfa
    rw [← List.append_assoc] at hus
    obtain rfl := List.append_cancel_right hus
    have hsolid := solid_length_le us
    rw [List.length_append] at hn
    rw [List.append_assoc] at hpa ⊢
    have hqa : q ends' (us ++ (vs ++ rest')) = .ok a (vs ++ rest') :=
      hp.carries hpa (by omega) (hS hfa hd hrest)
    rw [bind_of_ok hqa]
    exact (hf a).carries hfa (by omega) hrest

theorem bind {f g : α → Parser β} (hp : Local 0 n R p q) (hS : Bears d S R)
    (hf : ∀ a, Local d n S (f a) (g a)) : Local d n S (p >>= f) (q >>= g) := by
  have h := hp.bind_of hf fun _ hread hrest => hS hread hrest
  rwa [Nat.zero_add] at h

/-- Behind a token that is taken, the bound is one less. -/
theorem next {f g : α → Parser β} (hp : Local 1 n R p q) (hS : Bears d S R)
    (hf : ∀ a, Local d (n - 1) S (f a) (g a)) : Local 1 n S (p >>= f) (q >>= g) := by
  have h := hp.bind_of hf fun _ hread hrest => hS hread hrest
  exact h.weaken (Nat.le_refl n) (Nat.le_add_right 1 d) id

/-- A parser that sees nothing of the rest, and another one. -/
theorem andThen {f g : α → Parser β} (hp : Local 1 n Unseen p q)
    (hf : ∀ a, Local 0 (n - 1) S (f a) (g a)) : Local 1 n S (p >>= f) (q >>= g) :=
  hp.next (fun _ _ => trivial) hf

theorem ite {p' q' : Parser α} {b : Prop} [Decidable b] (h : Local d n R p q)
    (h' : Local d n R p' q') : Local d n R (if b then p else p') (if b then q else q') := by
  split
  · exact h
  · exact h'

/-- A loop that takes a token in every round. -/
theorem rounds {P Q : Nat → Parser α} {m k : Nat}
    (hzero : ∀ {ends ts a rest}, P 0 ends ts ≠ .ok a rest)
    (hsucc : ∀ {j m k}, j ≤ n → j ≤ m + 1 →
      (∀ {i m}, i ≤ n → i ≤ m → Local 1 i R (P k) (Q m)) → Local 1 j R (P (k + 1)) (Q (m + 1)))
    (hm : n ≤ m) : Local 1 n R (P k) (Q m) := by
  have all : ∀ k {j m}, j ≤ n → j ≤ m → Local 1 j R (P k) (Q m) := by
    intro k
    induction k with
    | zero => exact fun _ _ => of_fails hzero
    | succ k ih =>
      intro j m hj hm
      cases m with
      | zero =>
        obtain rfl := Nat.le_zero.1 hm
        have hone : Local 1 0 R (P (k + 1)) (Q 1) := hsucc hj (Nat.zero_le _) ih
        exact hone.at_zero
      | succ m => exact hsucc hj hm ih
  exact all k (Nat.le_refl n) hm

/-- A parser that is handed the length of its stream as a bound. -/
theorem sized {P : Nat → Parser α} (h : ∀ {n m k}, n ≤ m → Local d n R (P k) (P m)) :
    Local d n R (fun ends ts => P ts.length ends ts) (fun ends ts => P ts.length ends ts) where
  takes {ends ts a rest} hp := by
    have hown := h (k := ts.length) (Nat.le_refl ts.length)
    exact hown.takes hp
  carries {ends ends' read rest rest' a} hp _ hrest := by
    have hlength : read.length ≤ (read ++ rest').length := by simp
    have hown := h (k := (read ++ rest).length) hlength
    exact hown.carries hp (Nat.le_refl _) hrest

end Local

end Combinators

section Steps

variable {α β : Type} {d n : Nat} {R S : List Token → List Token → Prop}

theorem pure_local (a : α) : Local 0 n R (pure a : Parser α) (pure a) := by
  refine .of_read ?_
  rintro ends ts _ _ ⟨⟩
  exact ⟨[], rfl, Nat.zero_le _, List.forall_mem_nil _, fun _ _ => rfl⟩

theorem fail_local (complaint : Complaint) (suggestions : List Suggestion) {q : Parser α} :
    Local d n R (fail complaint suggestions) q :=
  .of_fails nofun

/-- What a single token makes of itself when it is taken. -/
theorem one_local {p : Parser α} {P : Token → α → Prop}
    (hp : ∀ {ends ts a rest}, p ends ts = .ok a rest ↔ ∃ t, P t a ∧ ts = t :: rest)
    (hsolid : ∀ {t a}, P t a → t.lexeme ≠ .newline ∧ t.lexeme ≠ .endOfInput) :
    Local 1 n Unseen p p := by
  refine .of_read fun {ends ts a rest} h => ?_
  obtain ⟨t, ht, rfl⟩ := hp.1 h
  obtain ⟨hnew, hend⟩ := hsolid ht
  refine ⟨[t], rfl, ?_, List.forall_mem_singleton.2 hend, fun _ _ => hp.2 ⟨t, ht, rfl⟩⟩
  simp [unbroken, hnew]

theorem kind_solid {k : Kind} (hk : k ≠ .newline ∧ k ≠ .endOfInput) {t : Token} (ht : t.kind = k) :
    t.lexeme ≠ .newline ∧ t.lexeme ≠ .endOfInput := by
  subst ht
  constructor
  · intro h
    exact hk.1 (Token.kind_eq_newline.2 h)
  · intro h
    exact hk.2 (by simp [Token.kind, h, Lexeme.kind])

theorem expect_local {k : Kind} (hk : k ≠ .newline ∧ k ≠ .endOfInput) (what : Expectation) :
    Local 1 n Unseen (expect k what) (expect k what) :=
  one_local expect_eq_ok fun ht => kind_solid hk ht

theorem identifier_local (what : Expectation) :
    Local 1 n Unseen (identifier what) (identifier what) :=
  one_local identifier_eq_ok fun ht => by simp [ht]

/-- A look at the first token. -/
theorem look_local (f : Option Token → α) :
    Local 0 n SameHead (fun _ ts => .ok (f ts.head?) ts : Parser α)
      (fun _ ts => .ok (f ts.head?) ts) := by
  refine .of_read ?_
  rintro ends ts _ _ ⟨⟩
  refine ⟨[], rfl, Nat.zero_le _, List.forall_mem_nil _, fun _ hrest => ?_⟩
  rw [List.nil_append, ← hrest]

theorem sees_local (k : Kind) : Local 0 n SameHead (sees k) (sees k) := look_local _

theorem atEnd_local : Local 0 n SameHead atEnd atEnd := look_local _

theorem skip_local {k : Kind} (hk : k ≠ .endOfInput) : Local 0 n SameHead (skip k) (skip k) := by
  refine .of_read fun {ends ts b rest} h => ?_
  cases b with
  | true =>
    obtain ⟨t, ht, rfl⟩ := skip_eq_true.1 h
    refine ⟨[t], rfl, Nat.zero_le _, List.forall_mem_singleton.2 ?_, fun _ _ =>
      skip_eq_true.2 ⟨t, ht, rfl⟩⟩
    intro hend
    rw [← ht] at hk
    exact hk (by simp [Token.kind, hend, Lexeme.kind])
  | false =>
    obtain ⟨rfl, hnot⟩ := skip_eq_false.1 h
    refine ⟨[], rfl, Nat.zero_le _, List.forall_mem_nil _, fun _ hrest => ?_⟩
    exact skip_eq_false.2 ⟨rfl, by rwa [List.nil_append, ← hrest]⟩

/-- Behind a token that is skipped nothing needs to be seen. -/
theorem skip_local_then {k : Kind} {f g : Bool → Parser β} (hk : k ≠ .newline ∧ k ≠ .endOfInput)
    (hS : Bears d S SameHead) (hd : d ≤ 1) (htrue : Local 0 n S (f true) (g true))
    (hfalse : Local d n S (f false) (g false)) :
    Local d n S (skip k >>= f) (skip k >>= g) := by
  refine .of_read fun {ends ts a rest} h => ?_
  obtain ⟨b, mid, hskip, hf⟩ := bind_eq_ok.1 h
  cases b with
  | true =>
    obtain ⟨t, ht, rfl⟩ := skip_eq_true.1 hskip
    obtain ⟨hnew, hinput⟩ := kind_solid hk ht
    obtain ⟨read, rfl, -, hend⟩ := htrue.takes hf
    refine ⟨t :: read, rfl, ?_, List.forall_mem_cons.2 ⟨hinput, hend⟩, fun hn hrest => ?_⟩
    · simp [unbroken, hnew]
      omega
    · rw [List.cons_append, bind_of_ok (skip_eq_true.2 ⟨t, ht, rfl⟩)]
      exact htrue.carries hf (Nat.le_of_succ_le hn) hrest
  | false =>
    obtain ⟨rfl, hnot⟩ := skip_eq_false.1 hskip
    obtain ⟨read, rfl, hd, hend⟩ := hfalse.takes hf
    refine ⟨read, rfl, hd, hend, fun {ends' rest'} hn hrest => ?_⟩
    have hhead : (read ++ rest).head? = (read ++ rest').head? := hS hd hrest
    rw [bind_of_ok (skip_eq_false.2 ⟨rfl, by rwa [← hhead]⟩)]
    exact hfalse.carries hf hn hrest

theorem endless_newlines (ts : List Token) : Endless (ts.takeWhile Token.isNewline) := by
  intro t ht hend
  have hnew : t.lexeme = .newline := by simpa using List.all_eq_true.1 List.all_takeWhile t ht
  rw [hnew] at hend
  cases hend

theorem takeWhile_breaks (ts : List Token) :
    Breaks ((ts.takeWhile Token.isNewline).map Token.lexeme) := by
  intro l hl
  obtain ⟨t, ht, rfl⟩ := List.mem_map.1 hl
  simpa using List.all_eq_true.1 List.all_takeWhile t ht

theorem skipNewlines_local : Local 0 n SameHead skipNewlines skipNewlines := by
  refine .of_read ?_
  rintro ends ts _ _ ⟨⟩
  refine ⟨ts.takeWhile Token.isNewline, List.takeWhile_append_dropWhile.symm, Nat.zero_le _,
    endless_newlines ts, fun {ends' rest'} _ hrest => ?_⟩
  rw [skipNewlines_apply, dropWhile_breaks (takeWhile_breaks ts)]
  intro t ht
  have hnot := List.head?_dropWhile_not Token.isNewline ts
  rw [← hrest, Option.mem_def] at ht
  rw [ht] at hnot
  simpa using hnot

/-- What is level has its ends outside. -/
theorem Level.endless {depth : Nat} {ls : List Lexeme} (h : Level depth ls) {ts : List Token}
    (hts : ts.map Token.lexeme = ls) : Endless ts := by
  intro t ht hend
  have hcut : cutStatement depth (ts ++ []) = none := h ts [] hts
  rw [List.append_nil] at hcut
  exact cutStatement_ne_none depth ⟨t, ht, hend⟩ hcut

def Ends (_ rest : List Token) : Prop := ∀ t ∈ rest.head?, t.lexeme.endsExpression

theorem expression_local : Local 1 n Ends expression expression := by
  refine .of_read fun {ends ts e rest} h => ?_
  obtain ⟨he, ls, ⟨read, rfl, hread⟩, hs⟩ := expression_reads h
  subst hread
  refine ⟨read, rfl, ?_, (Level.of_spelled hs 0).endless rfl, fun _ hrest =>
    expression_finds he hs (whole_ended hrest)⟩
  obtain ⟨l, ks, hl, ho⟩ := hs.first
  obtain ⟨t, us, rfl, rfl, -⟩ := List.map_eq_cons_iff.1 hl
  have hnew : t.isNewline = false := by
    rw [Token.isNewline_eq_false]
    intro hnew
    rw [hnew] at ho
    cases ho
  simp [unbroken, hnew]

end Steps

end Pasture.Grammar
