import Mathlib.Data.List.Chain
import Pasture.Proofs.Grammar.Places

/-! # Normal forms of streams

A stream is normal if no newline in it is layout and no name in it goes on behind a dot. The normal
form of a stream is normal, and a normal stream is its own normal form.
-/
namespace Pasture

variable {s t : Token} {ts p : List Token}

/-- The second token stays behind the first: it is no newline that is layout, and no dot that goes on
with a name. -/
structure Token.Parted (s t : Token) : Prop where
  newline : s.absorbsNewline → t.lexeme ≠ .newline
  dot : ∀ i, s.lexeme = .identifier i → t.lexeme ≠ .symbol .dot

def Token.Bare (t : Token) : Prop := ∀ i, t.lexeme = .identifier i → t.text = none

structure IsNormal (ts : List Token) : Prop where
  parted : ts.IsChain Token.Parted
  bare : ∀ t ∈ ts, t.Bare

theorem IsNormal.tail (h : IsNormal (t :: ts)) : IsNormal ts := by
  obtain ⟨-, hparted⟩ := List.isChain_cons.1 h.parted
  exact ⟨hparted, fun u hu => h.bare u (List.mem_cons_of_mem t hu)⟩

theorem IsNormal.next (h : IsNormal (s :: t :: ts)) : s.Parted t :=
  (List.isChain_cons.1 h.parted).1 t rfl

theorem Token.not_absorbsNewline_of_name {i : Identifier} (ht : t.lexeme = .identifier i) :
    t.absorbsNewline = false := by
  simp [absorbsNewline, ht]

namespace Normal

/-! ### Newlines -/

theorem elide_cons_newline (ht : t.lexeme = .newline) : elide true (t :: ts) = elide true ts := by
  simp [elide, Token.isNewline_iff.2 ht]

theorem elide_cons (absorbing : Bool) (ht : t.lexeme ≠ .newline) :
    elide absorbing (t :: ts) = t :: elide t.absorbsNewline ts := by
  simp [elide, Token.isNewline_eq_false.2 ht]

/-- No newline of the rest is layout. -/
theorem elide_laid (absorbing : Bool) (ts : List Token) :
    (elide absorbing ts).IsChain (fun s t => s.absorbsNewline → t.lexeme ≠ .newline) ∧
      (absorbing → ∀ t ∈ (elide absorbing ts).head?, t.lexeme ≠ .newline) := by
  fun_induction elide absorbing ts with
  | case1 => exact ⟨.nil, by simp⟩
  | case2 absorbing t ts ht ih =>
    obtain ⟨hchain, hhead⟩ := ih
    exact ⟨hchain, fun _ => hhead rfl⟩
  | case3 absorbing t ts ht ih =>
    obtain ⟨hchain, hhead⟩ := ih
    refine ⟨List.isChain_cons.2 ⟨fun u hu habsorbs => hhead habsorbs u hu, hchain⟩, ?_⟩
    rintro rfl u ⟨⟩ hnew
    rw [Token.isNewline_iff.2 hnew] at ht
    exact ht rfl

theorem elide_of_normal {absorbing : Bool} (h : IsNormal ts)
    (hfirst : absorbing → ∀ t ∈ ts.head?, t.lexeme ≠ .newline) : elide absorbing ts = ts := by
  induction ts generalizing absorbing with
  | nil => rfl
  | cons t ts ih =>
    have hkept : (t.isNewline && absorbing) = false := by
      cases absorbing with
      | false => exact Bool.and_false _
      | true => simpa using hfirst rfl t rfl
    have hrest : elide t.absorbsNewline ts = ts := by
      apply ih h.tail
      intro habsorbs u hu
      obtain ⟨us, rfl⟩ := List.head?_eq_some_iff.1 hu
      exact h.next.newline habsorbs
    rw [elide, hkept, if_neg Bool.false_ne_true, hrest]

/-! ### Dotted names -/

theorem Chain.token_name (c : Chain) : ∃ i, c.token.lexeme = .identifier i := ⟨c.name, rfl⟩

theorem Chain.token_parted (c : Chain) (ht : t.lexeme ≠ .symbol .dot) : c.token.Parted t :=
  ⟨fun h => absurd h (by simp [Token.not_absorbsNewline_of_name (t := c.token) rfl]), fun _ _ => ht⟩

theorem Chain.token_bare (c : Chain) : c.token.Bare := fun _ _ => rfl

/-- A name that no other has been added to keeps its span. -/
theorem Chain.token_start {i : Identifier} (ht : t.lexeme = .identifier i) (hbare : t.Bare) :
    (Chain.start i t.span).token = t := by
  obtain ⟨l, span, text⟩ := t
  obtain rfl : l = .identifier i := ht
  obtain rfl : text = none := hbare i rfl
  cases span <;> rfl

theorem map_cons_ok {result : Except ParseError (List Token)}
    (h : (t :: ·) <$> result = .ok p) : ∃ q, result = .ok q ∧ p = t :: q := by
  cases result with
  | error e => cases h
  | ok q =>
    cases h
    exact ⟨q, rfl, rfl⟩

theorem fuse_cons_other (ht : ∀ i, t.lexeme ≠ .identifier i) :
    fuse .nothing (t :: ts) = (t :: ·) <$> fuse .nothing ts := by
  rw [fuse]
  split
  · rename_i i hi
    exact absurd hi (ht i)
  · rfl

theorem fuse_name_other {c : Chain} (hdot : t.lexeme ≠ .symbol .dot)
    (ht : ∀ i, t.lexeme ≠ .identifier i) :
    fuse (.name c) (t :: ts) = (c.token :: t :: ·) <$> fuse .nothing ts := by
  rw [fuse]
  split
  · exact absurd ‹_› hdot
  · rename_i i hi
    exact absurd hi (ht i)
  · rfl

def Leads (o : Open) (ts p : List Token) : Prop :=
  ∀ u ∈ p.head?, (∃ i, u.lexeme = .identifier i) ∨ o = .nothing ∧ u ∈ ts.head?

theorem Leads.parted (ht : ∀ i, t.lexeme ≠ .identifier i)
    (hlaid : ∀ u ∈ ts.head?, t.absorbsNewline → u.lexeme ≠ .newline)
    (h : Leads .nothing ts p) : ∀ u ∈ p.head?, t.Parted u := by
  intro u hu
  refine ⟨fun habsorbs => ?_, fun i hi => absurd hi (ht i)⟩
  rcases h u hu with ⟨i, hi⟩ | ⟨-, hfirst⟩
  · simp [hi]
  · exact hlaid u hfirst habsorbs

/-- By induction on the stream, with what is open in front of it. A name ends only where no dot
follows, and the tokens that take the place of dotted names are names. -/
theorem fuse_normal {o : Open} (h : fuse o ts = .ok p)
    (hlaid : ts.IsChain fun s t => s.absorbsNewline → t.lexeme ≠ .newline) :
    IsNormal p ∧ Leads o ts p := by
  -- a token that is no name is kept in front of what follows it
  have kept : ∀ {t : Token} {ts q : List Token}, (∀ i, t.lexeme ≠ .identifier i) →
      (t :: ts).IsChain (fun s t => s.absorbsNewline → t.lexeme ≠ .newline) →
      IsNormal q ∧ Leads .nothing ts q → IsNormal (t :: q) := by
    intro t ts q ht hlaid ⟨hq, hleads⟩
    obtain ⟨hnext, -⟩ := List.isChain_cons.1 hlaid
    refine ⟨List.isChain_cons.2 ⟨hleads.parted ht hnext, hq.parted⟩, ?_⟩
    exact List.forall_mem_cons.2 ⟨fun i hi => absurd hi (ht i), hq.bare⟩
  have named : ∀ {c : Chain} {q : List Token}, IsNormal q →
      (∀ u ∈ q.head?, u.lexeme ≠ .symbol .dot) → IsNormal (c.token :: q) := by
    intro c q hq hfirst
    refine ⟨List.isChain_cons.2 ⟨fun u hu => c.token_parted (hfirst u hu), hq.parted⟩, ?_⟩
    exact List.forall_mem_cons.2 ⟨c.token_bare, hq.bare⟩
  have single : ∀ t : Token, t.Bare → IsNormal [t] := fun t ht => ⟨.singleton t, by simpa using ht⟩
  fun_induction fuse o ts generalizing p with
  | case1 =>
    cases h
    exact ⟨⟨.nil, by simp⟩, by simp [Leads]⟩
  | case2 c =>
    cases h
    exact ⟨single _ c.token_bare, by rintro u ⟨⟩; exact .inl c.token_name⟩
  | case3 => cases h
  | case4 t ts i hi ih =>
    obtain ⟨hp, hleads⟩ := ih h (List.isChain_cons.1 hlaid).2
    refine ⟨hp, fun u hu => ?_⟩
    exact (hleads u hu).imp_right fun hfirst => absurd hfirst.1 (by simp)
  | case5 t ts hname ih =>
    obtain ⟨q, hq, rfl⟩ := map_cons_ok h
    refine ⟨kept hname hlaid (ih hq (List.isChain_cons.1 hlaid).2), ?_⟩
    rintro u ⟨⟩
    exact .inr ⟨rfl, rfl⟩
  | case6 c t ts hdot ih =>
    obtain ⟨hp, hleads⟩ := ih h (List.isChain_cons.1 hlaid).2
    refine ⟨hp, fun u hu => ?_⟩
    exact (hleads u hu).imp_right fun hfirst => absurd hfirst.1 (by simp)
  | case7 c t ts i hi ih =>
    obtain ⟨q, hq, rfl⟩ := map_cons_ok h
    obtain ⟨hp, hleads⟩ := ih hq (List.isChain_cons.1 hlaid).2
    refine ⟨named hp fun u hu => ?_, by rintro u ⟨⟩; exact .inl c.token_name⟩
    rcases hleads u hu with ⟨j, hj⟩ | ⟨hopen, -⟩
    · simp [hj]
    · cases hopen
  | case8 c t ts hdot hname ih =>
    obtain ⟨r, hr, rfl⟩ := map_cons_ok ((comp_map _ _ _).symm.trans h)
    obtain ⟨q, hq, rfl⟩ := map_cons_ok hr
    have hkept : IsNormal (t :: q) := kept hname hlaid (ih hq (List.isChain_cons.1 hlaid).2)
    refine ⟨named hkept ?_, by rintro u ⟨⟩; exact .inl c.token_name⟩
    rintro u ⟨⟩
    exact hdot
  | case9 c dot t ts i hi ih =>
    obtain ⟨hp, hleads⟩ := ih h (List.isChain_cons.1 hlaid).2
    refine ⟨hp, fun u hu => ?_⟩
    exact (hleads u hu).imp_right fun hfirst => absurd hfirst.1 (by simp)
  | case10 => cases h

/-- By induction on the stream, with nothing or with one of its names open in front of it. -/
theorem fuse_of_normal_open (ts : List Token) :
    (IsNormal ts → fuse .nothing ts = .ok ts) ∧
      ∀ t i, t.lexeme = .identifier i → IsNormal (t :: ts) →
        fuse (.name (.start i t.span)) ts = .ok (t :: ts) := by
  induction ts with
  | nil =>
    refine ⟨fun _ => by rw [fuse], fun t i ht h => ?_⟩
    rw [fuse, Chain.token_start ht (h.bare t List.mem_cons_self)]
  | cons u us ih =>
    obtain ⟨hclosed, hopen⟩ := ih
    constructor
    · intro h
      by_cases hname : ∃ i, u.lexeme = .identifier i
      · obtain ⟨i, hi⟩ := hname
        simp only [fuse, hi]
        exact hopen u i hi h
      · rw [fuse_cons_other (not_exists.1 hname), hclosed h.tail]
        rfl
    · intro t i ht h
      have hdot : u.lexeme ≠ .symbol .dot := h.next.dot i ht
      have htoken : (Chain.start i t.span).token = t :=
        Chain.token_start ht (h.bare t List.mem_cons_self)
      by_cases hname : ∃ j, u.lexeme = .identifier j
      · obtain ⟨j, hj⟩ := hname
        simp only [fuse, hj]
        rw [hopen u j hj h.tail, htoken]
        rfl
      · rw [fuse_name_other hdot (not_exists.1 hname), hclosed h.tail.tail, htoken]
        rfl

theorem fuse_of_normal (h : IsNormal ts) : fuse .nothing ts = .ok ts :=
  (fuse_of_normal_open ts).1 h

end Normal

theorem normalise_normal (h : normalise ts = .ok p) : IsNormal p :=
  (Normal.fuse_normal h (Normal.elide_laid false ts).1).1

theorem normalise_of_normal (h : IsNormal ts) : normalise ts = .ok ts := by
  rw [normalise, Normal.elide_of_normal h fun habsorbs => absurd habsorbs Bool.false_ne_true]
  exact Normal.fuse_of_normal h

/-- The normal form of a stream is its own normal form, with every span. -/
theorem normalise_idempotent {tokens normal : List Token} (h : normalise tokens = .ok normal) :
    normalise normal = .ok normal :=
  normalise_of_normal (normalise_normal h)

theorem normalise_idempotent_dotted :
    normalise [.plain (.symbol .comma) none, .plain .newline none,
        .plain (.identifier (.simple "a")) (some ⟨"f", 1, 1, 1, 1⟩), .plain (.symbol .dot) none,
        .plain (.identifier (.simple "b")) (some ⟨"f", 1, 3, 1, 3⟩), .plain .newline none] =
      .ok [.plain (.symbol .comma) none,
        .plain (.identifier ⟨"a", ["b"]⟩) (some ⟨"f", 1, 1, 1, 3⟩), .plain .newline none] ∧
    normalise [.plain (.symbol .comma) none,
        .plain (.identifier ⟨"a", ["b"]⟩) (some ⟨"f", 1, 1, 1, 3⟩), .plain .newline none] =
      .ok [.plain (.symbol .comma) none,
        .plain (.identifier ⟨"a", ["b"]⟩) (some ⟨"f", 1, 1, 1, 3⟩), .plain .newline none] := by
  have h : normalise [.plain (.symbol .comma) none, .plain .newline none,
        .plain (.identifier (.simple "a")) (some ⟨"f", 1, 1, 1, 1⟩), .plain (.symbol .dot) none,
        .plain (.identifier (.simple "b")) (some ⟨"f", 1, 3, 1, 3⟩), .plain .newline none] =
      .ok [.plain (.symbol .comma) none,
        .plain (.identifier ⟨"a", ["b"]⟩) (some ⟨"f", 1, 1, 1, 3⟩), .plain .newline none] := by rfl
  exact ⟨h, normalise_idempotent h⟩

end Pasture
