import Pasture.Proofs.Grammar.Yield

/-! # Brackets

Lexemes are bracketed if every parenthesis and every square bracket is closed by one of its kind and
line breaks stand between brackets only. Reading from the left with a stack of the brackets that are
open decides it. Expressions are bracketed.
-/
namespace Pasture

def Symbol.closer? : Symbol → Option Symbol
  | .lparen => some .rparen
  | .lbracket => some .rbracket
  | _ => none

theorem Symbol.closer?_eq_some {opener closer : Symbol} : opener.closer? = some closer ↔
    opener = .lparen ∧ closer = .rparen ∨ opener = .lbracket ∧ closer = .rbracket := by
  cases opener <;> cases closer <;> simp [closer?]

def Lexeme.isInline : Lexeme → Bool
  | .newline | .endOfInput | .symbol .lbrace | .symbol .rbrace => false
  | .symbol .lparen | .symbol .rparen | .symbol .lbracket | .symbol .rbracket => false
  | _ => true

/-- Brackets are nested and closed in their kinds; `inside` allows for line breaks that are in none
of these brackets. -/
inductive Bracketed : Bool → List Lexeme → Prop where
  | nil {inside : Bool} : Bracketed inside []
  | inline {inside : Bool} {l : Lexeme} {ls : List Lexeme} : l.isInline → Bracketed inside ls →
      Bracketed inside (l :: ls)
  | newline {ls : List Lexeme} : Bracketed true ls → Bracketed true (.newline :: ls)
  | pair {inside : Bool} {opener closer : Symbol} {ls ks : List Lexeme} :
      opener.closer? = some closer → Bracketed true ls → Bracketed inside ks →
      Bracketed inside (.symbol opener :: (ls ++ .symbol closer :: ks))

/-- The lexemes close the brackets of the stack, the first of it first. -/
inductive Nested : List Symbol → List Lexeme → Prop where
  | nil : Nested [] []
  | inline {stack : List Symbol} {l : Lexeme} {ls : List Lexeme} : l.isInline → Nested stack ls →
      Nested stack (l :: ls)
  | newline {stack : List Symbol} {ls : List Lexeme} : stack ≠ [] → Nested stack ls →
      Nested stack (.newline :: ls)
  | push {stack : List Symbol} {opener closer : Symbol} {ls : List Lexeme} :
      opener.closer? = some closer → Nested (closer :: stack) ls →
      Nested stack (.symbol opener :: ls)
  | pop {stack : List Symbol} {opener closer : Symbol} {ls : List Lexeme} :
      opener.closer? = some closer → Nested stack ls →
      Nested (closer :: stack) (.symbol closer :: ls)

/-- The stack in pieces: what stands in front of the closing bracket of each open one, and what
stands behind the last. -/
def Closes : List Symbol → List Lexeme → Prop
  | [], ls => Bracketed false ls
  | closer :: stack, ls => ∃ inner rest, ls = inner ++ .symbol closer :: rest ∧
      Bracketed true inner ∧ Closes stack rest

variable {inside : Bool} {stack : List Symbol} {ls ks : List Lexeme}

namespace Bracketed

theorem append (h : Bracketed inside ls) (k : Bracketed inside ks) :
    Bracketed inside (ls ++ ks) := by
  induction h with
  | nil => exact k
  | inline hl _ ih => exact .inline hl (ih k)
  | newline _ ih => exact .newline (ih k)
  | pair ho hinner _ _ ih => simpa using Bracketed.pair ho hinner (ih k)

theorem inner (h : Bracketed false ls) : Bracketed true ls := by
  generalize hinside : false = inside at h
  induction h with
  | nil => exact .nil
  | inline hl _ ih => exact .inline hl (ih hinside)
  | newline => cases hinside
  | pair ho hinner _ _ ih => exact .pair ho hinner (ih hinside)

theorem enclosed {opener closer : Symbol} (ho : opener.closer? = some closer)
    (h : Bracketed true ls) : Bracketed inside (.symbol opener :: ls ++ [.symbol closer]) :=
  .pair ho h .nil

theorem of_breaks (h : Breaks ls) : Bracketed true ls := by
  induction ls with
  | nil => exact .nil
  | cons l ls ih =>
    obtain rfl := h l List.mem_cons_self
    exact .newline (ih fun k hk => h k (List.mem_cons_of_mem _ hk))

theorem of_broken {parts : List (List Lexeme)} (hparts : ∀ part ∈ parts, Bracketed true part)
    (h : Broken parts ls) : Bracketed true ls := by
  induction h with
  | none hb => exact .of_breaks hb
  | last hb ha =>
    exact ((Bracketed.of_breaks hb).append (hparts _ List.mem_cons_self)).append (.of_breaks ha)
  | more hb ha _ ih =>
    have hpart := hparts _ List.mem_cons_self
    have hmore := ih fun part hp => hparts part (List.mem_cons_of_mem _ hp)
    exact (((Bracketed.of_breaks hb).append hpart).append (.of_breaks ha)).append
      (.inline rfl hmore)

theorem of_items {α : Type} {as : List α} {parts : List (List Lexeme)}
    (hlen : as.length = parts.length) (hparts : ∀ p ∈ as.zip parts, Bracketed true p.2)
    (h : Broken parts ls) : Bracketed true ls := by
  refine .of_broken (fun part hp => ?_) h
  rw [← List.map_snd_zip (Nat.le_of_eq hlen.symm)] at hp
  obtain ⟨p, hq, rfl⟩ := List.mem_map.1 hp
  exact hparts p hq

theorem of_spelled {e : Expr} (h : e.Spelled ls) : Bracketed false ls := by
  induction h with
  | ternary _ _ _ hc ht hf => exact (hc.append (.inline rfl ht)).append (.inline rfl hf)
  | binary _ _ hl hr => exact hl.append (.inline rfl hr)
  | unary _ ih => exact .inline rfl ih
  | literal | name => exact .inline rfl .nil
  | call hlen _ hb ih =>
    exact .inline rfl (.enclosed rfl (.of_items hlen (fun p hp => (ih p hp).inner) hb))
  | group _ ih => exact .enclosed rfl ih.inner
  | array hlen _ hb ih => exact .enclosed rfl (.of_items hlen (fun p hp => (ih p hp).inner) hb)
  | single _ _ hb hv => simpa using hb.append (.enclosed rfl hv.inner)
  | @slice base start stop bs ls rs _ hs _ ht _ hb ihs iht =>
    have hstart : Bracketed false ls := by
      cases start with
      | none => exact hs rfl ▸ .nil
      | some e => exact ihs e rfl
    have hstop : Bracketed false rs := by
      cases stop with
      | none => exact ht rfl ▸ .nil
      | some e => exact iht e rfl
    have hindex : Bracketed false (ls ++ .symbol .colon :: rs) := hstart.append (.inline rfl hstop)
    simpa using hb.append (.enclosed rfl hindex.inner)

/-- No end of the input is bracketed, and no brace. -/
theorem excludes {l : Lexeme} (h : Bracketed inside ls) (hl : l ∈ ls) :
    l ≠ .endOfInput ∧ l ≠ .symbol .lbrace ∧ l ≠ .symbol .rbrace := by
  induction h with
  | nil => cases hl
  | inline hinline _ ih =>
    rcases List.mem_cons.1 hl with rfl | hl
    · refine ⟨?_, ?_, ?_⟩ <;> rintro rfl <;> cases hinline
    · exact ih hl
  | newline _ ih =>
    rcases List.mem_cons.1 hl with rfl | hl
    · simp
    · exact ih hl
  | pair ho _ _ ihinner ih =>
    rcases Symbol.closer?_eq_some.1 ho with ⟨rfl, rfl⟩ | ⟨rfl, rfl⟩ <;>
    · simp only [List.mem_cons, List.mem_append] at hl
      rcases hl with rfl | hl | rfl | hl
      · simp
      · exact ihinner hl
      · simp
      · exact ih hl

end Bracketed

/-! ### The stack -/

theorem Nested.of_bracketed (h : Bracketed inside ls) (hstack : inside → stack ≠ [])
    (hrest : Nested stack ks) : Nested stack (ls ++ ks) := by
  induction h generalizing stack ks with
  | nil => exact hrest
  | inline hl _ ih => exact .inline hl (ih hstack hrest)
  | newline _ ih => exact .newline (hstack rfl) (ih hstack hrest)
  | @pair inside opener closer ls others ho _ _ ihinner ih =>
    have hbehind : Nested (closer :: stack) (.symbol closer :: (others ++ ks)) :=
      .pop ho (ih hstack hrest)
    simpa using Nested.push ho (ihinner (fun _ => List.cons_ne_nil _ _) hbehind)

theorem Closes.inline {l : Lexeme} (hl : l.isInline) (h : Closes stack ls) :
    Closes stack (l :: ls) := by
  cases stack with
  | nil => exact Bracketed.inline hl h
  | cons closer stack =>
    obtain ⟨inner, rest, rfl, hinner, hrest⟩ := h
    exact ⟨l :: inner, rest, rfl, .inline hl hinner, hrest⟩

theorem Closes.newline (hstack : stack ≠ []) (h : Closes stack ls) :
    Closes stack (.newline :: ls) := by
  cases stack with
  | nil => exact absurd rfl hstack
  | cons closer stack =>
    obtain ⟨inner, rest, rfl, hinner, hrest⟩ := h
    exact ⟨.newline :: inner, rest, rfl, .newline hinner, hrest⟩

theorem Closes.push {opener closer : Symbol} (ho : opener.closer? = some closer)
    (h : Closes (closer :: stack) ls) : Closes stack (.symbol opener :: ls) := by
  obtain ⟨inner, rest, rfl, hinner, hrest⟩ := h
  cases stack with
  | nil => exact Bracketed.pair ho hinner hrest
  | cons outer stack =>
    obtain ⟨behind, rest, rfl, hbehind, hrest⟩ := hrest
    exact ⟨.symbol opener :: (inner ++ .symbol closer :: behind), rest, by simp,
      .pair ho hinner hbehind, hrest⟩

theorem Closes.of_nested (h : Nested stack ls) : Closes stack ls := by
  induction h with
  | nil => exact Bracketed.nil
  | inline hl _ ih => exact ih.inline hl
  | newline hstack _ ih => exact ih.newline hstack
  | push ho _ ih => exact ih.push ho
  | pop _ _ ih => exact ⟨[], _, rfl, .nil, ih⟩

/-- Lexemes are bracketed if and only if the stack is empty at their end. -/
theorem nested_nil_iff : Nested [] ls ↔ Bracketed false ls := by
  constructor
  · exact Closes.of_nested
  · intro h
    simpa using Nested.of_bracketed h nofun .nil

end Pasture
