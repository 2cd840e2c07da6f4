import Pasture.Proofs.Lexing.Lexemes
import Pasture.Proofs.Lexing.Tiling

/-! # The values of quoted literals

Between its quotes a literal spells its value item by item. The first quote that is no part of an
item ends it, and a backslash in front of a character without a meaning is refused.
-/
namespace Pasture.Lexing

def escapes : List (Char × Char) :=
  [('n', '\n'), ('r', '\r'), ('t', '\t'), ('\'', '\''), ('"', '"'), ('\\', '\\'), ('0', '\x00')]

/-- The text spells the value in a literal that `close` ends: each item is a character that stands
for itself, or a backslash and a character that has a meaning behind it. -/
inductive Spells (close : Char) : List Char → List Char → Prop where
  | nil : Spells close [] []
  | plain {c text value} : c ≠ close → c ≠ '\\' → Spells close text value →
      Spells close (c :: text) (c :: value)
  | escaped {mark c text value} : (mark, c) ∈ escapes → Spells close text value →
      Spells close ('\\' :: mark :: text) (c :: value)

variable {close c mark : Char} {cs text value rest : List Char} {p : Piece}

theorem escapeValue?_eq_some : escapeValue? mark = some c ↔ (mark, c) ∈ escapes := by
  unfold escapeValue?
  split <;> simp_all [escapes, eq_comm]

theorem escapeValue?_eq_none : escapeValue? mark = none ↔ ∀ c, (mark, c) ∉ escapes := by
  simp only [Option.eq_none_iff_forall_ne_some, ne_eq, escapeValue?_eq_some]

theorem spells_items {items : List Item} (h : ∀ i ∈ items, i.Encodes close) :
    Spells close (items.flatMap Item.text) (items.map Item.value) := by
  induction items with
  | nil => exact .nil
  | cons i items ih =>
    obtain ⟨hi, hitems⟩ := List.forall_mem_cons.1 h
    cases i with
    | plain c =>
      obtain ⟨hclose, hback⟩ := hi
      exact .plain hclose hback (ih hitems)
    | escaped mark value => exact .escaped (escapeValue?_eq_some.1 hi) (ih hitems)

theorem Spells.items (h : Spells close text value) :
    ∃ items : List Item, (∀ i ∈ items, i.Encodes close) ∧ items.flatMap Item.text = text ∧
      items.map Item.value = value := by
  induction h with
  | nil => exact ⟨[], by simp, rfl, rfl⟩
  | @plain c text value hclose hback _ ih =>
    obtain ⟨items, hitems, rfl, rfl⟩ := ih
    exact ⟨.plain c :: items, List.forall_mem_cons.2 ⟨⟨hclose, hback⟩, hitems⟩, rfl, rfl⟩
  | @escaped mark c text value hmark _ ih =>
    obtain ⟨items, hitems, rfl, rfl⟩ := ih
    have hitem : (Item.escaped mark c).Encodes close := escapeValue?_eq_some.2 hmark
    exact ⟨.escaped mark c :: items, List.forall_mem_cons.2 ⟨hitem, hitems⟩, rfl, rfl⟩

/-- A backslash that ends the items has a character without a meaning behind it. -/
theorem Item.run_blocked (hclose : close ≠ '\\') {more : List Char}
    (h : (run close cs).2 = '\\' :: mark :: more) : escapeValue? mark = none := by
  fun_induction run close cs with
  | case1 | case2 => cases h
  | case3 mark' cs value hvalue items rest hrun ih =>
    rw [hrun] at ih
    exact ih h
  | case4 mark' cs hnone =>
    cases h
    exact hnone
  | case5 =>
    cases h
    exact absurd rfl hclose
  | case6 c cs hlast hpair hc items rest hrun ih =>
    rw [hrun] at ih
    exact ih h

namespace Piece

theorem string_eq_ok_iff_spells :
    string cs = .ok (p, rest) ↔ ∃ text value, Spells '"' text value ∧ cs = text ++ '"' :: rest ∧
      p = ⟨.lexeme (.literal (.string (some (String.ofList value)))), '"' :: text ++ ['"']⟩ := by
  rw [string_eq_ok_iff]
  constructor
  · rintro ⟨items, hitems, hcs, hp⟩
    exact ⟨_, _, spells_items hitems, hcs, hp⟩
  · rintro ⟨text, value, hspells, hcs, hp⟩
    obtain ⟨items, hitems, rfl, rfl⟩ := hspells.items
    exact ⟨items, hitems, hcs, hp⟩

theorem character_eq_ok_iff_spells :
    character cs = .ok (p, rest) ↔ ∃ text c, Spells '\'' text [c] ∧ cs = text ++ '\'' :: rest ∧
      p = ⟨.lexeme (.literal (.char (some c.toString))), '\'' :: text ++ ['\'']⟩ := by
  rw [character_eq_ok_iff]
  constructor
  · rintro ⟨item, hitem, hcs, hp⟩
    have hspells : Spells '\'' ([item].flatMap Item.text) [item.value] :=
      spells_items (by simpa using hitem)
    rw [List.flatMap_singleton] at hspells
    exact ⟨item.text, item.value, hspells, hcs, hp⟩
  · rintro ⟨text, c, hspells, hcs, hp⟩
    obtain ⟨items, hitems, rfl, hvalue⟩ := hspells.items
    obtain ⟨item, rfl, rfl⟩ := List.map_eq_singleton_iff.1 hvalue
    rw [List.flatMap_singleton] at hcs hp
    exact ⟨item, hitems item (List.mem_singleton_self item), hcs, hp⟩

/-- What is no string literal is refused at a backslash or for the end of the text, behind the items
in front of it. -/
theorem string_fails
    (h : ∀ text value rest, Spells '"' text value → cs ≠ text ++ '"' :: rest) :
    ∃ cause before text value, string cs = .error (.malformed cause before) ∧
      Spells '"' text value ∧
      ((∃ mark more, cs = text ++ '\\' :: mark :: more ∧ (∀ c, (mark, c) ∉ escapes) ∧
          cause = .unknownEscape mark ∧ before = '"' :: text) ∨
        (cs = text ∨ cs = text ++ ['\\']) ∧ cause.atEnd) := by
  have htext := Item.run_append '"' cs
  have hspells := spells_items (Item.run_encodes '"' cs)
  have hstops := Item.run_stops '"' cs
  simp only [string]
  split
  · rename_i hrest
    rw [hrest, List.append_nil] at htext
    exact ⟨_, _, _, _, rfl, hspells, .inr ⟨.inl htext.symm, rfl⟩⟩
  · rename_i hrest
    rw [hrest] at htext
    exact ⟨_, _, _, _, rfl, hspells, .inr ⟨.inr htext.symm, rfl⟩⟩
  · rename_i mark more hrest
    have hmark := Item.run_blocked (by decide) hrest
    rw [hrest] at htext
    exact ⟨_, _, _, _, rfl, hspells,
      .inl ⟨mark, more, htext.symm, escapeValue?_eq_none.1 hmark, rfl, rfl⟩⟩
  · rename_i quote more hlast hpair hrest
    rw [hrest] at htext hstops
    have hquote : quote = '"' := (hstops quote rfl).resolve_right (ne_backslash hlast hpair)
    rw [hquote] at htext
    exact absurd htext.symm (h _ _ more hspells)

end Piece

/-- The items of a literal are decoded, and nothing else is a literal: a string ends with the first
quote that is no part of an item, and is refused where there is none, and a character literal has
one item. Whatever follows a string, it is the first token with its value. -/
theorem quoted_decoded (cs : List Char) :
    (∀ p rest, Piece.first '"' cs = .ok (p, rest) ↔
      ∃ text value, Spells '"' text value ∧ cs = text ++ '"' :: rest ∧
        p = ⟨.lexeme (.literal (.string (some (String.ofList value)))), '"' :: text ++ ['"']⟩) ∧
    ((∀ text value rest, Spells '"' text value → cs ≠ text ++ '"' :: rest) →
      ∃ cause before text value, Piece.first '"' cs = .error (.malformed cause before) ∧
        Spells '"' text value ∧
        ((∃ mark more, cs = text ++ '\\' :: mark :: more ∧ (∀ c, (mark, c) ∉ escapes) ∧
            cause = .unknownEscape mark ∧ before = '"' :: text) ∨
          (cs = text ∨ cs = text ++ ['\\']) ∧ cause.atEnd)) ∧
    (∀ p rest, Piece.first '\'' cs = .ok (p, rest) ↔
      ∃ text c, Spells '\'' text [c] ∧ cs = text ++ '\'' :: rest ∧
        p = ⟨.lexeme (.literal (.char (some c.toString))), '\'' :: text ++ ['\'']⟩) ∧
    ∀ (v : String) text more file, Spells '"' text v.toList →
      ∃ s, (tokensBefore (String.ofList ('"' :: text ++ '"' :: more)) file).head? =
          some (.plain (.literal (.string (some v))) s) ∧
        ∀ tokens, lex (String.ofList ('"' :: text ++ '"' :: more)) file = .ok tokens →
          tokens.head? = some (.plain (.literal (.string (some v))) s) := by
  refine ⟨fun p rest => Piece.string_eq_ok_iff_spells, Piece.string_fails,
    fun p rest => Piece.character_eq_ok_iff_spells, ?_⟩
  intro v text more file hspells
  have hfirst : Piece.first '"' (text ++ '"' :: more) =
      .ok (⟨.lexeme (.literal (.string (some v))), '"' :: text ++ ['"']⟩, more) :=
    Piece.string_eq_ok_iff_spells.2 ⟨text, _, hspells, rfl, by rw [String.ofList_toList]⟩
  have hscan := scan_cons hfirst
  have hhead : ∃ s ts, tokensBefore (String.ofList ('"' :: text ++ '"' :: more)) file =
      .plain (.literal (.string (some v))) s :: ts := by
    rw [tokensBefore, String.toList_ofList, List.cons_append, hscan]
    exact ⟨_, _, rfl⟩
  obtain ⟨s, ts, hts⟩ := hhead
  refine ⟨s, by rw [hts]; rfl, ?_⟩
  intro tokens hlex
  obtain ⟨-, rfl⟩ := lex_eq_ok.1 hlex
  change (tokensBefore _ file ++ _).head? = _
  rw [hts]
  rfl

/-- The string `"\"\\⏎"` in front of a literal that is cut short. -/
theorem quoted_decoded_quote :
    Spells '"' ['\\', '"', '\\', '\\', '\n'] "\"\\\n".toList ∧
      ∃ s, (tokensBefore (String.ofList ['"', '\\', '"', '\\', '\\', '\n', '"', '\'']) "f").head? =
        some (.plain (.literal (.string (some "\"\\\n"))) s) := by
  have hspells : Spells '"' ['\\', '"', '\\', '\\', '\n'] "\"\\\n".toList :=
    .escaped (by decide) <| .escaped (by decide) <| .plain (by decide) (by decide) .nil
  obtain ⟨-, -, -, hvalue⟩ := quoted_decoded []
  obtain ⟨s, hs, -⟩ := hvalue "\"\\\n" _ ['\''] "f" hspells
  exact ⟨hspells, s, hs⟩

end Pasture.Lexing
