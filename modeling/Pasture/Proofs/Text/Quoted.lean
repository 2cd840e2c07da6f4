import Mathlib.Data.List.Basic
import Mathlib.Data.Nat.Digits.Defs
import Pasture.Text.Quoted

/-! # Quoted texts are told apart

Between the quotes every character stands for itself or has an escape, and an escape shows by its
second character where it ends. So a quoted text can be read back.
-/
namespace Pasture.Text.Quoted

def digitOf (c : Char) : Nat := if c.isDigit then c.toNat - '0'.toNat else c.toNat - 'a'.toNat + 10

def hexValue (digits : List Char) : Nat := digits.foldl (fun n c => 16 * n + digitOf c) 0

theorem digitOf_digitChar {n : Nat} (h : n < 16) : digitOf n.digitChar = n := by
  have hall : ∀ n : Fin 16, digitOf n.val.digitChar = n := by decide
  exact hall ⟨n, h⟩

theorem hexValue_toDigits (n : Nat) : hexValue (Nat.toDigits 16 n) = n := by
  induction n using Nat.strongRecOn with
  | ind n ih =>
    rw [Nat.toDigits_eq_if (by decide)]
    split
    · rename_i hn
      simp [hexValue, digitOf_digitChar hn]
    · have hrest := ih (n / 16) (by omega)
      rw [hexValue] at hrest
      rw [hexValue, List.foldl_append, hrest, List.foldl_cons, List.foldl_nil,
        digitOf_digitChar (by omega)]
      omega

theorem hexValue_hex (width n : Nat) : hexValue (hex width n) = n := by
  have hzeros : ∀ k, hexValue (List.replicate k '0') = 0 := by
    intro k
    induction k with
    | zero => rfl
    | succ k ih =>
      rw [hexValue] at ih
      rw [hexValue, List.replicate_succ', List.foldl_append, ih]
      decide
  have hdigits := hexValue_toDigits n
  have hfront := hzeros (width - (Nat.toDigits 16 n).length)
  rw [hexValue] at hdigits hfront
  rw [hex, hexValue, List.foldl_append, hfront, hdigits]

theorem length_hex {width n : Nat} (hwidth : 0 < width) (hn : n < 16 ^ width) :
    (hex width n).length = width := by
  have hfits := (Nat.length_toDigits_le_iff (by decide) hwidth).2 hn
  simp [hex, hfits]

def escapeWidth (mark : Char) : Nat :=
  if mark = 'x' then 2 else if mark = 'u' then 4 else if mark = 'U' then 8 else 0

def escaped (mark : Char) (digits : List Char) : Char :=
  if mark = 'n' then '\n'
  else if mark = 'r' then '\r'
  else if mark = 't' then '\t'
  else if escapeWidth mark = 0 then mark
  else Char.ofNat (hexValue digits)

def IsQuote (quote : Char) : Prop := quote = '\'' ∨ quote = '"'

theorem isQuote_quoteOf (text : List Char) : IsQuote (quoteOf text) := by
  unfold quoteOf
  split
  · exact .inr rfl
  · exact .inl rfl

variable {quote c d : Char} {s t u v : List Char}

/-- The two ways to write a character. -/
theorem escape_cases (hquote : IsQuote quote) (c : Char) :
    escape quote c = [c] ∧ c ≠ '\\' ∨
      ∃ mark digits, escape quote c = '\\' :: mark :: digits ∧
        digits.length = escapeWidth mark ∧ escaped mark digits = c := by
  have hcode : ∀ mark width, escapeWidth mark = width → 0 < width →
      escaped mark (hex width c.toNat) = Char.ofNat (hexValue (hex width c.toNat)) →
      c.toNat < 16 ^ width → (hex width c.toNat).length = escapeWidth mark ∧
        escaped mark (hex width c.toNat) = c := by
    intro mark width hmark hwidth hread hc
    rw [hread, hexValue_hex, Char.ofNat_toNat, hmark]
    exact ⟨length_hex hwidth hc, rfl⟩
  unfold escape
  split
  · rename_i hc
    refine .inr ⟨c, [], rfl, ?_⟩
    rcases hc with rfl | rfl
    · rcases hquote with rfl | rfl <;> decide
    · decide
  · rename_i hc
    have hback : c ≠ '\\' := fun h => hc (.inr h)
    split
    · rename_i hn
      exact .inr ⟨'n', [], rfl, by decide, hn.symm⟩
    split
    · rename_i hr
      exact .inr ⟨'r', [], rfl, by decide, hr.symm⟩
    split
    · rename_i ht
      exact .inr ⟨'t', [], rfl, by decide, ht.symm⟩
    split
    · exact .inl ⟨rfl, hback⟩
    split
    · rename_i hsmall
      exact .inr ⟨'x', _, rfl, hcode 'x' 2 rfl (by decide) rfl hsmall⟩
    split
    · rename_i hmiddle
      exact .inr ⟨'u', _, rfl, hcode 'u' 4 rfl (by decide) rfl hmiddle⟩
    · have hlarge : c.toNat < 16 ^ 8 := c.val.toNat_lt
      exact .inr ⟨'U', _, rfl, hcode 'U' 8 rfl (by decide) rfl hlarge⟩

/-- A written character determines both itself and where it ends. -/
theorem escape_append_unique (hquote : IsQuote quote) (h : escape quote c ++ s = escape quote d ++ t) :
    c = d ∧ s = t := by
  -- Only an escape starts with a backslash, so both characters are written in the same way.
  rcases escape_cases hquote c with ⟨hc, hback⟩ | ⟨m, ds, hc, hlength, hread⟩ <;>
    rcases escape_cases hquote d with ⟨hd, hback'⟩ | ⟨m', ds', hd, hlength', hread'⟩ <;>
    rw [hc, hd] at h
  · exact List.cons.inj h
  · exact absurd (List.cons.inj h).1 hback
  · exact absurd (List.cons.inj h).1.symm hback'
  · obtain ⟨rfl, hrest⟩ := List.cons.inj (List.cons.inj h).2
    obtain ⟨rfl, hst⟩ := List.append_inj hrest (hlength.trans hlength'.symm)
    exact ⟨hread.symm.trans hread', hst⟩

theorem flatMap_escape_unique (hquote : IsQuote quote)
    (h : s.flatMap (escape quote) = t.flatMap (escape quote)) : s = t := by
  have hne : ∀ c, escape quote c ≠ [] := by
    intro c hnil
    rcases escape_cases hquote c with ⟨hc, -⟩ | ⟨m, ds, hc, -⟩ <;> simp [hnil] at hc
  induction s generalizing t with
  | nil =>
    cases t with
    | nil => rfl
    | cons d t => simp [hne] at h
  | cons c s ih =>
    cases t with
    | nil => simp [hne] at h
    | cons d t =>
      obtain ⟨rfl, hst⟩ := escape_append_unique hquote h
      rw [ih hst]

theorem encodeChars_injective : Function.Injective encodeChars := by
  intro s t h
  obtain ⟨hquote, hrest⟩ := List.cons.inj h
  rw [hquote] at hrest
  exact flatMap_escape_unique (isQuote_quoteOf t) (List.append_cancel_right hrest)

/-- Two texts that are quoted alike are one text. -/
theorem encode_injective : Function.Injective encode := by
  intro s t h
  exact String.toList_injective (encodeChars_injective (String.ofList_injective h))

end Pasture.Text.Quoted
