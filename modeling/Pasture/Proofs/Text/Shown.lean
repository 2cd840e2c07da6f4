import Mathlib.Data.List.Basic
import Mathlib.Data.Nat.Digits.Defs
import Pasture.Diagnostic.Renderer

/-! # Numbers and runs of one character in a text -/
namespace Pasture.Text

@[simp] theorem toList_pushn (c : Char) (n : Nat) : ("".pushn c n).toList = List.replicate n c := by
  rw [String.pushn_eq_repeat_push]
  induction n with
  | zero => rfl
  | succ n ih => simp [Nat.repeat, ih, List.replicate_succ']

/-- An integer is written with digits, behind a minus sign if it is negative. -/
theorem toList_intToString (n : Int) : (toString n).toList =
    if 0 ≤ n then Nat.toDigits 10 n.toNat else '-' :: Nat.toDigits 10 (-n).toNat := by
  rw [Int.toString_eq_repr, Int.repr_eq_if]
  split <;> simp [Nat.repr_eq_ofList_toDigits]

theorem isDigit_of_mem_intToString {n : Int} {c : Char} (h : c ∈ (toString n).toList) :
    c.isDigit ∨ c = '-' := by
  rw [toList_intToString] at h
  have hdigit : ∀ k, c ∈ Nat.toDigits 10 k → c.isDigit := fun _ =>
    Nat.isDigit_of_mem_toDigits (Nat.succ_pos 9) (Nat.le_refl 10)
  split at h
  · exact .inl (hdigit _ h)
  · rcases List.mem_cons.1 h with rfl | h
    · exact .inr rfl
    · exact .inl (hdigit _ h)

theorem toDigits_injective : Function.Injective (Nat.toDigits 10) := by
  intro m n h
  have hvalue := congrArg (Nat.ofDigitChars 10 · 0) h
  simpa only [Nat.ofDigitChars_ten_toDigits] using hvalue

theorem intToString_injective : Function.Injective (toString : Int → String) := by
  intro m n h
  have hchars := congrArg String.toList h
  rw [toList_intToString, toList_intToString] at hchars
  have hminus : ∀ {k : Nat} {cs : List Char}, Nat.toDigits 10 k ≠ '-' :: cs := by
    intro k cs hk
    have hdigit := Nat.isDigit_of_mem_toDigits (Nat.succ_pos 9) (Nat.le_refl 10)
      (hk ▸ List.mem_cons_self)
    exact absurd hdigit (by decide)
  split at hchars <;> split at hchars
  · have hvalue := toDigits_injective hchars
    omega
  · exact absurd hchars hminus
  · exact absurd hchars.symm hminus
  · have hvalue := toDigits_injective (List.cons.inj hchars).2
    omega

end Pasture.Text
