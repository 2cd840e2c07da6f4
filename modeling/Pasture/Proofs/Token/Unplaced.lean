import Pasture.Proofs.Lexing.Layout
import Pasture.Proofs.Token.Normal

/-! # Streams without places

The normal form of a stream without places is that of the stream, without places. Newlines that are
layout do not show in it.
-/
namespace Pasture

open Lexing

variable {t : Token} {ts us : List Token}

@[simp] theorem unplaced_lexeme (t : Token) : (unplaced t).lexeme = t.lexeme := rfl

@[simp] theorem unplaced_kind (t : Token) : (unplaced t).kind = t.kind := rfl

@[simp] theorem unplaced_isNewline (t : Token) : (unplaced t).isNewline = t.isNewline := rfl

@[simp] theorem unplaced_absorbsNewline (t : Token) :
    (unplaced t).absorbsNewline = t.absorbsNewline := rfl

def ParseError.unplaced (e : ParseError) : ParseError :=
  { e with span := none, token := e.token.map Lexing.unplaced }

theorem ParseError.unplaced_message (e : ParseError) : e.unplaced.message = e.message := by
  cases e with
  | mk cause span token => cases token <;> rfl

def unplacedResult (result : Except ParseError (List Token)) : Except ParseError (List Token) :=
  (result.mapError ParseError.unplaced).map (·.map unplaced)

theorem unplacedResult_cons (t : Token) (result : Except ParseError (List Token)) :
    unplacedResult ((t :: ·) <$> result) = (unplaced t :: ·) <$> unplacedResult result := by
  cases result <;> rfl

namespace Normal

theorem elide_unplaced (absorbing : Bool) (ts : List Token) :
    elide absorbing (ts.map unplaced) = (elide absorbing ts).map unplaced := by
  fun_induction elide absorbing ts with
  | case1 => rfl
  | case2 absorbing t ts ht ih => simpa [elide, ht] using ih
  | case3 absorbing t ts ht ih => simpa [elide, ht] using ih

def Chain.unplaced (c : Chain) : Chain := { c with first := none, last := none }

@[simp] theorem Chain.unplaced_start (i : Identifier) (t : Token) :
    start i (Lexing.unplaced t).span = (start i t.span).unplaced := rfl

@[simp] theorem Chain.unplaced_extend (c : Chain) (i : Identifier) (t : Token) :
    c.unplaced.extend i (Lexing.unplaced t).span = (c.extend i t.span).unplaced := rfl

def Open.unplaced : Open → Open
  | .nothing => .nothing
  | .name chain => .name chain.unplaced
  | .dotted chain dot => .dotted chain.unplaced (Lexing.unplaced dot)

theorem segmentError_unplaced (dot : Token) (found : Option Token) :
    (segmentError dot found).unplaced =
      segmentError (Lexing.unplaced dot) (found.map Lexing.unplaced) := by
  cases found with
  | none => rfl
  | some t =>
    have hends : (ParseError.syntactic (.expected .segment) (Lexing.unplaced dot).span
        (some (Lexing.unplaced t))).atEnd =
        (ParseError.syntactic (.expected .segment) dot.span (some t)).atEnd := rfl
    simp only [segmentError, Option.map_some, hends]
    split <;> rfl

theorem fuse_unplaced (o : Open) (ts : List Token) :
    fuse o.unplaced (ts.map unplaced) = unplacedResult (fuse o ts) := by
  fun_induction fuse o ts with
  | case1 | case2 => rfl
  | case3 c dot => exact congrArg Except.error (segmentError_unplaced dot none).symm
  | case4 t ts i hi ih => simpa [fuse, hi, Open.unplaced] using ih
  | case5 t ts hname ih =>
    rw [unplacedResult_cons, ← ih]
    exact fuse_cons_other hname
  | case6 c t ts hdot ih => simpa [fuse, hdot, Open.unplaced] using ih
  | case7 c t ts i hi ih =>
    rw [unplacedResult_cons, ← ih]
    simp only [List.map_cons, Open.unplaced, fuse, unplaced_lexeme, hi]
    rfl
  | case8 c t ts hdot hname ih =>
    have hboth : (c.token :: t :: ·) <$> fuse .nothing ts =
        (c.token :: ·) <$> (t :: ·) <$> fuse .nothing ts := comp_map _ _ _
    rw [hboth, unplacedResult_cons, unplacedResult_cons, ← ih]
    have hother : fuse (.name c.unplaced) (unplaced t :: ts.map unplaced) =
        (c.unplaced.token :: unplaced t :: ·) <$> fuse .nothing (ts.map unplaced) :=
      fuse_name_other hdot hname
    exact hother.trans (comp_map _ _ _)
  | case9 c dot t ts i hi ih => simpa [fuse, hi, Open.unplaced] using ih
  | case10 c dot t ts hname =>
    have herror : unplacedResult (.error (segmentError dot (some t))) =
        .error (segmentError (unplaced dot) (some (unplaced t))) :=
      congrArg Except.error (segmentError_unplaced dot (some t))
    rw [herror]
    simp [fuse, Open.unplaced]

end Normal

theorem normalise_unplaced (ts : List Token) :
    normalise (ts.map unplaced) = unplacedResult (normalise ts) := by
  rw [normalise, Normal.elide_unplaced]
  exact Normal.fuse_unplaced .nothing _

/-! ### Newlines behind a bracket or a comma -/

namespace Normal

theorem elide_dropWhile (ts : List Token) :
    elide true (ts.dropWhile Token.isNewline) = elide true ts := by
  induction ts with
  | nil => rfl
  | cons t ts ih =>
    by_cases ht : t.isNewline = true
    · rw [List.dropWhile_cons_of_pos ht, ih, elide_cons_newline (Token.isNewline_iff.1 ht)]
    · rw [List.dropWhile_cons_of_neg ht]

/-- A token that is no newline parts the stream. -/
theorem elide_append (absorbing : Bool) (ht : t.lexeme ≠ .newline) (ts us : List Token) :
    elide absorbing (ts ++ t :: us) = elide absorbing (ts ++ [t]) ++ elide t.absorbsNewline us := by
  induction ts generalizing absorbing with
  | nil => simp [elide_cons absorbing ht, elide]
  | cons s ts ih =>
    by_cases hs : (s.isNewline && absorbing) = true
    · simp only [List.cons_append, elide, hs, if_true]
      exact ih true
    · simp only [List.cons_append, elide, hs, Bool.false_eq_true, if_false, ih]

end Normal

theorem streamOf_append (ls : List Lexeme) (l : Lexeme) (ks : List Lexeme) :
    streamOf (ls ++ l :: ks) = ls.map (Token.plain · none) ++ .plain l none :: streamOf ks := by
  simp [streamOf]

theorem streamOf_dropWhile (ls : List Lexeme) :
    (streamOf ls).dropWhile Token.isNewline = streamOf (behindNewlines ls) := by
  induction ls with
  | nil => rfl
  | cons l ls ih =>
    have hcons : streamOf (l :: ls) = .plain l none :: streamOf ls := rfl
    by_cases hl : l = .newline
    · subst hl
      exact ih
    · have hnot : ¬(Token.plain l none).isNewline = true := fun h => hl (Token.isNewline_iff.1 h)
      rw [hcons, List.dropWhile_cons_of_neg hnot, behindNewlines,
        List.dropWhile_cons_of_neg (by simpa using hl)]
      rfl

/-- Behind an opening bracket or a comma the normal form does not depend on the first newlines. -/
theorem normalise_streamOf {b : Symbol} {ls js ks : List Lexeme} (hb : b.absorbsNewline)
    (h : behindNewlines js = behindNewlines ks) :
    normalise (streamOf (ls ++ .symbol b :: js)) = normalise (streamOf (ls ++ .symbol b :: ks)) := by
  have hlexeme : (Token.plain (.symbol b) none).lexeme ≠ .newline := by simp [Token.plain]
  have habsorbs : (Token.plain (.symbol b) none).absorbsNewline = true := hb
  have hsame : Normal.elide true (streamOf js) = Normal.elide true (streamOf ks) := by
    rw [← Normal.elide_dropWhile, streamOf_dropWhile, h, ← streamOf_dropWhile,
      Normal.elide_dropWhile]
  rw [normalise, normalise, streamOf_append, streamOf_append, Normal.elide_append false hlexeme,
    Normal.elide_append false hlexeme _ (streamOf ks), habsorbs, hsame]

end Pasture
