import Pasture.Proofs.Grammar.Balance
import Pasture.Proofs.Grammar.ModuleSound

/-! # Where items end

Import blocks, functions and loops end with their closing braces, and what they are does not depend
on anything behind them. A branch depends on whether `else` follows, and a simple statement on what
ends it.
-/
namespace Pasture.Grammar

open Pasture.Parser

variable {d n m k : Nat} {S : List Token → List Token → Prop} {ends : Option Span}
  {ts rest : List Token}

section Blocks

variable {β : Type} {block block' : Parser (List Statement)}

def Opens (block : Parser (List Statement)) : Prop :=
  ∀ ⦃ends ts body rest⦄, block ends ts = .ok body rest → ∃ t ∈ ts.head?, t.lexeme = .symbol .lbrace

/-- A condition ends in front of a brace. -/
theorem condition_then {f g : Expr → Parser β} (hf : ∀ e, Local 1 (n - 1) S (f e) (g e))
    (hopen : ∀ {e ends ts b rest}, f e ends ts = .ok b rest →
      ∃ t ∈ ts.head?, t.lexeme = .symbol .lbrace) :
    Local 1 n S (expression >>= f) (expression >>= g) := by
  refine (expression_local.bind_of hf ?_).weaken (Nat.le_refl n) (Nat.le_succ 1) id
  intro e ends read rest rest' b hfe hread _ u hu
  obtain ⟨t, ht, hbrace⟩ := hopen hfe
  cases read with
  | nil => cases hread
  | cons v read =>
    cases ht
    cases hu
    simp [hbrace, Lexeme.endsExpression]

theorem loopOver_local (hopen : Opens block) (hb : Local 1 n Unseen block block') :
    Local 1 n S (loopOver block) (loopOver block') := by
  refine (expect_local (by simp) _).andThen fun _ => ?_
  refine (condition_then (fun condition => ?_) fun hbody => ?_).eased
  · exact (hb.weaken (by omega) (Nat.le_refl 1) id).andThen fun body => pure_local _
  · obtain ⟨body, mid, hblock, -⟩ := bind_eq_ok.1 hbody
    exact hopen hblock

def ElseSeen (rest rest' : List Token) : Prop := NoElse rest → NoElse rest'

theorem bears_elseSeen : Bears 0 ElseSeen ElseSeen := fun _ => noElse_append

theorem elseFollows_eq_false {mid : List Token} :
    elseFollows ends ts = .ok false mid ↔ mid = ts ∧ NoElse ts := by
  unfold elseFollows NoElse
  constructor
  · intro h
    injection h with hseen hmid
    exact ⟨hmid.symm, by simpa [Option.any_eq_false] using hseen⟩
  · rintro ⟨rfl, hno⟩
    have hseen : ((mid.dropWhile Token.isNewline).head?.any
        fun t => t.kind = .keyword .otherwise) = false := by
      simpa [Option.any_eq_false] using hno
    rw [hseen]

theorem else_local {α : Type} {a : α} {p q : Parser α} (hp : Local 0 n ElseSeen p q) :
    Local 0 n ElseSeen
      (elseFollows >>= fun given =>
        if given then skipNewlines >>= fun _ => advance >>= fun _ => p else pure a)
      (elseFollows >>= fun given =>
        if given then skipNewlines >>= fun _ => advance >>= fun _ => q else pure a) := by
  refine .of_read fun {ends ts b rest} h => ?_
  obtain ⟨given, mid, hgiven, hmid⟩ := bind_eq_ok.1 h
  cases given with
  | false =>
    obtain ⟨rfl, hno⟩ := elseFollows_eq_false.1 hgiven
    cases hmid
    refine ⟨[], rfl, Nat.zero_le _, List.forall_mem_nil _, fun _ hrest => ?_⟩
    exact bind_of_ok (elseFollows_eq_false.2 ⟨rfl, hrest hno⟩)
  | true =>
    obtain ⟨rfl, t, us, hdrop, ht⟩ := elseFollows_eq_true hgiven
    rw [if_pos rfl, bind_of_ok skipNewlines_apply, hdrop, bind_of_ok (advance_eq_ok.2 rfl)] at hmid
    obtain ⟨read, rfl, -, hend⟩ := hp.takes hmid
    have hsplit : mid = mid.takeWhile Token.isNewline ++ t :: (read ++ rest) := by
      rw [← hdrop, List.takeWhile_append_dropWhile]
    refine ⟨mid.takeWhile Token.isNewline ++ t :: read, by simpa using hsplit, Nat.zero_le _,
      (endless_newlines mid).append (List.forall_mem_cons.2 ⟨by simp [ht], hend⟩),
      fun {ends' rest'} hn hrest => ?_⟩
    have hdrop' : (mid.takeWhile Token.isNewline ++ t :: (read ++ rest')).dropWhile
        Token.isNewline = t :: (read ++ rest') :=
      dropWhile_breaks (takeWhile_breaks mid) (by simp [ht])
    have hyes : elseFollows ends' (mid.takeWhile Token.isNewline ++ t :: (read ++ rest')) =
        .ok true (mid.takeWhile Token.isNewline ++ t :: (read ++ rest')) := by
      unfold elseFollows
      rw [hdrop']
      simp [ht]
    rw [List.append_assoc, List.cons_append, bind_of_ok hyes, if_pos rfl,
      bind_of_ok skipNewlines_apply, hdrop', bind_of_ok (advance_eq_ok.2 rfl)]
    rw [List.length_append, List.length_cons] at hn
    exact hp.carries hmid (by omega) hrest

theorem branchOver_local (hopen : Opens block) (hb : Local 1 n Unseen block block') (hm : n ≤ m) :
    Local 1 n ElseSeen (branchOver block k) (branchOver block' m) := by
  refine Local.rounds (P := branchOver block) (Q := branchOver block') nofun ?_ hm
  intro j m k hj hm ih
  have block_local : ∀ {i}, i ≤ n → Local 1 i Unseen block block' :=
    fun hi => hb.weaken hi (Nat.le_refl 1) id
  refine (expect_local (by simp) _).andThen fun _ => ?_
  refine (condition_then (fun condition => ?_) fun hbody => ?_).eased
  · refine (block_local (by omega)).andThen fun body => else_local ?_
    refine ((sees_local _).bind bears_sameHead fun chained => .ite ?_ ?_).eased
    · exact (ih (by omega) (by omega)).next bears_elseSeen fun inner => pure_local _
    · exact (block_local (by omega)).andThen fun other => pure_local _
  · obtain ⟨body, mid, hblock, -⟩ := bind_eq_ok.1 hbody
    exact hopen hblock

theorem statement_local : Local 1 n Onward statement statement := by
  refine .of_read fun {ends ts s rest} h => ?_
  obtain ⟨read, hts, hsolid, hend, hsame, -⟩ := statement_behind h
  exact ⟨read, hts, hsolid, hend, fun _ hrest => hsame _ _ hrest.halts⟩

theorem itemOver_local (hopen : Opens block) (hb : Local 1 n Unseen block block') (hm : n ≤ m) :
    Local 1 n Onward (itemOver block k) (itemOver block' m) := by
  refine (sees_local _).bind bears_sameHead fun branches => .ite ?_ ?_
  · exact (branchOver_local hopen hb hm).weaken (Nat.le_refl n) (Nat.le_refl 1) Onward.noElse
  · refine (sees_local _).bind bears_sameHead fun loops => .ite ?_ statement_local
    exact loopOver_local hopen hb

theorem blockItems_local {item item' : Parser Statement} (hi : Local 1 n Onward item item')
    (hm : n ≤ m) : Local 1 n Unseen (blockItems item k) (blockItems item' m) := by
  refine Local.rounds (P := blockItems item) (Q := blockItems item') nofun ?_ hm
  intro j m k hj hm ih
  refine skipNewlines_local.bind bears_sameHead fun _ => ?_
  refine skip_local_then (by simp) bears_sameHead (Nat.le_refl 1) (pure_local []) ?_
  refine atEnd_local.bind bears_sameHead fun ended => .ite (fail_local _ _) ?_
  have item_local : Local 1 j Onward item item' := hi.weaken hj (Nat.le_refl 1) id
  exact item_local.next bears_onward fun s =>
    (ih (by omega) (by omega)).andThen fun body => pure_local _

theorem blockWithin_opens (n : Nat) : Opens (blockWithin n) := by
  intro ends ts body rest h
  cases n with
  | zero => cases h
  | succ n =>
    obtain ⟨u, mid, hopen, -⟩ := bind_eq_ok.1 h
    obtain ⟨t, ht, rfl⟩ := expect_eq_ok.1 hopen
    exact ⟨t, rfl, Token.kind_eq_symbol.1 ht⟩

theorem blockWithin_local (hm : n ≤ m) : Local 1 n Unseen (blockWithin k) (blockWithin m) := by
  refine Local.rounds (P := blockWithin) (Q := blockWithin) nofun ?_ hm
  intro j m k hj hm ih
  refine (expect_local (by simp) _).andThen fun _ => ?_
  refine (blockItems_local (itemOver_local (blockWithin_opens k) ?_ ?_) ?_).eased
  · exact ih (by omega) (by omega)
  · omega
  · omega

end Blocks

theorem block_local : Local 1 n Unseen block block := .sized blockWithin_local

theorem block_opens : Opens block := fun _ _ _ _ h => blockWithin_opens _ h

theorem item_local : Local 1 n Onward item item := .sized (itemOver_local block_opens block_local)

section Statements

variable {s : Statement} {t : Token}

theorem itemOver_cons (block : Parser (List Statement)) (n : Nat) (ends : Option Span) (t : Token)
    (ts : List Token) :
    itemOver block n ends (t :: ts) =
      if t.lexeme = .keyword .branch then branchOver block n ends (t :: ts)
      else if t.lexeme = .keyword .loop then loopOver block ends (t :: ts)
      else statement ends (t :: ts) := by
  rw [itemOver, bind_of_ok sees_apply]
  by_cases hbranch : t.lexeme = .keyword .branch
  · simp [hbranch]
  · have hloop : (if (false : Bool) then branchOver block n else
        sees (.keyword .loop) >>= fun loops =>
          if loops then loopOver block else statement) ends (t :: ts) =
        if t.lexeme = .keyword .loop then loopOver block ends (t :: ts)
        else statement ends (t :: ts) := by
      rw [if_neg Bool.false_ne_true, bind_of_ok sees_apply]
      by_cases hloop : t.lexeme = .keyword .loop <;> simp [hloop]
    simpa [hbranch] using hloop

/-- A newline behind a statement is taken by it or left. -/
theorem item_newline {read more : List Token} (h : item ends (read ++ rest) = .ok s rest)
    (ht : t.lexeme = .newline) (helse : NoElse rest → NoElse more) (ends' : Option Span) :
    ∃ left, (left = more ∨ left = t :: more) ∧ item ends' (read ++ t :: more) = .ok s left := by
  obtain ⟨us, hus, hsolid, -⟩ := (item_local (n := 0)).takes h
  obtain rfl := List.append_cancel_right hus
  obtain ⟨u, read, rfl⟩ : ∃ u us, read = u :: us := by
    cases read with
    | nil => cases hsolid
    | cons u us => exact ⟨u, us, rfl⟩
  have hlength : (u :: read).length ≤ (u :: read ++ t :: more).length := by simp
  change itemOver block _ ends (u :: (read ++ rest)) = _ at h
  rw [itemOver_cons] at h
  have hitem : item ends' (u :: read ++ t :: more) =
      itemOver block (u :: read ++ t :: more).length ends' (u :: (read ++ t :: more)) := rfl
  rw [hitem, itemOver_cons]
  by_cases hbranch : u.lexeme = .keyword .branch
  · rw [if_pos hbranch] at h ⊢
    have hlocal := branchOver_local (k := (u :: read ++ rest).length) block_opens block_local hlength
    have hseen : ElseSeen rest (t :: more) := fun hrest => noElse_cons_newline ht (helse hrest)
    have hread : branchOver block _ ends (u :: read ++ rest) = .ok s rest := h
    exact ⟨t :: more, .inr rfl, hlocal.carries hread (Nat.le_refl _) hseen⟩
  · rw [if_neg hbranch] at h ⊢
    by_cases hloop : u.lexeme = .keyword .loop
    · rw [if_pos hloop] at h ⊢
      have hlocal := loopOver_local (n := (u :: read).length) (S := Unseen) block_opens block_local
      have hread : loopOver block ends (u :: read ++ rest) = .ok s rest := h
      exact ⟨t :: more, .inr rfl, hlocal.carries hread (Nat.le_refl _) trivial⟩
    · rw [if_neg hloop] at h ⊢
      have hread : statement ends (u :: read ++ rest) = .ok s rest := h
      obtain ⟨us, hus, -, -, -, hnewline⟩ := statement_behind hread
      obtain rfl := List.append_cancel_right hus
      exact hnewline ends' t more ht

theorem simpleStatement_first {left : List Token} (h : simpleStatement ends (t :: ts) = .ok s left) :
    t.lexeme.opensStatement := by
  have plain : ∀ {isMutable}, plainStatement isMutable ends (t :: ts) = .ok s left →
      t.lexeme.opensStatement := by
    intro isMutable h
    obtain ⟨e, mid, he, -⟩ := bind_eq_ok.1 h
    obtain ⟨-, ls, ⟨read, hts, rfl⟩, hs⟩ := expression_reads he
    obtain ⟨l, ks, hl, ho⟩ := hs.first
    obtain ⟨u, us, rfl, rfl, -⟩ := List.map_eq_cons_iff.1 hl
    cases hts
    exact Lexeme.opensStatement_of_expression ho
  obtain ⟨returned, mid, hskip, hmid⟩ := bind_eq_ok.1 h
  cases returned with
  | true =>
    obtain ⟨u, hu, hts⟩ := skip_eq_true.1 hskip
    cases hts
    rw [Token.kind_eq_keyword.1 hu]
    rfl
  | false =>
    obtain ⟨rfl, -⟩ := skip_eq_false.1 hskip
    obtain ⟨isMutable, mid', hvar, hplain⟩ := bind_eq_ok.1 hmid
    cases isMutable with
    | true =>
      obtain ⟨u, hu, hts⟩ := skip_eq_true.1 hvar
      cases hts
      rw [Token.kind_eq_keyword.1 hu]
      rfl
    | false =>
      obtain ⟨rfl, -⟩ := skip_eq_false.1 hvar
      exact plain hplain

theorem item_first (h : item ends (t :: ts) = .ok s rest) : t.lexeme.opensStatement := by
  change itemOver block _ ends (t :: ts) = _ at h
  rw [itemOver_cons] at h
  by_cases hbranch : t.lexeme = .keyword .branch
  · rw [hbranch]
    rfl
  · rw [if_neg hbranch] at h
    by_cases hloop : t.lexeme = .keyword .loop
    · rw [hloop]
      rfl
    · rw [if_neg hloop] at h
      obtain ⟨run, left, hcut, hrun⟩ := statement_eq_ok.1 h
      obtain ⟨read, after, hbehind⟩ := cutStatement_behind hcut
      have hnew : t.lexeme ≠ .newline := by
        intro hnew
        simp only [cutStatement, hnew] at hcut
        cases hcut
        cases hrun
      -- a cut that has read nothing has kept nothing, and nothing is no statement
      cases read with
      | nil =>
        rw [hbehind.run_eq] at hrun
        cases hrun
      | cons u read =>
        obtain rfl : t = u := by
          rcases hbehind.stop with ⟨v, -, -, hts⟩ | ⟨hts, -⟩
          · exact (List.cons.inj hts).1
          · exact (List.cons.inj hts).1
        have hkept : run = t :: unbroken read := by
          rw [hbehind.run_eq]
          simp [unbroken, hnew]
        rw [hkept] at hrun
        exact simpleStatement_first hrun

end Statements

section Definitions

theorem parameters_local : Local 1 n Unseen parameters parameters := by
  refine (expect_local (by simp) _).andThen fun _ => .of_read fun {ends ts ps rest} h => ?_
  have hne : ∀ (p : Parameter) (ls : List Lexeme), ls = p.print → ls ≠ [] := by
    rintro p ls rfl
    simp [Parameter.print]
  obtain ⟨-, parts, ls, hlen, hparts, hbroken, ⟨read, rfl, hread⟩⟩ :=
    listItems_reads hne (parameter_reads _) (Nat.le_refl _) (Nat.le_refl _) h
  refine ⟨read, rfl, Nat.zero_le _, ?_, fun {ends' rest'} _ _ => ?_⟩
  · have hlevel : Level 1 ls := by
      refine .of_bracketed (.of_items hlen (fun p hp => ?_) hbroken) fun _ => Nat.one_pos
      rw [hparts p hp]
      exact .inline rfl (.inline rfl (.inline rfl .nil))
    obtain ⟨us, cs, rfl, hus, hcs⟩ := List.map_eq_append_iff.1 hread
    obtain ⟨c, rfl, hc⟩ := List.map_eq_singleton_iff.1 hcs
    refine (hlevel.endless hus).append (List.forall_mem_singleton.2 ?_)
    simp [hc]
  · have hfirst : ∀ (p : Parameter) (ls : List Lexeme), ls = p.print →
        ∃ l ks, ls = l :: ks ∧ l ≠ .newline ∧ l ≠ .symbol .rparen := by
      rintro p ls rfl
      exact ⟨_, _, rfl, by simp, by simp⟩
    exact listItems_finds hfirst (by simp) (parameter_finds .rparen) hbroken hlen hparts hread
      (Nat.le_refl _) (by simp)

theorem resultType_local : Local 0 n SameHead resultType resultType :=
  skip_local_then (by simp) bears_same (Nat.zero_le 1)
    ((identifier_local .resultType).andThen fun _ => pure_local _).eased (pure_local none)

theorem function_local : Local 1 n Unseen function function := by
  refine (identifier_local .functionName).andThen fun name => ?_
  refine (parameters_local.andThen fun ps => ?_).eased
  refine (resultType_local.bind bears_sameHead fun type => ?_).eased
  exact block_local.andThen fun body => pure_local _

theorem importedName_local : Local 1 n SameHead importedName importedName :=
  (identifier_local .importedName).andThen fun _ =>
    skip_local_then (by simp) bears_same (Nat.zero_le 1)
      ((identifier_local .localName).andThen fun _ => pure_local _).eased (pure_local _)

theorem importedNames_local (hm : n ≤ m) :
    Local 1 n SameHead (importedNames k) (importedNames m) := by
  refine Local.rounds (P := importedNames) (Q := importedNames) nofun ?_ hm
  intro j m k hj hm ih
  refine importedName_local.next bears_same fun name => ?_
  refine skip_local_then (by simp) bears_same (Nat.zero_le 1) ?_ (pure_local _)
  exact ((ih (by omega) (by omega)).next bears_same fun names => pure_local _).eased

theorem importEntry_local (hm : n ≤ m) : Local 1 n SameHead (importEntry k) (importEntry m) :=
  (importedNames_local hm).next bears_same fun _ =>
    skip_local_then (by simp) bears_same (Nat.zero_le 1)
      ((identifier_local .origin).andThen fun _ => pure_local _).eased (pure_local _)

theorem importEntries_local (hm : n ≤ m) :
    Local 1 n Unseen (importEntries k) (importEntries m) := by
  refine Local.rounds (P := importEntries) (Q := importEntries) nofun ?_ hm
  intro j m k hj hm ih
  refine skipNewlines_local.bind bears_sameHead fun _ => ?_
  refine skip_local_then (by simp) bears_sameHead (Nat.le_refl 1) (pure_local []) ?_
  refine (importEntry_local hm).next bears_sameHead fun entry => ?_
  have onward : Local 1 (j - 1) Unseen
      (importEntries k >>= fun more => pure (entry ++ more))
      (importEntries m >>= fun more => pure (entry ++ more)) :=
    (ih (by omega) (by omega)).andThen fun more => pure_local _
  refine (skip_local (by simp)).bind bears_sameHead fun broken => .ite onward ?_
  exact (sees_local _).bind bears_sameHead fun closing => .ite onward (fail_local _ _)

theorem imports_local : Local 1 n Unseen imports imports :=
  (expect_local (by simp) .importsOpen).andThen fun _ =>
    (Local.sized importEntries_local).eased

end Definitions

end Pasture.Grammar
