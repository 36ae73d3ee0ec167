import Deasync.Proofs.Nesting
import Mathlib.Data.Nat.Find

namespace Deasync

open Grammar

variable {tokens : List Token}

def groupEnd (tokens : List Token) (i : Fin tokens.length) : Except Fault Nat :=
  (closing tokens[i] (tokens.drop (i + 1))).map fun group => i + group.before.length

def mismatchAt (token : Token) : Fault :=
  ⟨.mismatchedCloser token.text, .ofExtent token.extent⟩

theorem mismatchAt_extent {a b : Token} (same : mismatchAt a = mismatchAt b) :
    a.extent = b.extent := by
  simp only [mismatchAt, Span.ofExtent, Fault.mk.injEq, Span.known.injEq, Int.natCast_inj] at same
  obtain ⟨_, _, start, stop, first, last⟩ := same
  calc a.extent = ⟨a.extent.start, a.extent.stop, a.extent.first, a.extent.last⟩ := rfl
    _ = b.extent := by rw [start, stop, first, last]

def unclosedAt (token : Token) : Fault :=
  ⟨.unclosedOpener token.text, .ofExtent token.extent⟩

-- Kinds that begin with an opener which nothing closes, with the closers still due, innermost first.
inductive Pending : List Kind → List Kind → Prop where
  | opened {opener closer : Kind} {inside : List Kind} : opener.closer? = some closer →
      Nested inside → Pending (opener :: inside) [closer]
  | deeper {opener closer : Kind} {front inside due : List Kind} : Pending front due →
      opener.closer? = some closer → Nested inside →
      Pending (front ++ opener :: inside) (closer :: due)

-- Well nested tokens follow an opener up to the closer of its kind.
def ClosesAt (tokens : List Token) (i j : Nat) : Prop :=
  i < j ∧ Nested (kindsOf (tokens.extract (i + 1) j)) ∧
    ∃ opener closer, tokens[i]? = some opener ∧ tokens[j]? = some closer ∧
      opener.kind.closer? = some closer.kind

-- The group at an index is still open at a closer that the innermost open delimiter does not wait for.
def MismatchesAt (tokens : List Token) (i k : Nat) : Prop :=
  ∃ due outer token, Pending (kindsOf (tokens.extract i k)) (due :: outer) ∧
    tokens[k]? = some token ∧ token.kind.isCloser ∧ token.kind ≠ due

def FirstMismatch (tokens : List Token) (i k : Nat) : Prop :=
  MismatchesAt tokens i k ∧ ∀ earlier < k, ¬MismatchesAt tokens i earlier

theorem Nested.append {ks ls : List Kind} (first : Nested ks) (second : Nested ls) :
    Nested (ks ++ ls) := by
  induction first with
  | nil => exact second
  | single flat plain _ ih => exact .single flat plain ih
  | group opens inside _ _ ih =>
    rw [List.append_assoc, List.cons_append]
    exact .group opens inside ih

-- A group that begins among well nested kinds also ends among them.
theorem Nested.group_within {whole front behind : List Kind} {opener : Kind} (nested : Nested whole)
    (split : whole = front ++ opener :: behind) (opens : opener.isOpener) :
    ∃ closer inside rest, behind = inside ++ closer :: rest ∧ Nested inside ∧
      opener.closer? = some closer := by
  have opener_ne_closer {k closer : Kind} (due : k.closer? = some closer) : opener ≠ closer := by
    rintro rfl
    rw [Kind.isOpener, Kind.closer?_of_isCloser (Kind.isCloser_of_closer? due)] at opens
    cases opens
  induction nested generalizing front behind with
  | nil => simp at split
  | @single k ks flat _ _ ih =>
    cases front with
    | nil =>
      obtain ⟨rfl, _⟩ := List.cons.inj split
      exact absurd opens flat
    | cons _ front => exact ih (List.cons.inj split).2
  | @group first closer inside ks due within _ ihInside ihRest =>
    cases front with
    | nil =>
      obtain ⟨rfl, rfl⟩ := List.cons.inj split
      exact ⟨closer, inside, ks, rfl, within, due⟩
    | cons _ front =>
      -- the opener stands inside the first group or behind it
      obtain ⟨_, split⟩ := List.cons.inj split
      rcases List.append_eq_append_iff.mp split with ⟨more, rfl, rest⟩ | ⟨more, rfl, rest⟩
      · cases more with
        | nil => exact absurd (List.cons.inj rest).1.symm (opener_ne_closer due)
        | cons _ more => exact ihRest (List.cons.inj rest).2
      · cases more with
        | nil => exact absurd (List.cons.inj rest).1 (opener_ne_closer due)
        | cons _ more =>
          obtain ⟨rfl, rfl⟩ := List.cons.inj rest
          obtain ⟨own, inner, left, rfl, nested, owns⟩ := ihInside rfl
          exact ⟨own, inner, left ++ closer :: ks, by simp, nested, owns⟩

namespace Pending

variable {front due outer : List Kind} {k : Kind}

theorem ne_nil (pending : Pending front due) : due ≠ [] := by
  cases pending <;> exact List.cons_ne_nil _ _

theorem filled (pending : Pending front due) : front ≠ [] := by
  cases pending with
  | opened => exact List.cons_ne_nil _ _
  | deeper => exact List.append_ne_nil_of_right_ne_nil _ (List.cons_ne_nil _ _)

theorem nested (pending : Pending front due) {more : List Kind} (nested : Nested more) :
    Pending (front ++ more) due := by
  cases pending with
  | opened opens inside => exact .opened opens (inside.append nested)
  | deeper before opens inside =>
    rw [List.append_assoc, List.cons_append]
    exact .deeper before opens (inside.append nested)

theorem opener {own : Kind} (pending : Pending front due) (opens : k.closer? = some own) :
    Pending (front ++ [k]) (own :: due) :=
  .deeper pending opens .nil

theorem single (pending : Pending front due) (flat : k.closer? = none) (plain : ¬k.isCloser) :
    Pending (front ++ [k]) due :=
  pending.nested (.single (by simp [Kind.isOpener, flat]) plain .nil)

theorem closer (pending : Pending front (k :: outer)) (inner : outer ≠ []) :
    Pending (front ++ [k]) outer := by
  cases pending with
  | opened => exact absurd rfl inner
  | @deeper _ _ front inside _ before opens within =>
    have group := before.nested (.group opens within .nil)
    simpa using group

end Pending

theorem closingFrom_opener {first opener : Token} {inside : List Token} {closer : Kind}
    (opens : opener.kind.closer? = some closer) (nested : Nested (kindsOf inside))
    (waiting : List Kind) (more : List Token) :
    closingFrom first waiting (opener :: inside ++ more) =
      (closingFrom first (closer :: waiting) more).map fun c =>
        { c with before := opener :: inside ++ c.before } := by
  have walked := closingFrom_walk first nested.balanced (List.cons_ne_nil closer waiting) more
  rw [List.map_nil, List.nil_append] at walked
  rw [List.cons_append, closingFrom.eq_def]
  simp only [opens]
  rw [walked, map_prepend]

-- Reading comes to the end of an open group with the closers that are due there.
theorem closingFrom_pending {first : Token} {w : List Token} {due : List Kind}
    (pending : Pending (kindsOf w) due) (more : List Token) :
    closingFrom first [] (w ++ more) =
      (closingFrom first due more).map fun c => { c with before := w ++ c.before } := by
  generalize kinds : kindsOf w = ks at pending
  induction pending generalizing w more with
  | opened opens nested =>
    obtain ⟨opener, inside, rfl, rfl, rfl⟩ := List.map_eq_cons_iff.mp kinds
    exact closingFrom_opener opens nested [] more
  | @deeper _ closer _ _ due _ opens nested ih =>
    obtain ⟨front, group, rfl, rfl, behind⟩ := kindsOf_split kinds.symm
    obtain ⟨opener, inside, rfl, rfl, rfl⟩ := List.map_eq_cons_iff.mp behind.symm
    rw [List.append_assoc, ih _ rfl, closingFrom_opener opens nested]
    cases closingFrom first (closer :: due) more <;> simp [Except.map]

-- A closer among the tokens behind an open group is not the one that is due there.
def Mismatching (front : List Kind) (later : List Token) (fault : Fault) : Prop :=
  ∃ inside token rest due outer, later = inside ++ token :: rest ∧
    Pending (front ++ kindsOf inside) (due :: outer) ∧ token.kind.isCloser ∧ token.kind ≠ due ∧
      fault = mismatchAt token

theorem Mismatching.behind {front : List Kind} {later : List Token} {fault : Fault} {token : Token}
    (wrong : Mismatching (front ++ [token.kind]) later fault) :
    Mismatching front (token :: later) fault := by
  obtain ⟨inside, wrong, rest, due, outer, rfl, pending, differs⟩ := wrong
  exact ⟨token :: inside, wrong, rest, due, outer, rfl, by simpa using pending, differs⟩

-- Why reading fails: nothing is left to read, or a closer is not the one that is due.
theorem closingFrom_error {first : Token} {due front : List Kind} {later : List Token} {fault : Fault}
    (pending : Pending front due) (failed : closingFrom first due later = .error fault) :
    fault = unclosedAt first ∨ Mismatching front later fault := by
  fun_induction closingFrom first due later generalizing front with
  | case1 =>
    cases failed
    exact .inl rfl
  | case2 waiting token later own opens ih =>
    exact (ih (pending.opener opens) (error_of_map failed)).imp_right .behind
  | case3 => exact absurd rfl pending.ne_nil
  | case4 token later _ closes own outer different =>
    cases failed
    exact .inr ⟨[], token, later, own, outer, rfl, by simpa using pending, closes, different.symm, rfl⟩
  | case5 => cases failed
  | case6 token later _ closes own outer same last ih =>
    obtain rfl := not_not.mp same
    have inner := pending.closer (by simpa using last)
    exact (ih inner (error_of_map failed)).imp_right .behind
  | case7 waiting token later flat plain ih =>
    exact (ih (pending.single flat plain) (error_of_map failed)).imp_right .behind

theorem drop_of_getElem? {α : Type} {xs : List α} {i j : Nat} {x : α} (behind : i ≤ j)
    (there : xs[j]? = some x) : xs.drop i = xs.extract i j ++ x :: xs.drop (j + 1) := by
  obtain ⟨inside, rfl⟩ := List.getElem?_eq_some_iff.mp there
  rw [← List.drop_eq_getElem_cons inside, List.extract_eq_take_drop]
  conv_lhs => rw [← List.take_append_drop (j - i) (xs.drop i), List.drop_drop, Nat.add_sub_cancel' behind]

theorem extract_of_drop {α : Type} {xs inside rest : List α} {i : Nat} {x : α}
    (split : xs.drop i = inside ++ x :: rest) :
    xs.extract i (i + inside.length) = inside ∧ xs[i + inside.length]? = some x := by
  constructor
  · rw [List.extract_eq_take_drop, split, Nat.add_sub_cancel_left, List.take_left]
  · rw [← List.getElem?_drop, split]
    simp

variable {i : Fin tokens.length}

theorem drop_at : tokens.drop i = tokens[i] :: tokens.drop (i + 1) :=
  List.drop_eq_getElem_cons i.isLt

theorem groupEnd_eq_ok_iff (opens : tokens[i].kind.isOpener) {j : Nat} :
    groupEnd tokens i = .ok j ↔ ClosesAt tokens i j := by
  constructor
  · intro ended
    obtain ⟨group, closed, rfl⟩ := exists_of_map_ok ended
    obtain ⟨inside, before, nested, due, split⟩ := (closing_eq_ok_iff opens).mp closed
    obtain ⟨same, there⟩ := extract_of_drop split
    have length : i + group.before.length = i + 1 + inside.length := by
      rw [before, List.length_cons]
      omega
    rw [length]
    exact ⟨by omega, by rwa [same], tokens[i], group.closer, by simp, there, due⟩
  · rintro ⟨behind, nested, opener, closer, here, there, due⟩
    obtain rfl : tokens[i] = opener := by simpa using here
    have split := drop_of_getElem? (Nat.succ_le_of_lt behind) there
    have closed : closing tokens[i] (tokens.drop (i + 1)) =
        .ok ⟨tokens[i] :: tokens.extract (i + 1) j, closer, tokens.drop (j + 1)⟩ :=
      (closing_eq_ok_iff opens).mpr ⟨_, rfl, nested, due, split⟩
    have inside := (List.getElem?_eq_some_iff.mp there).1
    rw [groupEnd, closed]
    simp only [Except.map, List.length_cons, List.extract_eq_take_drop, List.length_take,
      List.length_drop, Except.ok.injEq]
    omega

theorem MismatchesAt.fails {k : Nat} (wrong : MismatchesAt tokens i k) :
    ∃ token, tokens[k]? = some token ∧ groupEnd tokens i = .error (mismatchAt token) := by
  obtain ⟨due, outer, token, pending, there, closes, differs⟩ := wrong
  have filled := pending.filled
  have behind : i ≤ k := by
    simp only [kindsOf, ne_eq, List.map_eq_nil_iff, List.extract_eq_take_drop,
      List.take_eq_nil_iff, not_or] at filled
    omega
  have flat := Kind.closer?_of_isCloser closes
  have read : closingFrom tokens[i] [] _ = _ :=
    closingFrom_pending pending (token :: tokens.drop (k + 1))
  rw [← drop_of_getElem? behind there, drop_at, closingFrom.eq_def _ (due :: outer)] at read
  simp only [flat, closes, if_true, ne_eq, differs.symm, not_false_eq_true] at read
  exact ⟨token, there, by rw [groupEnd, closing, read]; rfl⟩

theorem groupEnd_error (opens : tokens[i].kind.isOpener) {fault : Fault}
    (failed : groupEnd tokens i = .error fault) :
    fault = unclosedAt tokens[i] ∨
      ∃ k token, MismatchesAt tokens i k ∧ tokens[k]? = some token ∧ fault = mismatchAt token := by
  obtain ⟨due, own⟩ := Option.isSome_iff_exists.mp opens
  have failed := error_of_map failed
  rw [closing, closingFrom.eq_def] at failed
  simp only [own] at failed
  have pending : Pending [tokens[i].kind] [due] := .opened own .nil
  refine (closingFrom_error pending (error_of_map failed)).imp_right ?_
  rintro ⟨inside, token, rest, due, outer, split, pending, closes, differs, rfl⟩
  have split : tokens.drop i = (tokens[i] :: inside) ++ token :: rest := by rw [drop_at, split]; rfl
  obtain ⟨same, there⟩ := extract_of_drop split
  exact ⟨_, token, ⟨due, outer, token, by rwa [same], there, closes, differs⟩, there, rfl⟩

theorem MismatchesAt.exists_first {k : Nat} (wrong : MismatchesAt tokens i k) :
    ∃ first, FirstMismatch tokens i first := by
  classical
  have some : ∃ k, MismatchesAt tokens i k := ⟨k, wrong⟩
  exact ⟨Nat.find some, Nat.find_spec some, fun _ earlier => Nat.find_min some earlier⟩

theorem groupEnd_eq_error_iff (opens : tokens[i].kind.isOpener) {fault : Fault} :
    groupEnd tokens i = .error fault ↔
      (∃ k token, FirstMismatch tokens i k ∧ tokens[k]? = some token ∧ fault = mismatchAt token) ∨
        ((∀ j, ¬ClosesAt tokens i j) ∧ (∀ k, ¬FirstMismatch tokens i k) ∧
          fault = unclosedAt tokens[i]) := by
  constructor
  · intro failed
    rcases groupEnd_error opens failed with rfl | ⟨k, token, wrong, _, _⟩
    · refine .inr ⟨fun j closes => ?_, fun k first => ?_, rfl⟩
      · cases failed.symm.trans ((groupEnd_eq_ok_iff opens).mpr closes)
      · obtain ⟨token, _, other⟩ := first.1.fails
        cases failed.symm.trans other
    · obtain ⟨first, least⟩ := wrong.exists_first
      obtain ⟨token, there, other⟩ := least.1.fails
      exact .inl ⟨first, token, least, there, Except.error.inj (failed.symm.trans other)⟩
  · rintro (⟨k, token, first, there, rfl⟩ | ⟨open_, matched, rfl⟩)
    · obtain ⟨other, here, failed⟩ := first.1.fails
      cases there.symm.trans here
      exact failed
    · cases ended : groupEnd tokens i with
      | ok j => exact absurd ((groupEnd_eq_ok_iff opens).mp ended) (open_ j)
      | error fault =>
        rcases groupEnd_error opens ended with rfl | ⟨k, _, wrong, _⟩
        · rfl
        · obtain ⟨first, least⟩ := wrong.exists_first
          exact absurd least (matched first)

-- A group that begins among well nested tokens ends among them.
theorem ClosesAt.of_nested {a b : Nat} (opens : tokens[i].kind.isOpener) (front : a ≤ i) (back : i ≤ b)
    (inside : b < tokens.length) (nested : Nested (kindsOf (tokens.extract a (b + 1)))) :
    ∃ j ≤ b, ClosesAt tokens i j := by
  have behind : tokens.drop (i + 1) = tokens.extract (i + 1) (b + 1) ++ tokens.drop (b + 1) := by
    have cut := (List.take_append_drop (b - i) (tokens.drop (i + 1))).symm
    rwa [List.drop_drop, show i + 1 + (b - i) = b + 1 by omega, ← Nat.add_sub_add_right b 1 i] at cut
  have whole : tokens.extract a (b + 1) =
      tokens.extract a i ++ tokens[i] :: tokens.extract (i + 1) (b + 1) := by
    have here : tokens[i.val]? = some tokens[i] := by simp
    rw [List.extract_eq_take_drop, drop_of_getElem? front here, List.take_append,
      List.take_of_length_le (by simp; omega)]
    simp only [List.extract_eq_take_drop, List.length_take, List.length_drop]
    rw [show b + 1 - a - min (i - a) (tokens.length - a) = b - i + 1 by omega, List.take_succ_cons,
      Nat.add_sub_add_right]
  rw [whole, kindsOf_append, kindsOf_cons] at nested
  obtain ⟨due, _, _, split, group, own⟩ := nested.group_within rfl opens
  obtain ⟨inner, later, same, rfl, kinds⟩ := kindsOf_split split.symm
  obtain ⟨closer, rest, rfl, rfl, rfl⟩ := List.map_eq_cons_iff.mp kinds.symm
  rw [same, List.append_assoc] at behind
  obtain ⟨within, there⟩ := extract_of_drop behind
  have length := congrArg List.length same
  simp only [List.extract_eq_take_drop, List.length_take, List.length_drop, List.length_append,
    List.length_cons] at length
  exact ⟨_, by omega, by omega, by rwa [within], tokens[i], closer, by simp, there, own⟩

-- Which token closes a group, which token is reported when a delimiter inside it is closed by a closer of another
-- kind, and that the opener is reported when the tokens end first.
theorem groupEnd_matches (tokens : List Token) (i : Fin tokens.length)
    (opens : tokens[i].kind.isOpener) :
    (∀ j, groupEnd tokens i = .ok j ↔ ClosesAt tokens i j) ∧
      (∀ fault, groupEnd tokens i = .error fault ↔
        (∃ k token, FirstMismatch tokens i k ∧ tokens[k]? = some token ∧ fault = mismatchAt token) ∨
          ((∀ j, ¬ClosesAt tokens i j) ∧ (∀ k, ¬FirstMismatch tokens i k) ∧
            fault = unclosedAt tokens[i])) ∧
      ((tokens.map Token.extent).Nodup → ∀ k token, tokens[k]? = some token →
        (groupEnd tokens i = .error (mismatchAt token) ↔ FirstMismatch tokens i k)) ∧
      (∀ a b : Nat, a ≤ i → i ≤ b → b < tokens.length → Nested (kindsOf (tokens.extract a (b + 1))) →
        ∃ j ≤ b, groupEnd tokens i = .ok j) := by
  refine ⟨fun _ => groupEnd_eq_ok_iff opens, fun _ => groupEnd_eq_error_iff opens, ?_, ?_⟩
  · intro distinct k token there
    constructor
    · intro failed
      rcases (groupEnd_eq_error_iff opens).mp failed with ⟨l, other, first, here, same⟩ | ⟨_, _, same⟩
      · have extents : (tokens.map Token.extent)[l]? = (tokens.map Token.extent)[k]? := by
          rw [List.getElem?_map, List.getElem?_map, there, here, Option.map_some, Option.map_some,
            mismatchAt_extent same]
        have inside := (List.getElem?_eq_some_iff.mp here).1
        rwa [← (List.getElem?_inj (by simpa using inside) distinct).mp extents]
      · cases same
    · intro first
      exact (groupEnd_eq_error_iff opens).mpr (.inl ⟨k, token, first, there, rfl⟩)
  · intro a b front back inside nested
    obtain ⟨j, within, closes⟩ := ClosesAt.of_nested opens front back inside nested
    exact ⟨j, within, (groupEnd_eq_ok_iff opens).mpr closes⟩

def quotedBrackets : String := "f(\")\", [x], '(')"

-- The brackets in the literals neither open nor close a group.
theorem groupEnd_matches_literals : ∃ tokens, lex quotedBrackets = .ok tokens ∧
    ∃ inside : 1 < tokens.length, tokens[1].kind.isOpener ∧ groupEnd tokens ⟨1, inside⟩ = .ok 9 ∧
      ClosesAt tokens 1 9 := by
  have accepted : (lex quotedBrackets).toOption.any fun tokens =>
      ∃ inside : 1 < tokens.length, tokens[1].kind.isOpener ∧
        (groupEnd tokens ⟨1, inside⟩).toOption = some 9 := by decide +kernel
  obtain ⟨tokens, lexed, ends⟩ := (Option.any_eq_true _ _).mp accepted
  obtain ⟨inside, opens, ended⟩ := of_decide_eq_true ends
  have closes := (groupEnd_matches tokens ⟨1, inside⟩ opens).1 9
  have ended := toOption_eq_some ended
  exact ⟨tokens, toOption_eq_some lexed, inside, opens, ended, closes.mp ended⟩

end Deasync
