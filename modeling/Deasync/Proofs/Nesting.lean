import Deasync.Proofs.Levels
import Deasync.Proofs.OutlineSteps

namespace Deasync

open Grammar

-- Single kinds and groups one behind the other.
inductive Nested : List Kind → Prop where
  | nil : Nested []
  | single {k : Kind} {ks : List Kind} : ¬k.isOpener → ¬k.isCloser → Nested ks → Nested (k :: ks)
  | group {opener closer : Kind} {inside ks : List Kind} : opener.closer? = some closer →
      Nested inside → Nested ks → Nested (opener :: inside ++ closer :: ks)

theorem Kind.isCloser_of_closer? {k due : Kind} (opens : k.closer? = some due) : due.isCloser := by
  cases k <;> simp only [Kind.closer?, Option.some.injEq, reduceCtorEq] at opens <;>
    exact opens ▸ rfl

theorem Kind.closer?_of_isCloser {k : Kind} (closes : k.isCloser) : k.closer? = none := by
  cases k <;> first | rfl | cases closes

theorem Nested.balanced {ks : List Kind} (nested : Nested ks) : Balanced ks := by
  induction nested with
  | nil => rfl
  | single flat plain _ ih =>
    have opens := Option.not_isSome_iff_eq_none.mp flat
    rw [Balanced, walk, walkStep, delimiterMove, opens]
    simp only [plain, Bool.false_eq_true, if_false]
    exact ih
  | @group opener closer inside ks opens _ _ ihInside ihRest =>
    have closes := Kind.isCloser_of_closer? opens
    have inner := walk_deeper ihInside [(closer, ())]
    rw [Balanced, List.cons_append, walk, walkStep, delimiterMove, opens]
    simp only [List.nil_append] at inner
    simp only [Option.bind_some, walk_append, inner]
    rw [walk, walkStep, delimiterMove, Kind.closer?_of_isCloser closes]
    simp only [closes, if_true]
    exact ihRest

theorem Level.nested {tokens : List Token} {ks : List Kind} (level : Level tokens ks) :
    Nested (kindsOf tokens) := by
  induction level with
  | done => exact .nil
  | token flat plain _ ih => exact .single flat plain ih
  | @group opener later group _ _ opens closed _ _ ihInside ihRest =>
    obtain ⟨rest, before⟩ := closing_before (by rw [Kind.isOpener, opens]; rfl) closed
    rw [before] at ihInside
    have whole := Nested.group opens ihInside ihRest
    rw [closing_split closed, before]
    simpa [kindsOf] using whole

theorem nested_iff_balanced {tokens : List Token} :
    Nested (kindsOf tokens) ↔ Balanced (kindsOf tokens) := by
  constructor
  · intro nested
    exact nested.balanced
  · intro balanced
    exact (level_of_balanced balanced).nested

theorem Nested.level {tokens : List Token} (nested : Nested (kindsOf tokens)) :
    Level tokens (outerKinds 0 (kindsOf tokens)) :=
  level_of_balanced nested.balanced

-- What follows an opener in nested kinds closes it, so nothing that begins with it is nested.
theorem Nested.not_behind {front later : List Kind} {k : Kind} (opens : k.isOpener)
    (nested : Nested (front ++ k :: later)) (more : List Kind) : ¬Nested (later ++ more) := by
  intro other
  obtain ⟨due, closes⟩ := Option.isSome_iff_exists.mp opens
  have whole := nested.balanced
  have alone := other.balanced
  rw [Balanced, walk_append] at whole alone
  obtain ⟨place, _, rest⟩ := Option.bind_eq_some_iff.mp whole
  obtain ⟨next, walked, _⟩ := Option.bind_eq_some_iff.mp alone
  have deeper := walk_deeper walked ((due, ()) :: place.2)
  rw [walk, walkStep, delimiterMove, closes, Option.bind_some] at rest
  have left := congrArg Prod.snd (Option.some.inj (rest.symm.trans deeper))
  simp at left

-- What stands in front of the closer closes all that is open inside the group.
theorem closingFrom_inside {first : Token} {waiting : List Kind} {tokens : List Token} {c : Closing}
    (closed : closingFrom first waiting tokens = .ok c) {due : Kind} (inner : List (Kind × Unit))
    (open_ : waiting = inner.map Prod.fst ++ [due]) :
    walk delimiterMove ((), inner) (kindsOf c.before) = some ((), []) := by
  fun_induction closingFrom first waiting tokens generalizing c inner with
  | case1 => cases closed
  | case2 waiting token later own opens ih =>
    obtain ⟨d, found, rfl⟩ := exists_of_map_ok closed
    have deeper := ih found ((own, ()) :: inner) (by rw [open_]; rfl)
    rw [Closing.within, kindsOf_cons, walk, walkStep, delimiterMove, opens]
    exact deeper
  | case3 => cases closed
  | case4 => cases closed
  | case5 token later opens closes own outer same last =>
    cases closed
    rw [List.isEmpty_iff.mp last] at open_
    cases inner with
    | nil => rfl
    | cons frame inner =>
      have length := congrArg List.length open_
      simp at length
  | case6 token later opens closes own outer same last ih =>
    obtain ⟨d, found, rfl⟩ := exists_of_map_ok closed
    cases inner with
    | nil =>
      cases open_
      exact absurd rfl last
    | cons frame inner =>
      obtain ⟨rfl, rest⟩ := List.cons.inj open_
      rw [Closing.within, kindsOf_cons, walk, walkStep, delimiterMove, opens]
      simp only [closes, if_true, if_pos (not_not.mp same)]
      exact ih found inner rest
  | case7 waiting token later opens closes ih =>
    obtain ⟨d, found, rfl⟩ := exists_of_map_ok closed
    rw [Closing.within, kindsOf_cons, walk, walkStep, delimiterMove, opens]
    simp only [closes, Bool.false_eq_true, if_false]
    exact ih found inner open_

-- A group is an opener, well nested tokens and the closer of the opener's kind.
theorem closing_eq_ok_iff {opener : Token} {later : List Token} {c : Closing}
    (opens : opener.kind.isOpener) : closing opener later = .ok c ↔
      ∃ inside, c.before = opener :: inside ∧ Nested (kindsOf inside) ∧
        opener.kind.closer? = some c.closer.kind ∧ later = inside ++ c.closer :: c.after := by
  constructor
  · intro closed
    have kind := closing_kind opens closed
    have split := closing_split closed
    rw [closing, closingFrom, kind] at closed
    obtain ⟨d, found, rfl⟩ := exists_of_map_ok closed
    have walked := closingFrom_inside found [] rfl
    exact ⟨d.before, rfl, nested_iff_balanced.mpr walked, kind, (List.cons.inj split).2⟩
  · intro given
    obtain ⟨inside, before, nested, kind, rfl⟩ := given
    have closes := Kind.isCloser_of_closer? kind
    have walked := closingFrom_walk opener nested.balanced (List.cons_ne_nil c.closer.kind [])
      (c.closer :: c.after)
    rw [List.map_nil, List.nil_append, closingFrom_closer closes rfl] at walked
    rw [closing, closingFrom, kind]
    simp only [walked, Except.map, Closing.within, List.append_nil, ← before]

-- Tokens and groups, and closers that close nothing among them.
inductive Grouped : List Token → Prop where
  | nothing : Grouped []
  | token {token : Token} {later : List Token} : ¬token.kind.isOpener → Grouped later →
      Grouped (token :: later)
  | group {opener closer : Token} {inside later : List Token} :
      opener.kind.closer? = some closer.kind → Nested (kindsOf inside) → Grouped later →
      Grouped (opener :: inside ++ closer :: later)

namespace Grouped

theorem token_iff {token : Token} {later : List Token} (flat : ¬token.kind.isOpener) :
    Grouped (token :: later) ↔ Grouped later := by
  constructor
  · intro grouped
    generalize whole : token :: later = tokens at grouped
    cases grouped with
    | nothing => cases whole
    | token _ rest =>
      cases whole
      exact rest
    | group opens =>
      cases whole
      exact absurd (by rw [Kind.isOpener, opens]; rfl) flat
  · intro grouped
    exact .token flat grouped

theorem closed {opener : Token} {later : List Token} (opens : opener.kind.isOpener)
    (grouped : Grouped (opener :: later)) :
    ∃ group, closing opener later = .ok group ∧ Grouped group.after := by
  generalize whole : opener :: later = tokens at grouped
  cases grouped with
  | nothing => cases whole
  | token flat =>
    cases whole
    exact absurd opens flat
  | @group _ closer inside rest kind nested after =>
    cases whole
    exact ⟨⟨opener :: inside, closer, rest⟩,
      (closing_eq_ok_iff opens).mpr ⟨inside, rfl, nested, kind, rfl⟩, after⟩

theorem group_iff {opener : Token} {later : List Token} {group : Closing}
    (opens : opener.kind.isOpener) (closed : closing opener later = .ok group) :
    Grouped (opener :: later) ↔ Grouped group.after := by
  constructor
  · intro grouped
    obtain ⟨other, same, after⟩ := grouped.closed opens
    cases closed.symm.trans same
    exact after
  · intro after
    obtain ⟨inside, _, nested, kind, rfl⟩ := (closing_eq_ok_iff opens).mp closed
    exact .group kind nested after

end Grouped

-- Marks of the given kinds and well nested tokens in square brackets behind them.
def Bracketed (marks : List Kind) (own : List Token) : Prop :=
  ∃ lead bracket inside close, own = lead ++ bracket :: inside ++ [close] ∧ kindsOf lead = marks ∧
    bracket.kind = .openSquare ∧ close.kind = .closeSquare ∧ Nested (kindsOf inside)

theorem bracketed_of_closing {bracket : Token} (lead : List Token) {later : List Token}
    {group : Closing} (square : bracket.kind = .openSquare) (closed : closing bracket later = .ok group) :
    ∃ own, lead ++ bracket :: later = own ++ group.after ∧ Bracketed (kindsOf lead) own ∧
      own = lead ++ (group.before ++ [group.closer]) := by
  have opens : bracket.kind.isOpener := by rw [square]; rfl
  obtain ⟨inside, before, nested, kind, rfl⟩ := (closing_eq_ok_iff opens).mp closed
  rw [square, Kind.closer?, Option.some.injEq] at kind
  refine ⟨lead ++ bracket :: inside ++ [group.closer], by simp, ?_, by simp [before]⟩
  exact ⟨lead, bracket, inside, group.closer, rfl, rfl, square, kind.symm, nested⟩

theorem Unattributed.of_append {tokens more : List Token} (bare : Unattributed (tokens ++ more)) :
    Unattributed tokens := by
  match tokens, more, bare with
  | [], _, _ => trivial
  | [_], [], bare => exact bare
  | [_], _ :: _, bare => exact bare.1
  | _ :: _ :: _, _, bare => exact bare

-- Tokens that end with braces, and what stands between these.
structure Braced (own head : List Token) (opener : Token) (inside : List Token) (close : Token) :
    Prop where
  split : own = head ++ opener :: inside ++ [close]
  opens : opener.kind = .openCurly
  closes : close.kind = .closeCurly
  nested : Nested (kindsOf inside)

theorem Braced.more {own head inside : List Token} {opener close : Token}
    (braced : Braced own head opener inside close) (front : List Token) :
    Braced (front ++ own) (front ++ head) opener inside close where
  split := by rw [braced.split]; simp
  opens := braced.opens
  closes := braced.closes
  nested := braced.nested

-- The inside of a module stands in the braces that end it, behind the word for a module.
theorem Taken.braced {found : Option ItemKeyword} {tokens : List Token} {s : Stretch}
    (taken : Taken found tokens s) {inside : List Token} {close : Token}
    (within : s.inside = some (inside, close)) : ∃ head opener,
      Braced s.tokens head opener inside close ∧ s.keyword = some .submodule ∧
        (found = none → head ≠ []) := by
  induction taken with
  | nothing => cases within
  | semicolon => cases within
  | @braces found opener later group curly _ closed =>
    simp only [insideOf, Option.ite_none_right_eq_some, Option.some.injEq, Prod.mk.injEq] at within
    obtain ⟨word, rfl, rfl⟩ := within
    obtain ⟨inside, before, nested, kind, _⟩ := (closing_eq_ok_iff (by rw [curly]; rfl)).mp closed
    rw [curly, Kind.closer?, Option.some.injEq] at kind
    refine ⟨[], opener, ⟨by simp [before], curly, kind.symm, by rwa [before]⟩, word, fun none => ?_⟩
    cases word.symm.trans none
  | @group found opener later group s _ _ _ _ ih =>
    obtain ⟨head, brace, braced, word, _⟩ := ih within
    exact ⟨_, brace, braced.more _, word, fun _ => by simp⟩
  | @token found token later s _ _ _ _ ih =>
    obtain ⟨head, brace, braced, word, _⟩ := ih within
    exact ⟨_, brace, braced.more [token], word, fun _ => by simp⟩
  | @keyword token later keyword s _ _ _ _ ih =>
    obtain ⟨head, brace, braced, word, _⟩ := ih within
    exact ⟨_, brace, braced.more [token], word, fun _ => by simp⟩

theorem Taken.keyword_of {known : ItemKeyword} {found : Option ItemKeyword} {tokens : List Token}
    {s : Stretch} (taken : Taken found tokens s) (same : found = some known) :
    s.keyword = some known := by
  subst same
  exact takeItem_keyword taken.found

theorem Braced.length_ge {own head inside : List Token} {opener close : Token}
    (braced : Braced own head opener inside close) : 2 ≤ own.length := by
  have length := congrArg List.length braced.split
  simp only [List.length_append, List.length_cons] at length
  omega

-- Braces at the end of tokens that begin with another token are braces at the end of what is behind it.
theorem Braced.tail {token : Token} {own head inside : List Token} {opener close : Token}
    (braced : Braced (token :: own) head opener inside close) (other : token.kind ≠ .openCurly) :
    ∃ rest, Braced own rest opener inside close := by
  obtain ⟨split, opens, closes, nested⟩ := braced
  cases head with
  | nil =>
    obtain ⟨rfl, _⟩ := List.cons.inj split
    exact absurd opens other
  | cons first rest => exact ⟨rest, (List.cons.inj split).2, opens, closes, nested⟩

-- Braces at the end do not begin in a group that is closed before.
theorem Braced.behind_group {first closer : Token} {within own head inside : List Token} {opener close : Token}
    (braced : Braced (first :: (within ++ closer :: own)) head opener inside close)
    (other : first.kind ≠ .openCurly) (nested : Nested (kindsOf within)) (closes : closer.kind.isCloser) :
    ∃ rest, Braced own rest opener inside close := by
  have plain : closer.kind ≠ .openCurly := by
    intro same
    rw [same] at closes
    cases closes
  have opens : opener.kind.isOpener := by
    rw [braced.opens]
    rfl
  obtain ⟨rest, behind⟩ := braced.tail other
  have split : within ++ closer :: own = rest ++ (opener :: inside ++ [close]) := by
    rw [behind.split, List.append_assoc]
  rcases List.append_eq_append_iff.mp split with ⟨more, _, later⟩ | ⟨more, early, later⟩
  · have passed : Braced (closer :: own) more opener inside close :=
      ⟨by rw [later, List.append_assoc], behind.opens, behind.closes, behind.nested⟩
    exact passed.tail plain
  · cases more with
    | nil =>
      obtain ⟨rfl, _⟩ := List.cons.inj later
      exact absurd behind.opens plain
    | cons brace front =>
      obtain ⟨rfl, ends⟩ : opener = brace ∧ inside ++ [close] = front ++ closer :: own := List.cons.inj later
      have shown : inside = front ++ (closer :: own).dropLast := by
        have short := congrArg List.dropLast ends
        rwa [List.dropLast_concat, List.dropLast_append_of_ne_nil (List.cons_ne_nil _ _)] at short
      rw [early, kindsOf_append, kindsOf_cons] at nested
      have again := behind.nested
      rw [shown, kindsOf_append] at again
      exact absurd again (nested.not_behind opens _)

-- No braces end these tokens.
def Unbraced (own : List Token) : Prop :=
  ∀ head opener inside close, ¬Braced own head opener inside close

-- A module whose inside is not taken has none.
theorem Taken.unbraced {found : Option ItemKeyword} {tokens : List Token} {s : Stretch}
    (taken : Taken found tokens s) (none : s.inside = none) (word : s.keyword = some .submodule) :
    Unbraced s.tokens := by
  intro head opener inside close
  induction taken generalizing head with
  | nothing | semicolon =>
    intro braced
    exact absurd braced.length_ge (by simp)
  | @braces found opener later group =>
    rw [insideOf, if_pos word] at none
    cases none
  | @group found first later group s opens passed closed after ih =>
    intro braced
    obtain ⟨within, before, nested, kind, _⟩ := (closing_eq_ok_iff opens).mp closed
    have other : first.kind ≠ .openCurly := by
      intro curly
      have ends := passed curly
      cases found with
      | none => cases ends
      | some known =>
        have same := word.symm.trans (after.keyword_of rfl)
        obtain rfl := Option.some.inj same
        cases ends
    rw [before, List.append_assoc] at braced
    obtain ⟨rest, behind⟩ := braced.behind_group other nested (Kind.isCloser_of_closer? kind)
    exact ih none word rest behind
  | @token found token later s _ plain _ _ ih =>
    intro braced
    have other : token.kind ≠ .openCurly := fun same => plain (by rw [same]; rfl)
    obtain ⟨rest, behind⟩ := braced.tail other
    exact ih none word rest behind
  | @keyword token later keyword s _ plain _ _ ih =>
    intro braced
    have other : token.kind ≠ .openCurly := fun same => plain (by rw [same]; rfl)
    obtain ⟨rest, behind⟩ := braced.tail other
    exact ih none word rest behind

end Deasync
