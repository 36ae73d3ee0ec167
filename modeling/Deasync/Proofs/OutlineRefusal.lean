import Deasync.Proofs.FaultRanges
import Deasync.Proofs.Nesting

namespace Deasync

open Grammar

theorem Bracketed.closing {marks : List Kind} {own : List Token} (bracketed : Bracketed marks own)
    (more : List Token) : ∃ lead bracket later group, own ++ more = lead ++ bracket :: later ∧
      kindsOf lead = marks ∧ bracket.kind = .openSquare ∧
      Deasync.closing bracket later = .ok group ∧ group.after = more := by
  obtain ⟨lead, bracket, inside, close, rfl, kinds, square, due, nested⟩ := bracketed
  have opens : bracket.kind.isOpener := by rw [square]; rfl
  refine ⟨lead, bracket, inside ++ close :: more, ⟨bracket :: inside, close, more⟩, by simp, kinds,
    square, (closing_eq_ok_iff opens).mpr ⟨inside, rfl, nested, ?_, rfl⟩, rfl⟩
  rw [square, Kind.closer?, due]

-- An item is found in front, these are its tokens, and nothing that follows is part of it.
def WholeItem (own : List Token) : Prop :=
  (∃ token later, own = token :: later ∧ ¬token.kind.isCloser) ∧
    ∀ more, Unattributed (own ++ more) ∧ innerBracket? (own ++ more) = none ∧
      ∃ s, takeItem none (own ++ more) = .ok s ∧ s.tokens = own ∧ s.rest = more

theorem Taken.whole {found : Option ItemKeyword} {tokens : List Token} {s : Stretch}
    (taken : Taken found tokens s) (filled : s.rest ≠ []) (more : List Token) :
    Taken found (s.tokens ++ more) { s with rest := more } := by
  induction taken with
  | nothing => exact absurd rfl filled
  | semicolon semicolon => exact .semicolon semicolon
  | @braces found opener later group curly short closed =>
    obtain ⟨own, _, row, alone⟩ := closing_alone (by rw [curly]; rfl) closed
    have whole := closing_append alone more
    have same : group.before ++ [group.closer] ++ more = opener :: (own ++ more) := by rw [row]; rfl
    change Taken found (group.before ++ [group.closer] ++ more) _
    rw [same]
    exact .braces curly short whole
  | @group found opener later group s opens passed closed _ ih =>
    obtain ⟨own, _, row, alone⟩ := closing_alone opens closed
    have whole := closing_append alone (s.tokens ++ more)
    have same : group.before ++ [group.closer] ++ (s.tokens ++ more) =
        opener :: (own ++ (s.tokens ++ more)) := by rw [row]; rfl
    rw [List.append_assoc, same]
    exact .group opens passed whole (ih filled)
  | @token found token later s other flat silent taken ih =>
    have some : s.tokens ≠ [] := fun empty => filled (taken.eq_nothing empty).2.1
    refine .token other flat (fun none => ?_) (ih filled)
    rw [ItemKeyword.of?_append some, ← ItemKeyword.of?_append some s.rest, ← taken.split.1,
      silent none]
  | @keyword token later keyword s other flat meant taken ih =>
    have some : s.tokens ≠ [] := fun empty => filled (taken.eq_nothing empty).2.1
    have same : declaredBy later s.tokens = declaredBy (s.tokens ++ more) s.tokens := by
      rw [declaredBy_append some, ← declaredBy_append some s.rest, ← taken.split.1]
    rw [same]
    refine .keyword other flat ?_ (ih filled)
    rw [ItemKeyword.of?_append some, ← ItemKeyword.of?_append some s.rest, ← taken.split.1, meant]

theorem innerBracket?_of_append {tokens more : List Token}
    (none : innerBracket? (tokens ++ more) = none) : innerBracket? tokens = .none := by
  refine innerBracket?_eq_none_iff.mpr fun hash bang bracket rest same => ?_
  rw [same] at none
  exact innerBracket?_eq_none_iff.mp none hash bang bracket (rest ++ more) rfl

theorem Taken.wholeItem {token : Token} {later : List Token} {s : Stretch}
    (bare : Unattributed (token :: later)) (inner : innerBracket? (token :: later) = none)
    (flat : ¬token.kind.isCloser) (taken : Taken none (token :: later) s) (filled : s.rest ≠ []) :
    WholeItem s.tokens := by
  have mark := taken.mark (.inl filled)
  obtain ⟨split, own⟩ := taken.split
  rw [split] at bare inner
  constructor
  · obtain ⟨first, others, begins⟩ := List.exists_cons_of_ne_nil (own (List.cons_ne_nil _ _))
    rw [begins] at split
    cases split
    exact ⟨_, others, begins, flat⟩
  · intro more
    refine ⟨bare.of_append.append mark more, innerBracket?_append (innerBracket?_of_append inner) mark
      more, { s with rest := more }, (taken.whole filled more).found, rfl, rfl⟩

variable {text : String} {behind : Option Token}

theorem Led.grouped_iff {tokens rest : List Token} {sites : List AttributeSite}
    (led : Led text behind tokens sites rest) : Grouped tokens ↔ Grouped rest := by
  induction led with
  | done => exact Iff.rfl
  | @doc token later rest sites doc _ ih =>
    have flat : ¬token.kind.isOpener := by
      rcases Kind.isDoc_iff.mp doc with same | same <;> rw [same] <;> decide
    rw [Grouped.token_iff flat, ih]
  | @attributed hash bracket later rest group site sites mark square closed _ _ ih =>
    have flat : ¬hash.kind.isOpener := by rw [mark]; decide
    have opens : bracket.kind.isOpener := by rw [square]; rfl
    rw [Grouped.token_iff flat, Grouped.group_iff opens closed, ih]

theorem Taken.grouped_iff {found : Option ItemKeyword} {tokens : List Token} {s : Stretch}
    (taken : Taken found tokens s) : Grouped tokens ↔ Grouped s.rest := by
  induction taken with
  | nothing => exact Iff.rfl
  | @semicolon found token later semicolon =>
    have flat : ¬token.kind.isOpener := by rw [semicolon]; decide
    exact Grouped.token_iff flat
  | @braces found opener later group curly _ closed =>
    have opens : opener.kind.isOpener := by rw [curly]; rfl
    exact Grouped.group_iff opens closed
  | group opens _ closed _ ih => rw [Grouped.group_iff opens closed, ih]
  | token _ flat _ _ ih => rw [Grouped.token_iff flat, ih]
  | keyword _ flat _ _ ih => rw [Grouped.token_iff flat, ih]

theorem innerBracket?_grouped {tokens rest : List Token} {bracket : Token}
    (found : innerBracket? tokens = some (bracket, rest)) :
    bracket.kind.isOpener ∧ (Grouped tokens ↔ Grouped (bracket :: rest)) := by
  obtain ⟨hash, bang, rfl, mark, exclaims, square⟩ := innerBracket?_eq_some_iff.mp found
  have flat : ¬hash.kind.isOpener ∧ ¬bang.kind.isOpener := by rw [mark, exclaims]; decide
  rw [Grouped.token_iff flat.1, Grouped.token_iff flat.2, square]
  exact ⟨rfl, Iff.rfl⟩

theorem Grouped.leadingAttributes_ok {tokens : List Token} (grouped : Grouped tokens) (text : String)
    (behind : Option Token) : ∃ sites rest,
      leadingAttributes text behind tokens = .ok (sites, rest) := by
  fun_induction leadingAttributes text behind tokens with
  | case1 => exact ⟨_, _, rfl⟩
  | case2 token later doc ih =>
    have flat : ¬token.kind.isOpener := by
      rcases Kind.isDoc_iff.mp doc with same | same <;> rw [same] <;> decide
    exact ih ((Grouped.token_iff flat).mp grouped)
  | case3 => exact ⟨_, _, rfl⟩
  | case4 token doc hash second rest square fault failed =>
    have flat : ¬token.kind.isOpener := by rw [hash]; decide
    obtain ⟨group, closed, _⟩ :=
      ((Grouped.token_iff flat).mp grouped).closed (by rw [square]; rfl)
    cases failed.symm.trans closed
  | case5 token doc hash second rest square group closed fault failed =>
    obtain ⟨inside, before, nested, _⟩ := (closing_eq_ok_iff (by rw [square]; rfl)).mp closed
    have level : Level group.before.tail (outerKinds 0 (kindsOf inside)) := by
      rw [before]
      exact nested.level
    obtain ⟨site, found⟩ := level.attributeSite_ok text behind token
    cases failed.symm.trans found
  | case6 token doc hash second rest square group closed site found ih =>
    have flat : ¬token.kind.isOpener := by rw [hash]; decide
    have after := (Grouped.group_iff (by rw [square]; rfl) closed).mp
      ((Grouped.token_iff flat).mp grouped)
    obtain ⟨sites, rest, led⟩ := ih after
    exact ⟨site :: sites, rest, by rw [led]; rfl⟩
  | case7 => exact ⟨_, _, rfl⟩
  | case8 => exact ⟨_, _, rfl⟩

theorem Grouped.takeItem_ok {tokens : List Token} (grouped : Grouped tokens)
    (found : Option ItemKeyword) : ∃ s, takeItem found tokens = .ok s := by
  fun_induction takeItem found tokens with
  | case1 => exact ⟨_, rfl⟩
  | case2 => exact ⟨_, rfl⟩
  | case3 found token later semicolon opener fault failed =>
    obtain ⟨group, closed, _⟩ := grouped.closed opener
    cases failed.symm.trans closed
  | case4 => exact ⟨_, rfl⟩
  | case5 found token later semicolon opener group closed own ends =>
    rename_i ih
    obtain ⟨s, taken⟩ := ih ((Grouped.group_iff opener closed).mp grouped)
    exact ⟨_, by rw [taken]; rfl⟩
  | case6 token later semicolon flat keyword ih =>
    obtain ⟨s, taken⟩ := ih ((Grouped.token_iff flat).mp grouped)
    exact ⟨_, by rw [taken]; rfl⟩
  | case7 token later semicolon flat silent ih =>
    obtain ⟨s, taken⟩ := ih ((Grouped.token_iff flat).mp grouped)
    exact ⟨_, by rw [taken]; rfl⟩
  | case8 token later semicolon flat keyword meant ih =>
    obtain ⟨s, taken⟩ := ih ((Grouped.token_iff flat).mp grouped)
    exact ⟨_, by rw [taken]; rfl⟩

theorem Levelled.grouped {tokens : List Token} {o : Outline} (level : Levelled text behind tokens o) :
    Grouped tokens := by
  induction level with
  | nothing => exact .nothing
  | trailing _ led => exact led.grouped_iff.mpr .nothing
  | inner led found closed _ ih =>
    obtain ⟨opens, same⟩ := innerBracket?_grouped found
    rw [led.grouped_iff, same, Grouped.group_iff opens closed]
    exact ih
  | item led _ _ taken _ _ ih => rwa [led.grouped_iff, taken.grouped_iff]
  | submodule led _ _ taken _ _ _ _ ih => rwa [led.grouped_iff, taken.grouped_iff]

-- Tokens in front of which and behind which an item may begin.
inductive PassedOver : List Token → Prop where
  | doc {token : Token} : token.kind.isDoc → PassedOver [token]
  | outer {own : List Token} : Bracketed [.hash] own → PassedOver own
  | inner {own : List Token} : Bracketed [.hash, .bang] own → PassedOver own
  | item {own : List Token} : WholeItem own → PassedOver own

inductive CloserBegins : List Token → Prop where
  | here {closer : Token} {after : List Token} : closer.kind.isCloser → CloserBegins (closer :: after)
  | behind {own later : List Token} : PassedOver own → CloserBegins later → CloserBegins (own ++ later)

theorem CloserBegins.nonempty {tokens : List Token} (begins : CloserBegins tokens) : tokens ≠ [] := by
  induction begins with
  | here => exact List.cons_ne_nil _ _
  | behind _ _ ih =>
    intro empty
    exact ih (List.append_eq_nil_iff.mp empty).2

theorem Led.closerBegins {tokens rest : List Token} {sites : List AttributeSite}
    (led : Led text behind tokens sites rest) (begins : CloserBegins rest) : CloserBegins tokens := by
  induction led with
  | done => exact begins
  | doc doc _ ih => exact .behind (.doc doc) (ih begins)
  | @attributed hash bracket later rest group site sites mark square closed _ _ ih =>
    obtain ⟨own, split, bracketed, _⟩ := bracketed_of_closing [hash] square closed
    rw [← List.singleton_append, split]
    exact .behind (.outer (by simpa [kindsOf, mark] using bracketed)) (ih begins)

theorem innerBracket?_closerBegins {tokens rest : List Token} {bracket : Token} {group : Closing}
    (found : innerBracket? tokens = some (bracket, rest)) (closed : closing bracket rest = .ok group)
    (begins : CloserBegins group.after) : CloserBegins tokens := by
  obtain ⟨hash, bang, rfl, mark, exclaims, square⟩ := innerBracket?_eq_some_iff.mp found
  obtain ⟨own, split, bracketed, _⟩ := bracketed_of_closing [hash, bang] square closed
  have whole : hash :: bang :: bracket :: rest = own ++ group.after := split
  rw [whole]
  exact .behind (.inner (by simpa [kindsOf, mark, exclaims] using bracketed)) begins

theorem Taken.closerBegins {token : Token} {later : List Token} {s : Stretch}
    (taken : Taken none (token :: later) s) (bare : Unattributed (token :: later))
    (inner : innerBracket? (token :: later) = none) (flat : ¬token.kind.isCloser)
    (begins : CloserBegins s.rest) : CloserBegins (token :: later) := by
  have whole := taken.wholeItem bare inner flat begins.nonempty
  rw [taken.split.1]
  exact .behind (.item whole) begins

theorem Led.unique {tokens rest after : List Token} {sites others : List AttributeSite}
    (led : Led text behind tokens sites rest) (again : Led text behind tokens others after) :
    sites = others ∧ rest = after := by
  cases led.found.symm.trans again.found
  exact ⟨rfl, rfl⟩

-- Attributes in front do not matter to what is behind them.
theorem Levelled.relead {tokens rest more : List Token} {sites others : List AttributeSite}
    {o : Outline} (level : Levelled text behind tokens o) (led : Led text behind tokens sites rest)
    (other : Led text behind more others rest) : ∃ o, Levelled text behind more o := by
  have nothing (empty : rest = []) : ∃ o, Levelled text behind more o := by
    subst empty
    cases more with
    | nil => exact ⟨_, .nothing⟩
    | cons => exact ⟨_, .trailing (List.cons_ne_nil _ _) other⟩
  cases level with
  | nothing =>
    cases led
    exact nothing rfl
  | trailing _ again => exact nothing (led.unique again).2
  | inner again found closed next =>
    obtain ⟨_, rfl⟩ := led.unique again
    exact ⟨_, .inner other found closed next⟩
  | item again inner flat taken single next =>
    obtain ⟨_, rfl⟩ := led.unique again
    obtain ⟨_, _, rfl⟩ := List.exists_cons_of_ne_nil (other.nonempty (List.cons_ne_nil _ _))
    exact ⟨_, .item other inner flat taken single next⟩
  | submodule again inner flat taken braced within next =>
    obtain ⟨_, rfl⟩ := led.unique again
    obtain ⟨_, _, rfl⟩ := List.exists_cons_of_ne_nil (other.nonempty (List.cons_ne_nil _ _))
    exact ⟨_, .submodule other inner flat taken braced within next⟩

theorem Levelled.led {tokens : List Token} {o : Outline} (level : Levelled text behind tokens o) :
    ∃ sites rest, Led text behind tokens sites rest := by
  cases level with
  | nothing => exact ⟨_, _, .done trivial⟩
  | trailing _ led => exact ⟨_, _, led⟩
  | inner led => exact ⟨_, _, led⟩
  | item led => exact ⟨_, _, led⟩
  | submodule led => exact ⟨_, _, led⟩

-- Without attributes in front there is an inner attribute or an item, and what is behind it.
theorem Levelled.bare {token : Token} {later : List Token} {o : Outline}
    (level : Levelled text behind (token :: later) o) (bare : Unattributed (token :: later)) :
    (∃ bracket rest group, innerBracket? (token :: later) = some (bracket, rest) ∧
      closing bracket rest = .ok group ∧ ∃ o, Levelled text behind group.after o) ∨
    innerBracket? (token :: later) = none ∧ ¬token.kind.isCloser ∧
      ∃ s, takeItem none (token :: later) = .ok s ∧ ∃ o, Levelled text behind s.rest o := by
  have here : Led text behind (token :: later) [] (token :: later) := .done bare
  cases level with
  | trailing _ led => cases (here.unique led).2
  | inner led found closed next =>
    obtain ⟨_, rfl⟩ := here.unique led
    exact .inl ⟨_, _, _, found, closed, _, next⟩
  | item led inner flat taken _ next =>
    cases (here.unique led).2
    exact .inr ⟨inner, flat, _, taken.found, _, next⟩
  | submodule led inner flat taken _ _ next =>
    cases (here.unique led).2
    exact .inr ⟨inner, flat, _, taken.found, _, next⟩

theorem PassedOver.levelled {own later : List Token} {o : Outline} (passed : PassedOver own)
    (level : Levelled text behind (own ++ later) o) : ∃ rest, Levelled text behind later rest := by
  cases passed with
  | @doc token doc =>
    obtain ⟨sites, rest, led⟩ := level.led
    have next : Led text behind later sites rest := by
      cases id led with
      | done bare =>
        cases later with
        | nil => exact absurd doc bare
        | cons => exact absurd doc bare.1
      | doc _ next => exact next
      | attributed mark =>
        rw [mark] at doc
        cases doc
    exact level.relead led next
  | outer bracketed =>
    obtain ⟨lead, bracket, inside, group, split, kinds, square, closed, rfl⟩ :=
      bracketed.closing later
    obtain ⟨hash, rfl, mark⟩ : ∃ hash, lead = [hash] ∧ hash.kind = .hash := by
      simpa [kindsOf, List.map_eq_cons_iff] using kinds
    rw [split] at level
    obtain ⟨sites, rest, led⟩ := level.led
    have next : ∃ others, Led text behind group.after others rest := by
      cases id led with
      | done bare => exact absurd ⟨mark, square⟩ bare.2
      | doc doc =>
        rw [mark] at doc
        cases doc
      | attributed _ _ again _ next =>
        cases closed.symm.trans again
        exact ⟨_, next⟩
    obtain ⟨others, next⟩ := next
    exact level.relead led next
  | inner bracketed =>
    obtain ⟨lead, bracket, inside, group, split, kinds, square, closed, rfl⟩ :=
      bracketed.closing later
    obtain ⟨hash, bang, rfl, mark, exclaims⟩ :
        ∃ hash bang, lead = [hash, bang] ∧ hash.kind = .hash ∧ bang.kind = .bang := by
      simpa [kindsOf, List.map_eq_cons_iff] using kinds
    rw [split] at level
    have bare : Unattributed ([hash, bang] ++ bracket :: inside) := by
      refine ⟨by rw [mark]; decide, fun both => ?_⟩
      cases exclaims.symm.trans both.2
    have found : innerBracket? ([hash, bang] ++ bracket :: inside) = some (bracket, inside) :=
      innerBracket?_eq_some_iff.mpr ⟨hash, bang, rfl, mark, exclaims, square⟩
    rcases level.bare bare with ⟨other, rest, again, also, same, next⟩ | ⟨missed, _⟩
    · cases found.symm.trans also
      cases closed.symm.trans same
      exact next
    · cases found.symm.trans missed
  | item whole =>
    obtain ⟨⟨token, rest, rfl, _⟩, whole⟩ := whole
    obtain ⟨bare, inner, s, taken, _, rfl⟩ := whole later
    rcases level.bare bare with ⟨_, _, _, found, _⟩ | ⟨_, _, again, also, next⟩
    · cases inner.symm.trans found
    · cases taken.symm.trans also
      exact next

theorem CloserBegins.not_levelled {tokens : List Token} (begins : CloserBegins tokens) {o : Outline} :
    ¬Levelled text behind tokens o := by
  induction begins generalizing o with
  | @here closer after closes =>
    intro level
    have other : ¬closer.kind.isDoc ∧ closer.kind ≠ .hash := by
      cases kind : closer.kind <;> first | decide | (rw [kind] at closes; cases closes)
    have bare : Unattributed (closer :: after) := by
      cases after with
      | nil => exact other.1
      | cons => exact ⟨other.1, fun both => other.2 both.1⟩
    rcases level.bare bare with ⟨bracket, rest, group, found, _⟩ | ⟨_, flat, _⟩
    · obtain ⟨hash, bang, same, mark, _⟩ := innerBracket?_eq_some_iff.mp found
      cases same
      exact other.2 mark
    · exact flat closes
  | behind passed _ ih =>
    intro level
    obtain ⟨rest, next⟩ := passed.levelled level
    exact ih next

-- An item and the attributes in front of it are passed over.
theorem closerBegins_item {first token : Token} {others later : List Token}
    {sites : List AttributeSite} {s : Stretch}
    (found : leadingAttributes text behind (first :: others) = .ok (sites, token :: later))
    (inner : innerBracket? (token :: later) = none) (flat : ¬token.kind.isCloser)
    (fetched : takeItem none (token :: later) = .ok s) (grouped : Grouped (first :: others))
    (onward : Grouped s.rest → CloserBegins s.rest) : CloserBegins (first :: others) := by
  have led := led_of_leadingAttributes found
  have taken := taken_of_takeItem fetched
  obtain ⟨_, _, _, bare, _⟩ := led.split
  have after := taken.grouped_iff.mp (led.grouped_iff.mp grouped)
  exact led.closerBegins (taken.closerBegins bare inner flat (onward after))

-- When every group ends, only a closer where an item begins makes the outline fail.
theorem outlineLevel_error {tokens : List Token} {fault : Fault}
    (failed : outlineLevel text behind tokens = .error fault) (grouped : Grouped tokens) :
    CloserBegins tokens := by
  fun_induction outlineLevel text behind tokens with
  | case1 => cases failed
  | case2 behind first others other refused =>
    obtain ⟨sites, rest, led⟩ := grouped.leadingAttributes_ok text behind
    cases refused.symm.trans led
  | case3 => cases failed
  | case4 behind first others sites token later led bracket rest inner other refused =>
    obtain ⟨opens, same⟩ := innerBracket?_grouped inner
    have after := (led_of_leadingAttributes led).grouped_iff.mp grouped
    obtain ⟨group, closed, _⟩ := (same.mp after).closed opens
    cases refused.symm.trans closed
  | case5 behind first others sites token later led bracket rest inner group closed ih =>
    obtain ⟨opens, same⟩ := innerBracket?_grouped inner
    have led := led_of_leadingAttributes led
    have after := (Grouped.group_iff opens closed).mp (same.mp (led.grouped_iff.mp grouped))
    exact led.closerBegins (innerBracket?_closerBegins inner closed (ih failed after))
  | case6 behind first others sites token later led inner closes =>
    exact (led_of_leadingAttributes led).closerBegins (.here closes)
  | case7 behind first others sites token later led inner flat other refused =>
    have after := (led_of_leadingAttributes led).grouped_iff.mp grouped
    obtain ⟨s, taken⟩ := after.takeItem_ok none
    cases refused.symm.trans taken
  | case8 behind first others sites token later led inner flat s taken here inside =>
    rename_i ih
    exact closerBegins_item led inner flat taken grouped (ih (error_of_map failed))
  | case9 behind first others sites token later led inner flat s taken inside close found other refused
      ih =>
    -- the inside of a module is well nested and has an outline
    obtain ⟨head, opener, braced, _⟩ := (taken_of_takeItem taken).braced found
    obtain ⟨o, outlined⟩ := braced.nested.level.outline_ok text (some close)
    cases refused.symm.trans outlined
  | case10 behind first others sites token later led inner flat s taken here inside close found within
      outlined ihInside =>
    rename_i ih
    exact closerBegins_item led inner flat taken grouped (ih (error_of_map failed))

theorem outlineLevel_error_iff (text : String) (behind : Option Token) (tokens : List Token) :
    (∃ fault, outlineLevel text behind tokens = .error fault) ↔
      ¬Grouped tokens ∨ CloserBegins tokens := by
  constructor
  · intro refused
    obtain ⟨fault, failed⟩ := refused
    by_cases grouped : Grouped tokens
    · exact .inr (outlineLevel_error failed grouped)
    · exact .inl grouped
  · intro wrong
    cases outlined : outlineLevel text behind tokens with
    | error fault => exact ⟨fault, rfl⟩
    | ok o =>
      have level := levelled_of_outlineLevel outlined
      rcases wrong with open_ | begins
      · exact absurd level.grouped open_
      · exact absurd level begins.not_levelled

theorem ofText_error_iff (text : String) : (∃ fault, Outline.ofText text = .error fault) ↔
    (∃ fault, lex text = .error fault) ∨
      ∃ tokens, lex text = .ok tokens ∧ (¬Grouped tokens ∨ CloserBegins tokens) := by
  unfold Outline.ofText
  cases lexed : lex text with
  | error fault => exact ⟨fun _ => .inl ⟨fault, rfl⟩, fun _ => ⟨fault, rfl⟩⟩
  | ok tokens =>
    have refused := outlineLevel_error_iff text none tokens
    constructor
    · intro failed
      exact .inr ⟨tokens, rfl, refused.mp failed⟩
    · rintro (⟨fault, failed⟩ | ⟨again, same, wrong⟩)
      · cases failed
      · cases same
        exact refused.mpr wrong

theorem outline_refusal (text : String) :
    ((∃ fault, Outline.ofText text = .error fault) ↔ (∃ fault, lex text = .error fault) ∨
      ∃ tokens, lex text = .ok tokens ∧ (¬Grouped tokens ∨ CloserBegins tokens)) ∧
    ((∃ fault, Outline.ofText text = .error fault) → (∃ fault, lex text = .error fault) ∨
      ∃ tokens, lex text = .ok tokens ∧ ¬Nested (kindsOf tokens)) ∧
    ∀ fault, Outline.ofText text = .error fault → fault.cause.code = "E-PARSE" := by
  have refused := ofText_error_iff text
  refine ⟨refused, fun failed => ?_, fun fault failed => ?_⟩
  · rcases refused.mp failed with unread | ⟨tokens, lexed, wrong⟩
    · exact .inl unread
    · refine .inr ⟨tokens, lexed, fun nested => ?_⟩
      obtain ⟨o, outlined⟩ := nested.level.outline_ok text none
      obtain ⟨fault, failed⟩ := (outlineLevel_error_iff text none tokens).mpr wrong
      cases failed.symm.trans outlined
  · have family := List.mem_singleton.mp (ofText_points text fault failed).1
    rw [Cause.code, family]

def strayText : String := "struct A);"

-- A closing parenthesis inside an item closes nothing and is passed over.
theorem outline_passes_stray : ∃ tokens o, lex strayText = .ok tokens ∧
    ¬Nested (kindsOf tokens) ∧ Outline.ofText strayText = .ok o := by
  have lexed : (lex strayText).toOption.any fun tokens =>
      walk delimiterMove ((), []) (kindsOf tokens) = none := by decide +kernel
  have outlined : (Outline.ofText strayText).toOption.isSome := by decide +kernel
  obtain ⟨tokens, read, walked⟩ := (Option.any_eq_true _ _).mp lexed
  obtain ⟨o, found⟩ := Option.isSome_iff_exists.mp outlined
  refine ⟨tokens, o, toOption_eq_some read, fun nested => ?_, toOption_eq_some found⟩
  cases (of_decide_eq_true walked).symm.trans nested.balanced

end Deasync
