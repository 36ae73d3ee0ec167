import Deasync.Proofs.Grammar.Acceptance
import Deasync.Proofs.Levels

namespace Deasync

open Grammar

-- The state tells whether a group is open.
def semicolonMove (inside : Bool) (k : Kind) : Move Bool :=
  match k.closer? with
  | some closer => .enter closer true inside
  | none => if k.isCloser then .leave else if k = .semicolon ∧ !inside then .stop else .stay inside

-- Nonterminals that have semicolons of their own.
def Nonterminal.isInner : Nonterminal → Bool
  | .tree | .body | .method | .associated | .member => true
  | _ => false

def semicolons : Contract Nonterminal Bool where
  depth n := if n.closer?.isSome then 1 else 0
  entries n :=
    match n.closer? with
    | some closer => [(true, [(closer, false)]), (true, [(closer, true)])]
    | none => if n.isInner then [(true, [])] else [(false, []), (true, [])]
  exits _ entry :=
    match entry.2 with
    | (_, back) :: _ => [(back, [])]
    | [] => [(entry.1, [])]

theorem semicolons_checked (n : Nonterminal) :
    semicolons.checks semicolonMove declarations n := by
  cases n <;> decide +kernel

-- A walk from outside is inside as long as something is open.
inductive Sheltered : Place Bool → Prop where
  | outside : Sheltered (false, [])
  | inside {closer : Kind} {back : Bool} {stack : List (Kind × Bool)} : Sheltered (back, stack) →
      Sheltered (true, (closer, back) :: stack)

theorem Sheltered.inside_iff {place : Place Bool} (sheltered : Sheltered place) :
    place.1 = true ↔ place.2.length ≠ 0 := by
  cases sheltered <;> simp

theorem Sheltered.semicolon {place last : Place Bool} {ks : List Kind} (sheltered : Sheltered place)
    (walked : walk semicolonMove place ks = some last) :
    .semicolon ∉ outerKinds place.2.length ks := by
  induction ks generalizing place with
  | nil => simp [outerKinds]
  | cons k ks ih =>
    rw [walk] at walked
    obtain ⟨next, stepped, rest⟩ := Option.bind_eq_some_iff.mp walked
    have shape := sheltered.inside_iff
    obtain ⟨inside, stack⟩ := place
    simp only [walkStep, semicolonMove] at stepped
    cases opens : k.closer? with
    | some due =>
      simp only [opens] at stepped
      cases stepped
      have later := ih (.inside sheltered) rest
      rw [outerKinds_opener opens]
      split
      · have other : k ≠ .semicolon := by rintro rfl; cases opens
        simp only [List.mem_cons, not_or]
        exact ⟨other.symm, later⟩
      · exact later
    | none =>
      simp only [opens] at stepped
      by_cases closes : k.isCloser
      · simp only [closes, if_true] at stepped
        rw [outerKinds_closer closes]
        cases sheltered with
        | outside => cases stepped
        | inside below =>
          simp only at stepped
          split at stepped
          · cases stepped
            exact ih below rest
          · cases stepped
      · simp only [closes, Bool.false_eq_true, if_false] at stepped
        by_cases stray : k = .semicolon ∧ (!inside) = true
        · simp only [if_pos stray] at stepped
          cases stepped
        · simp only [if_neg stray] at stepped
          cases stepped
          have later := ih sheltered rest
          rw [outerKinds_plain opens closes]
          split
          · rename_i outer
            have flat : inside = false := by
              cases inside with
              | false => rfl
              | true => exact absurd outer (shape.mp rfl)
            simp only [List.mem_cons, not_or]
            refine ⟨?_, later⟩
            rintro rfl
            exact stray ⟨rfl, by rw [flat]; rfl⟩
          · exact later

theorem semicolon_not_outer {ks : List Kind} (spelled : declarations.Spells .declaration ks) :
    .semicolon ∉ outerKinds 0 ks := by
  obtain ⟨place, _, walked⟩ := Contract.walks semicolons_checked spelled (false, [])
    (by decide)
  exact Sheltered.outside.semicolon walked

theorem members_end {w : List Token} (spelled : declarations.Spells .members (kindsOf w)) :
    ∃ last, w.getLast? = some last ∧ last.kind = .closeCurly := by
  induction length : w.length using Nat.strongRecOn generalizing w with
  | ind most ih =>
    obtain ⟨rhs, listed, all⟩ := spells_iff_alternative.mp spelled
    have either : rhs = [.tok [.closeCurly]] ∨ rhs = [.ref .member, .ref .members] :=
      List.mem_pair.mp listed
    rcases either with rfl | rfl
    · obtain ⟨last, none, rfl, closes, empty⟩ := spellsAll_one all
      obtain rfl := List.map_eq_nil_iff.mp (spellsAll_nil.mp empty)
      exact ⟨last, rfl, closes⟩
    · obtain ⟨first, later, rfl, member, members⟩ := spellsAll_ref all
      have filled := spells_length_pos (by decide) member
      rw [List.length_append] at length
      obtain ⟨last, ends, closes⟩ := ih later.length (by omega) (spellsAll_last members) rfl
      exact ⟨last, by rw [List.getLast?_append, ends]; rfl, closes⟩

theorem declaration_end {w : List Token}
    (spelled : declarations.Spells .declaration (kindsOf w)) :
    ∃ last, w.getLast? = some last ∧ last.kind = .closeCurly := by
  obtain ⟨rhs, listed, all⟩ := spells_iff_alternative.mp spelled
  have closing : rhs.getLast? = some (.ref .members) := by
    rcases List.mem_pair.mp listed with rfl | rfl <;> rfl
  obtain ⟨front, rfl⟩ := List.getLast?_eq_some_iff.mp closing
  obtain ⟨head, members, rfl, _, later⟩ := spellsAll_append all
  obtain ⟨last, ends, closes⟩ := members_end (spellsAll_last later)
  exact ⟨last, by rw [List.getLast?_append, ends]; rfl, closes⟩

theorem Heading.exists_cons {tokens : List Token} (headed : Heading tokens) :
    ∃ token later, tokens = token :: later := by
  cases headed <;> exact ⟨_, _, rfl⟩

theorem Heading.not_inner {tokens : List Token} (headed : Heading tokens) :
    innerBracket? tokens = none := by
  cases inner : innerBracket? tokens with
  | none => rfl
  | some pair =>
    unfold innerBracket? at inner
    split at inner
    · split at inner
      · rename_i kinds
        obtain ⟨hash, bang, square⟩ := kinds
        cases headed with
        | word word => simp [hash] at word
        | skipped skip => simp [hash, Kind.isDoc] at skip
        | attributed _ bracket => simp [bang] at bracket
        | bare word => simp [hash] at word
        | enclosed word => simp [hash] at word
      · cases inner
    · cases inner

theorem outlineLevel_item {text : String} {behind : Option Token} {first token : Token}
    {others later : List Token} {sites : List AttributeSite} {s : Stretch} {o : Outline}
    (led : leadingAttributes text behind (first :: others) = .ok (sites, token :: later))
    (inner : innerBracket? (token :: later) = none)
    (taken : takeItem none (token :: later) = .ok s) (inside : s.inside = none)
    (outlined : outlineLevel text behind (first :: others) = .ok o) :
    ∃ rest, outlineLevel text behind s.rest = .ok rest ∧
      o.items = outlineItem first sites s :: rest.items := by
  rw [outlineLevel] at outlined
  split at outlined
  · cases outlined
  · rename_i void
    cases led.symm.trans void
  · rename_i found
    cases led.symm.trans found
    split at outlined
    · rename_i bracket
      cases inner.symm.trans bracket
    · split at outlined
      · cases outlined
      · split at outlined
        · cases outlined
        · rename_i found
          cases taken.symm.trans found
          split at outlined
          · obtain ⟨rest, level, rfl⟩ := exists_of_map_ok outlined
            exact ⟨rest, level, rfl⟩
          · rename_i within
            cases inside.symm.trans within

-- An item goes to the end of the tokens when nothing is left behind it.
theorem OutlineItem.Covers.stop_iff {item : OutlineItem} {own rest : List Token} {last : Token}
    {start stop : Nat} (covers : item.Covers own) (most : start ≤ stop)
    (row : InRow start stop (own ++ rest)) (ends : (own ++ rest).getLast? = some last) :
    item.stop = last.extent.stop ↔ rest = [] := by
  obtain ⟨final, back, same⟩ := covers.ends
  cases rest with
  | nil =>
    rw [List.append_nil, back] at ends
    cases ends
    simp [same]
  | cons next rest =>
    obtain ⟨middle, _, _, left, right⟩ := row.split most
    rw [List.getLast?_append_of_ne_nil _ (List.cons_ne_nil _ _)] at ends
    have here := left.to_stop final (List.mem_of_getLast? back)
    have there := right.from_start last (List.mem_of_getLast? ends)
    have filled := right.filled last (List.mem_of_getLast? ends)
    simp only [List.cons_ne_nil, iff_false]
    omega

theorem takeItem_inside {tokens : List Token} {s : Stretch} (taken : takeItem none tokens = .ok s)
    (keyword : s.keyword = some .contract ∨ s.keyword = some .implementation) : s.inside = none := by
  cases inside : s.inside with
  | none => rfl
  | some pair =>
    have word := (takeItem_encloses taken _ _ inside).1
    rcases keyword with same | same <;> rw [same] at word <;> cases word

-- The item at the front of a declaration. What is left behind it has further groups in braces.
theorem exists_first_item (text : String) {tokens : List Token}
    (spelled : declarations.Spells .declaration (kindsOf tokens)) :
    ∃ item own rest others all, tokens = own ++ rest ∧ item.Covers own ∧
      (item.keyword = some .contract ∨ item.keyword = some .implementation) ∧
      outlineLevel text none rest = .ok others ∧ outlineLevel text none tokens = .ok all ∧
      all.items = item :: others.items ∧
      (rest = [] ↔ (outerKinds 0 (kindsOf tokens)).count .openCurly = 1) := by
  have level := level_of_balanced (balanced_of_spells rfl spelled)
  obtain ⟨last, ends, brace⟩ := declaration_end spelled
  have single := semicolon_not_outer spelled
  have opened := level.brace ends brace
  obtain ⟨all, outlined⟩ := level.outline_ok text none
  obtain ⟨sites, behind, front, ks, led, split, plain, level⟩ := level.leadingAttributes_ok text none
  have headed := (heading_of_spells spelled).behind_attributes led
  obtain ⟨s, ls, taken, cut⟩ := level.takeItem_ok none
  have keyword := headed.keyword taken
  have short : ¬s.keyword.any ItemKeyword.endsAtSemicolon := by
    rcases keyword with same | same <;> rw [same] <;> decide
  rw [split] at single opened ⊢
  simp only [List.mem_append, not_or] at single opened
  obtain ⟨before, rfl, without⟩ := cut.braces short single.2 (opened.resolve_left plain)
  obtain ⟨first, others, rfl⟩ := List.exists_cons_of_ne_nil
    (List.ne_nil_of_mem (List.mem_of_getLast? ends))
  obtain ⟨token, later, rfl⟩ := headed.exists_cons
  obtain ⟨lead, whole, covers⟩ := covers_outlineItem led taken
  obtain ⟨rest, onward, items⟩ := outlineLevel_item led headed.not_inner taken
    (takeItem_inside taken keyword) outlined
  refine ⟨outlineItem first sites s, lead ++ s.tokens, s.rest, rest, all, whole, covers, keyword,
    onward, outlined, items, ?_⟩
  have closes : ∀ token, s.rest.getLast? = some token → token.kind = .closeCurly := by
    intro token final
    rw [whole, List.getLast?_append, final, Option.some_or, Option.some.injEq] at ends
    rw [ends, brace]
  rw [cut.behind.eq_nil_iff closes]
  simp [List.count_append, List.count_eq_zero.mpr plain, List.count_eq_zero.mpr without,
    List.count_eq_zero]

theorem declaration_outline {text : String} {d : Declaration}
    (read : Declaration.read text = .ok d) : ∃ tokens first last o item items,
      lex text = .ok tokens ∧ tokens.head? = some first ∧ tokens.getLast? = some last ∧
      Outline.ofText text = .ok o ∧ o.items = item :: items ∧ item.start = first.extent.start ∧
      (item.keyword = some .contract ∨ item.keyword = some .implementation) ∧
      (items = [] ∧ item.stop = last.extent.stop ↔
        (outerKinds 0 (kindsOf tokens)).count .openCurly = 1) := by
  obtain ⟨tokens, lexed, _, found, _⟩ := Declaration.read_eq_ok_iff.mp read
  have spelled := ((read_eq_ok_iff declarations_ranked).mp found).derives.spells
  obtain ⟨item, own, rest, others, all, split, covers, keyword, onward, outlined, items, single⟩ :=
    exists_first_item text spelled
  obtain ⟨last, ends, _⟩ := declaration_end spelled
  obtain ⟨first, begins, start⟩ := covers.begins
  have front : tokens.head? = some first := by
    rw [split, List.head?_append, begins]
    rfl
  have stop : item.stop = last.extent.stop ↔ rest = [] :=
    covers.stop_iff (Nat.zero_le _) (split ▸ lex_inRow lexed) (split ▸ ends)
  refine ⟨tokens, first, last, all, item, others.items, lexed, front, ends, ?_, items, start, keyword,
    ?_⟩
  · rw [Outline.ofText, lexed]
    exact outlined
  · rw [← single, stop]
    refine ⟨And.right, fun void => ⟨?_, void⟩⟩
    subst void
    rw [outlineLevel] at onward
    cases onward
    rfl

def sealedText : String :=
  "#[sealed(\x7b\x7d)] pub trait A<T> where T: B<[u8; 3]> \x7b fn f(&self) \x7b g(); \x7d \x7d"

theorem declaration_outline_sealed : ∃ d, Declaration.read sealedText = .ok d ∧
    ∃ tokens first last o item items,
      lex sealedText = .ok tokens ∧ tokens.head? = some first ∧ tokens.getLast? = some last ∧
      Outline.ofText sealedText = .ok o ∧ o.items = item :: items ∧
      item.start = first.extent.start ∧
      (item.keyword = some .contract ∨ item.keyword = some .implementation) ∧
      (items = [] ∧ item.stop = last.extent.stop ↔
        (outerKinds 0 (kindsOf tokens)).count .openCurly = 1) := by
  have accepted : (Declaration.read sealedText).toOption.isSome := by decide +kernel
  obtain ⟨d, found⟩ := Option.isSome_iff_exists.mp accepted
  exact ⟨d, toOption_eq_some found, declaration_outline (toOption_eq_some found)⟩

def constantText : String := "impl A<\x7b N \x7d> for B \x7b\x7d"

-- The braces of a constant in the head end the item for the outline.
theorem declaration_outline_cut : ∃ d, Declaration.read constantText = .ok d ∧
    ∃ o, Outline.ofText constantText = .ok o ∧ o.items.length = 2 := by
  have accepted : (Declaration.read constantText).toOption.isSome := by decide +kernel
  have outlined : (Outline.ofText constantText).toOption.any (·.items.length = 2) := by
    decide +kernel
  obtain ⟨d, read⟩ := Option.isSome_iff_exists.mp accepted
  obtain ⟨o, found, items⟩ := (Option.any_eq_true _ _).mp outlined
  exact ⟨d, toOption_eq_some read, o, toOption_eq_some found, of_decide_eq_true items⟩

end Deasync
