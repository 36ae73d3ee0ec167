import Deasync.Proofs.Heading
import Deasync.Proofs.Lexing

namespace Deasync

theorem closing_before {first : Token} {later : List Token} {c : Closing}
    (opener : first.kind.isOpener) (closed : closing first later = .ok c) :
    ∃ rest, c.before = first :: rest := by
  obtain ⟨due, opens⟩ := Option.isSome_iff_exists.mp opener
  rw [closing, closingFrom, opens] at closed
  obtain ⟨d, _, rfl⟩ := exists_of_map_ok closed
  exact ⟨d.before, rfl⟩

theorem takeItem_split {found : Option ItemKeyword} {tokens : List Token} {s : Stretch}
    (taken : takeItem found tokens = .ok s) :
    tokens = s.tokens ++ s.rest ∧ (tokens ≠ [] → s.tokens ≠ []) := by
  fun_induction takeItem found tokens generalizing s with
  | case1 => cases taken; simp
  | case2 => cases taken; simp
  | case3 => cases taken
  | case4 found token later semicolon opener group closed own =>
    cases taken
    have split := closing_split closed
    simp [own, split]
  | case5 found token later semicolon opener group closed own ends =>
    rename_i ih
    obtain ⟨r, inner, rfl⟩ := exists_of_map_ok taken
    have split := closing_split closed
    have rest := (ih inner).1
    simp only [own, split, rest, List.append_assoc, List.singleton_append, ne_eq]
    simp
  | case6 token later semicolon opener keyword ih =>
    obtain ⟨r, inner, rfl⟩ := exists_of_map_ok taken
    simp [(ih inner).1]
  | case7 token later semicolon opener silent ih =>
    obtain ⟨r, inner, rfl⟩ := exists_of_map_ok taken
    simp [(ih inner).1]
  | case8 token later semicolon opener keyword meant ih =>
    obtain ⟨r, inner, rfl⟩ := exists_of_map_ok taken
    simp [(ih inner).1]

-- The inside of a stretch stands between its last brace and some of its tokens in front.
def Stretch.Encloses (s : Stretch) : Prop :=
  ∀ inside close, s.inside = some (inside, close) → s.keyword = some .submodule ∧
    ∃ front, front ≠ [] ∧ s.tokens = front ++ inside ++ [close]

theorem Stretch.Encloses.more {s r : Stretch} (encloses : r.Encloses) (front : List Token)
    (inside : s.inside = r.inside) (keyword : s.keyword = r.keyword)
    (tokens : s.tokens = front ++ r.tokens) : s.Encloses := by
  intro within close found
  obtain ⟨word, lead, filled, split⟩ := encloses within close (inside ▸ found)
  exact ⟨keyword ▸ word, front ++ lead, by simp [filled], by rw [tokens, split]; simp⟩

theorem takeItem_encloses {found : Option ItemKeyword} {tokens : List Token} {s : Stretch}
    (taken : takeItem found tokens = .ok s) : s.Encloses := by
  fun_induction takeItem found tokens generalizing s with
  | case1 => cases taken; intro inside close found; cases found
  | case2 => cases taken; intro inside close found; cases found
  | case3 => cases taken
  | case4 found token later semicolon opener group closed own =>
    cases taken
    intro inside close within
    simp only [insideOf, Option.ite_none_right_eq_some, Option.some.injEq, Prod.mk.injEq] at within
    obtain ⟨word, rfl, rfl⟩ := within
    obtain ⟨rest, before⟩ := closing_before opener closed
    exact ⟨word, [token], by simp, by simp [own, before]⟩
  | case5 found token later semicolon opener group closed own ends =>
    rename_i ih
    obtain ⟨r, inner, rfl⟩ := exists_of_map_ok taken
    exact (ih inner).more own rfl rfl rfl
  | case6 token later semicolon opener keyword ih =>
    obtain ⟨r, inner, rfl⟩ := exists_of_map_ok taken
    exact (ih inner).more [token] rfl rfl rfl
  | case7 token later semicolon opener silent ih =>
    obtain ⟨r, inner, rfl⟩ := exists_of_map_ok taken
    exact (ih inner).more [token] rfl rfl rfl
  | case8 token later semicolon opener keyword meant ih =>
    obtain ⟨r, inner, rfl⟩ := exists_of_map_ok taken
    exact (ih inner).more [token] rfl rfl rfl

theorem leadingAttributes_split {text : String} {behind : Option Token} {tokens rest : List Token}
    {sites : List AttributeSite} (led : leadingAttributes text behind tokens = .ok (sites, rest)) :
    ∃ front, tokens = front ++ rest := by
  fun_induction leadingAttributes text behind tokens generalizing sites rest with
  | case1 => cases led; exact ⟨[], rfl⟩
  | case2 token later doc ih =>
    obtain ⟨front, rfl⟩ := ih led
    exact ⟨token :: front, rfl⟩
  | case3 => cases led; exact ⟨[], rfl⟩
  | case4 => cases led
  | case5 => cases led
  | case6 token doc hash second later square group closed site found ih =>
    obtain ⟨pair, next, same⟩ := exists_of_map_ok led
    cases same
    obtain ⟨front, after⟩ := ih next
    refine ⟨token :: group.before ++ group.closer :: front, ?_⟩
    rw [closing_split closed, after]
    simp
  | case7 => cases led; exact ⟨[], rfl⟩
  | case8 => cases led; exact ⟨[], rfl⟩

theorem innerBracket?_split {tokens rest : List Token} {bracket : Token}
    (found : innerBracket? tokens = some (bracket, rest)) :
    ∃ lead, tokens = lead ++ bracket :: rest := by
  unfold innerBracket? at found
  split at found
  · rename_i hash bang second behind
    split at found
    · cases found; exact ⟨[hash, bang], rfl⟩
    · cases found
  · cases found

-- An attribute begins with a hash mark; the other attributes and what is behind them follow it.
theorem leadingAttributes_site {text : String} {behind : Option Token} {tokens rest : List Token}
    {sites : List AttributeSite} (led : leadingAttributes text behind tokens = .ok (sites, rest))
    {site : AttributeSite} (listed : site ∈ sites) :
    ∃ lead hash after others, tokens = lead ++ after ∧ hash ∈ lead ∧
      site.start = hash.extent.start ∧
      (∀ next, after.head? = some next → site.nextStart = next.extent.start) ∧
      leadingAttributes text behind after = .ok (others, rest) := by
  fun_induction leadingAttributes text behind tokens generalizing sites rest with
  | case1 => cases led; cases listed
  | case2 token later doc ih =>
    obtain ⟨lead, hash, after, others, rfl, mark, start, next, led⟩ := ih led listed
    exact ⟨token :: lead, hash, after, others, rfl, .tail _ mark, start, next, led⟩
  | case3 => cases led; cases listed
  | case4 => cases led
  | case5 => cases led
  | case6 token doc hash second later square group closed first found ih =>
    obtain ⟨pair, next, same⟩ := exists_of_map_ok led
    cases same
    have split := closing_split closed
    rcases List.mem_cons.mp listed with rfl | later
    · unfold attributeSite at found
      obtain ⟨argument, _, rfl⟩ := exists_of_map_ok found
      refine ⟨token :: group.before ++ [group.closer], token, group.after, pair.1, ?_, .head _, rfl,
        fun next standing => ?_, next⟩
      · rw [split]; simp
      · simp only [standing, Option.some_or]
    · obtain ⟨lead, mark, after, others, same, listed, start, behind, led⟩ := ih next later
      refine ⟨token :: group.before ++ group.closer :: lead, mark, after, others, ?_, by simp [listed],
        start, behind, led⟩
      rw [split, same]
      simp
  | case7 => cases led; cases listed
  | case8 => cases led; cases listed

-- The tokens of an item, from its attributes on. Behind an attribute stands the rest of the item,
-- and when this has the head of a declaration, the outline knows the item as one.
structure OutlineItem.Covers (item : OutlineItem) (own : List Token) : Prop where
  begins : ∃ first, own.head? = some first ∧ item.start = first.extent.start
  ends : ∃ last, own.getLast? = some last ∧ item.stop = last.extent.stop
  sites : ∀ site ∈ item.attributes, ∃ lead hash rest next, own = lead ++ rest ∧ hash ∈ lead ∧
    site.start = hash.extent.start ∧ rest.head? = some next ∧
    site.nextStart = next.extent.start ∧
    (Heading rest → item.keyword = some .contract ∨ item.keyword = some .implementation)

-- The tokens of a level and the items in them, in the order of the outline.
inductive Outlined : List Token → List OutlineItem → Prop where
  | done {tokens : List Token} : Outlined tokens []
  | passed {front later : List Token} {items : List OutlineItem} : Outlined later items →
      Outlined (front ++ later) items
  | item {own rest : List Token} {item : OutlineItem} {items : List OutlineItem} :
      item.Covers own → Outlined rest items → Outlined (own ++ rest) (item :: items)
  | submodule {front inside rest : List Token} {close : Token} {item : OutlineItem}
      {within items : List OutlineItem} : front ≠ [] → item.Covers (front ++ inside ++ [close]) →
      item.keyword = some .submodule → Outlined inside within → Outlined rest items →
      Outlined (front ++ inside ++ [close] ++ rest) (within ++ item :: items)

theorem covers_outlineItem {text : String} {behind : Option Token} {first token : Token}
    {others later : List Token} {sites : List AttributeSite} {s : Stretch}
    (led : leadingAttributes text behind (first :: others) = .ok (sites, token :: later))
    (taken : takeItem none (token :: later) = .ok s) :
    ∃ front, first :: others = front ++ s.tokens ++ s.rest ∧
      (outlineItem first sites s).Covers (front ++ s.tokens) := by
  obtain ⟨front, split⟩ := leadingAttributes_split led
  obtain ⟨stretch, filled⟩ := takeItem_split taken
  have kept := filled (List.cons_ne_nil _ _)
  rw [stretch, ← List.append_assoc] at split
  refine ⟨front, split, ⟨first, ?_, rfl⟩, ⟨s.tokens.getLast kept, ?_, ?_⟩, fun site listed => ?_⟩
  · have begins := congrArg List.head? split
    rwa [List.head?_append_of_ne_nil _ (by simp [kept]), List.head?_cons, eq_comm] at begins
  · rw [List.getLast?_append_of_ne_nil _ kept, List.getLast?_eq_getLast_of_ne_nil kept]
  · rw [outlineItem, List.getLast?_eq_getLast_of_ne_nil kept, Option.getD_some]
  · obtain ⟨lead, hash, after, more, same, mark, start, behind, rest⟩ :=
      leadingAttributes_site led listed
    obtain ⟨between, tail⟩ := leadingAttributes_split rest
    rw [stretch, ← List.append_assoc] at tail
    have own : front ++ s.tokens = lead ++ (between ++ s.tokens) := by
      rw [split, tail, ← List.append_assoc] at same
      exact List.append_cancel_right same
    obtain ⟨next, later, begins⟩ := List.exists_cons_of_ne_nil (l := between ++ s.tokens)
      (by simp [kept])
    refine ⟨lead, hash, between ++ s.tokens, next, own, mark, start, by rw [begins]; rfl, ?_, ?_⟩
    · exact behind next (by rw [tail, begins]; rfl)
    · intro headed
      have all := (headed.append s.rest)
      rw [← tail] at all
      exact (all.behind_attributes rest).keyword taken

theorem outlined_of_outlineLevel {text : String} {behind : Option Token} {tokens : List Token}
    {o : Outline} (outlined : outlineLevel text behind tokens = .ok o) : Outlined tokens o.items := by
  fun_induction outlineLevel text behind tokens generalizing o with
  | case1 => cases outlined; exact .done
  | case2 => cases outlined
  | case3 => cases outlined; exact .done
  | case4 => cases outlined
  | case5 behind first others sites token later led bracket rest inner group closed ih =>
    obtain ⟨front, split⟩ := leadingAttributes_split led
    obtain ⟨lead, after⟩ := innerBracket?_split inner
    have whole : first :: others = front ++ lead ++ group.before ++ [group.closer] ++ group.after := by
      rw [split, after, closing_split closed]
      simp
    rw [whole]
    exact .passed (ih outlined)
  | case6 => cases outlined
  | case7 => cases outlined
  | case8 behind first others sites token later led inner flat s taken here inside =>
    rename_i ih
    obtain ⟨rest, next, rfl⟩ := exists_of_map_ok outlined
    obtain ⟨front, split, covers⟩ := covers_outlineItem led taken
    rw [split]
    exact .item covers (ih next)
  | case9 => cases outlined
  | case10 behind first others sites token later led inner flat s taken here inside close found within
      level ihInside =>
    rename_i ihRest
    obtain ⟨rest, next, rfl⟩ := exists_of_map_ok outlined
    obtain ⟨front, split, covers⟩ := covers_outlineItem led taken
    obtain ⟨word, lead, filled, own⟩ := takeItem_encloses taken inside close found
    rw [own, ← List.append_assoc, ← List.append_assoc] at split covers
    rw [split]
    have module := Outlined.submodule (by simp [filled]) covers word (ihInside level) (ihRest next)
    simpa [Outline.append, here] using module

theorem OutlineItem.Covers.bounds {item : OutlineItem} {own : List Token} {start stop : Nat}
    (covers : item.Covers own) (row : InRow start stop own) :
    start ≤ item.start ∧ item.start < item.stop ∧ item.stop ≤ stop := by
  obtain ⟨first, begins, same⟩ := covers.begins
  obtain ⟨last, ends, also⟩ := covers.ends
  rw [same, also]
  exact row.spanned begins ends

-- How an item stands to one that comes later in an outline.
def OutlineItem.Before (a b : OutlineItem) : Prop :=
  a.stop ≤ b.start ∨ b.keyword = some .submodule ∧ b.start < a.start ∧ a.stop < b.stop

theorem Outlined.before {tokens : List Token} {items : List OutlineItem} {start stop : Nat}
    (outlined : Outlined tokens items) (most : start ≤ stop) (row : InRow start stop tokens) :
    (∀ item ∈ items, start ≤ item.start ∧ item.start < item.stop ∧ item.stop ≤ stop) ∧
      items.Pairwise OutlineItem.Before := by
  induction outlined generalizing start stop with
  | done => exact ⟨by simp, .nil⟩
  | passed _ ih =>
    obtain ⟨middle, least, below, _, right⟩ := row.split most
    obtain ⟨bounds, apart⟩ := ih below right
    refine ⟨fun item listed => ?_, apart⟩
    have bound := bounds item listed
    omega
  | @item own rest item items covers _ ih =>
    obtain ⟨middle, least, below, left, right⟩ := row.split most
    have here := covers.bounds left
    obtain ⟨bounds, apart⟩ := ih below right
    refine ⟨List.forall_mem_cons.mpr ⟨by omega, fun other listed => ?_⟩,
      List.pairwise_cons.mpr ⟨fun other listed => .inl ?_, apart⟩⟩
    · have bound := bounds other listed
      omega
    · have bound := bounds other listed
      omega
  | @submodule front inside rest close item within items filled covers word _ _ ihInside ihRest =>
    obtain ⟨second, least, below, own, right⟩ := row.split most
    obtain ⟨third, least', below', body, brace⟩ := own.split least
    obtain ⟨first, least'', below'', lead, inner⟩ := body.split least'
    have here := covers.bounds own
    obtain ⟨boundsInside, apartInside⟩ := ihInside below'' inner
    obtain ⟨bounds, apart⟩ := ihRest below right
    -- the module begins with a token in front of its braces and ends with the brace behind them
    have opened : item.start < first := by
      obtain ⟨token, begins, same⟩ := covers.begins
      rw [List.append_assoc, List.head?_append_of_ne_nil _ filled] at begins
      have filled := lead.filled token (List.mem_of_head? begins)
      have fits := lead.to_stop token (List.mem_of_head? begins)
      omega
    have closed : third < item.stop := by
      obtain ⟨token, ends, same⟩ := covers.ends
      rw [List.getLast?_concat, Option.some.injEq] at ends
      subst ends
      have filled := brace.filled close (.head _)
      have behind := brace.from_start close (.head _)
      omega
    constructor
    · intro other listed
      rcases List.mem_append.mp listed with listed | listed
      · have bound := boundsInside other listed
        omega
      · rcases List.mem_cons.mp listed with rfl | listed
        · omega
        · have bound := bounds other listed
          omega
    · refine List.pairwise_append.mpr ⟨apartInside, List.pairwise_cons.mpr ⟨?_, apart⟩, ?_⟩
      · intro other listed
        have bound := bounds other listed
        exact .inl (by omega)
      · intro x inside y listed
        have bound := boundsInside x inside
        rcases List.mem_cons.mp listed with rfl | listed
        · exact .inr ⟨word, by omega, by omega⟩
        · have other := bounds y listed
          exact .inl (by omega)

theorem Outlined.covered {tokens : List Token} {items : List OutlineItem} {item : OutlineItem}
    (outlined : Outlined tokens items) (listed : item ∈ items) :
    ∃ before own after, tokens = before ++ own ++ after ∧ item.Covers own := by
  induction outlined with
  | done => cases listed
  | @passed front later items _ ih =>
    obtain ⟨before, own, after, rfl, found⟩ := ih listed
    exact ⟨front ++ before, own, after, by simp, found⟩
  | @item first rest other items covers _ ih =>
    rcases List.mem_cons.mp listed with rfl | listed
    · exact ⟨[], first, rest, by simp, covers⟩
    · obtain ⟨before, own, after, rfl, found⟩ := ih listed
      exact ⟨first ++ before, own, after, by simp, found⟩
  | @submodule front inside rest close other within items _ covers _ _ _ ihInside ihRest =>
    rcases List.mem_append.mp listed with listed | listed
    · obtain ⟨before, own, after, rfl, found⟩ := ihInside listed
      exact ⟨front ++ before, own, after ++ [close] ++ rest, by simp, found⟩
    · rcases List.mem_cons.mp listed with rfl | listed
      · exact ⟨[], _, rest, by simp, covers⟩
      · obtain ⟨before, own, after, rfl, found⟩ := ihRest listed
        exact ⟨front ++ inside ++ [close] ++ before, own, after, by simp, found⟩

theorem ofText_outlined {text : String} {o : Outline} (outlined : Outline.ofText text = .ok o) :
    ∃ tokens, lex text = .ok tokens ∧ Outlined tokens o.items := by
  unfold Outline.ofText at outlined
  cases lexed : lex text with
  | error fault => rw [lexed] at outlined; cases outlined
  | ok tokens =>
    rw [lexed] at outlined
    exact ⟨tokens, rfl, outlined_of_outlineLevel outlined⟩

end Deasync
