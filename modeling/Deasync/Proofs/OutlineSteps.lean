import Deasync.Proofs.Outlining

namespace Deasync

theorem closingFrom_kind {first : Token} {waiting : List Kind} {tokens : List Token} {c : Closing}
    {due : Kind} (closed : closingFrom first waiting tokens = .ok c)
    (outermost : waiting.getLast? = some due) : c.closer.kind = due := by
  fun_induction closingFrom first waiting tokens generalizing c with
  | case1 => cases closed
  | case2 waiting token later own opens ih =>
    obtain ⟨d, inner, rfl⟩ := exists_of_map_ok closed
    have kind := ih inner
    rw [List.getLast?_cons, outermost, Option.getD_some] at kind
    exact kind rfl
  | case3 => cases outermost
  | case4 => cases closed
  | case5 token later opens closes own outer same last =>
    cases closed
    simp only [List.isEmpty_iff] at last
    simp_all
  | case6 token later opens closes own outer same last ih =>
    obtain ⟨d, inner, rfl⟩ := exists_of_map_ok closed
    have kind := ih inner
    cases outer with
    | nil => exact absurd rfl last
    | cons => exact kind (by simpa using outermost)
  | case7 waiting token later opens closes ih =>
    obtain ⟨d, inner, rfl⟩ := exists_of_map_ok closed
    have kind := ih inner outermost
    exact kind

theorem closing_kind {first : Token} {later : List Token} {c : Closing} (opens : first.kind.isOpener)
    (closed : closing first later = .ok c) : first.kind.closer? = some c.closer.kind := by
  obtain ⟨due, opens⟩ := Option.isSome_iff_exists.mp opens
  rw [closing, closingFrom, opens] at closed
  obtain ⟨d, inner, rfl⟩ := exists_of_map_ok closed
  rw [opens]
  exact congrArg some (closingFrom_kind inner rfl).symm

-- A group is closed by its own tokens, whatever follows them.
theorem closingFrom_alone {first : Token} {waiting : List Kind} {tokens : List Token} {c : Closing}
    (closed : closingFrom first waiting tokens = .ok c) :
    closingFrom first waiting (c.before ++ [c.closer]) = .ok { c with after := [] } := by
  fun_induction closingFrom first waiting tokens generalizing c with
  | case1 => cases closed
  | case2 waiting token later due opens ih =>
    obtain ⟨d, inner, rfl⟩ := exists_of_map_ok closed
    simp only [Closing.within, List.cons_append, closingFrom, opens, ih inner]
    rfl
  | case3 => cases closed
  | case4 => cases closed
  | case5 token later opens closes due outer same last =>
    cases closed
    simp_all [closingFrom]
  | case6 token later opens closes due outer same last ih =>
    obtain ⟨d, inner, rfl⟩ := exists_of_map_ok closed
    simp only [Closing.within, List.cons_append, closingFrom, opens, closes, if_true, same, if_false,
      last, ih inner]
    rfl
  | case7 waiting token later opens closes ih =>
    obtain ⟨d, inner, rfl⟩ := exists_of_map_ok closed
    simp only [Closing.within, List.cons_append, closingFrom, opens, closes, ih inner]
    rfl

theorem closing_alone {first : Token} {later : List Token} {c : Closing} (opens : first.kind.isOpener)
    (closed : closing first later = .ok c) : ∃ own, later = own ++ c.after ∧
      c.before ++ [c.closer] = first :: own ∧ closing first own = .ok { c with after := [] } := by
  obtain ⟨rest, before⟩ := closing_before opens closed
  have row : c.before ++ [c.closer] = first :: (rest ++ [c.closer]) := by rw [before, List.cons_append]
  refine ⟨rest ++ [c.closer], ?_, row, ?_⟩
  · have split := closing_split closed
    rw [before, List.cons_append] at split
    simpa using (List.cons.inj split).2
  · have alone := closingFrom_alone closed
    rw [row] at alone
    exact alone

-- How many groups are open behind a token, when `depth` are open in front of it. One that closes
-- nothing is passed over.
def Token.depth (depth : Nat) (token : Token) : Nat :=
  if token.kind.isOpener then depth + 1 else if token.kind.isCloser then depth - 1 else depth

-- How many groups are open behind some tokens.
def openGroups (tokens : List Token) : Nat := tokens.foldl Token.depth 0

theorem closingFrom_depth {first : Token} {waiting : List Kind} {tokens : List Token} {c : Closing}
    (closed : closingFrom first waiting tokens = .ok c) :
    (c.before ++ [c.closer]).foldl Token.depth waiting.length = 0 := by
  fun_induction closingFrom first waiting tokens generalizing c with
  | case1 => cases closed
  | case2 waiting token later due opens ih =>
    obtain ⟨d, inner, rfl⟩ := exists_of_map_ok closed
    have deeper : token.depth waiting.length = waiting.length + 1 := by
      simp [Token.depth, Kind.isOpener, opens]
    simpa [Closing.within, deeper] using ih inner
  | case3 => cases closed
  | case4 => cases closed
  | case5 token later opens closes due outer same last =>
    cases closed
    simp [Token.depth, Kind.isOpener, opens, closes, List.isEmpty_iff.mp last]
  | case6 token later opens closes due outer same last ih =>
    obtain ⟨d, inner, rfl⟩ := exists_of_map_ok closed
    have higher : token.depth (outer.length + 1) = outer.length := by
      simp [Token.depth, Kind.isOpener, opens, closes]
    simpa [Closing.within, higher] using ih inner
  | case7 waiting token later opens closes ih =>
    obtain ⟨d, inner, rfl⟩ := exists_of_map_ok closed
    have level : token.depth waiting.length = waiting.length := by
      simp [Token.depth, Kind.isOpener, opens, closes]
    simpa [Closing.within, level] using ih inner

-- Behind a group no more groups are open than in front of it.
theorem closing_openGroups {first : Token} {later : List Token} {c : Closing}
    (closed : closing first later = .ok c) (more : List Token) :
    openGroups (c.before ++ [c.closer] ++ more) = openGroups more := by
  rw [openGroups, List.foldl_append]
  exact congrArg (more.foldl Token.depth) (closingFrom_depth closed)

theorem openGroups_cons {token : Token} (flat : ¬token.kind.isOpener) (more : List Token) :
    openGroups (token :: more) = openGroups more := by
  have level : token.depth 0 = 0 := by simp [Token.depth, flat]
  rw [openGroups, List.foldl_cons, level, openGroups]

-- Neither documentation nor an attribute is in front.
def Unattributed : List Token → Prop
  | [] => True
  | [token] => ¬token.kind.isDoc
  | token :: second :: _ => ¬token.kind.isDoc ∧ ¬(token.kind = .hash ∧ second.kind = .openSquare)

-- The attributes in front of `rest`.
inductive Led (text : String) (behind : Option Token) :
    List Token → List AttributeSite → List Token → Prop where
  | done {tokens : List Token} : Unattributed tokens → Led text behind tokens [] tokens
  | doc {token : Token} {later rest : List Token} {sites : List AttributeSite} : token.kind.isDoc →
      Led text behind later sites rest → Led text behind (token :: later) sites rest
  | attributed {hash bracket : Token} {later rest : List Token} {group : Closing} {site : AttributeSite}
      {sites : List AttributeSite} : hash.kind = .hash → bracket.kind = .openSquare →
      closing bracket later = .ok group → attributeSite text behind hash group = .ok site →
      Led text behind group.after sites rest →
      Led text behind (hash :: bracket :: later) (site :: sites) rest

variable {text : String} {behind : Option Token}

theorem led_of_leadingAttributes {tokens rest : List Token} {sites : List AttributeSite}
    (led : leadingAttributes text behind tokens = .ok (sites, rest)) :
    Led text behind tokens sites rest := by
  fun_induction leadingAttributes text behind tokens generalizing sites rest with
  | case1 => cases led; exact .done trivial
  | case2 token later doc ih => exact .doc doc (ih led)
  | case3 token doc hash => cases led; exact .done doc
  | case4 => cases led
  | case5 => cases led
  | case6 token doc hash second later square group closed site found ih =>
    obtain ⟨⟨others, after⟩, next, same⟩ := exists_of_map_ok led
    cases same
    exact .attributed hash square closed found (ih next)
  | case7 token doc hash second later other =>
    cases led
    exact .done ⟨doc, fun both => other both.2⟩
  | case8 token later doc other =>
    cases led
    refine .done ?_
    cases later with
    | nil => exact doc
    | cons second rest => exact ⟨doc, fun both => other both.1⟩

theorem Led.found {tokens rest : List Token} {sites : List AttributeSite}
    (led : Led text behind tokens sites rest) :
    leadingAttributes text behind tokens = .ok (sites, rest) := by
  induction led with
  | @done tokens bare =>
    match tokens, bare with
    | [], _ => simp [leadingAttributes]
    | [token], bare =>
      have plain : token.kind.isDoc = false := by simpa [Unattributed] using bare
      simp [leadingAttributes, plain]
    | token :: second :: rest, ⟨plain, other⟩ =>
      rw [leadingAttributes, if_neg plain]
      by_cases hash : token.kind = .hash
      · rw [if_pos hash, if_neg fun square => other ⟨hash, square⟩]
      · rw [if_neg hash]
  | doc doc _ ih =>
    rw [leadingAttributes.eq_def]
    simp only [if_pos doc, ih]
  | @attributed hash bracket later rest group site sites mark square closed found _ ih =>
    have plain : ¬hash.kind.isDoc := by rw [mark]; decide
    rw [leadingAttributes, if_neg plain, if_pos mark, if_pos square]
    split
    · rename_i failed
      cases failed.symm.trans closed
    · rename_i same
      cases same.symm.trans closed
      rw [found, ih]
      rfl

-- The attributes stand in front of what is left, and the last of them has it next to it.
theorem Led.split {tokens rest : List Token} {sites : List AttributeSite}
    (led : Led text behind tokens sites rest) : ∃ front, tokens = front ++ rest ∧
      Led text (rest.head?.or behind) front sites [] ∧ Unattributed rest ∧
      ∀ more, openGroups (front ++ more) = openGroups more := by
  induction led with
  | done bare => exact ⟨[], rfl, .done trivial, bare, fun _ => rfl⟩
  | @doc token later rest sites doc _ ih =>
    obtain ⟨front, rfl, led, bare, level⟩ := ih
    have flat : ¬token.kind.isOpener := by
      rcases Kind.isDoc_iff.mp doc with same | same <;> rw [same] <;> decide
    refine ⟨token :: front, rfl, .doc doc led, bare, fun more => ?_⟩
    rw [List.cons_append, openGroups_cons flat, level]
  | @attributed hash bracket later rest group site sites mark square closed found _ ih =>
    obtain ⟨front, after, led, bare, level⟩ := ih
    have opens : bracket.kind.isOpener := by rw [square]; decide
    have flat : ¬hash.kind.isOpener := by rw [mark]; decide
    obtain ⟨own, split, row, alone⟩ := closing_alone opens closed
    have whole := closing_append alone front
    rw [List.nil_append] at whole
    refine ⟨hash :: bracket :: (own ++ front), by rw [split, after]; simp, ?_, bare, fun more => ?_⟩
    · refine .attributed mark square whole ?_ led
      rw [← found]
      simp [attributeSite, after, Option.or_assoc]
    · have same : bracket :: (own ++ front ++ more) =
          group.before ++ [group.closer] ++ (front ++ more) := by
        rw [row]
        simp
      rw [List.cons_append, openGroups_cons flat, List.cons_append, same, closing_openGroups closed,
        level]

theorem Led.join {front rest after none : List Token} {sites more : List AttributeSite}
    (led : Led text (rest.head?.or behind) front sites none) (all : none = [])
    (next : Led text behind rest more after) : Led text behind (front ++ rest) (sites ++ more) after := by
  induction led with
  | done => subst all; exact next
  | doc doc _ ih => exact .doc doc (ih all)
  | @attributed hash bracket later rest group site sites mark square closed found _ ih =>
    refine .attributed mark square (closing_append closed _) ?_ (ih all)
    rw [← found]
    simp [attributeSite, Option.or_assoc]

-- The tokens of one item, taken from the front.
inductive Taken : Option ItemKeyword → List Token → Stretch → Prop where
  | nothing {found : Option ItemKeyword} : Taken found [] ⟨[], found, none, none, []⟩
  | semicolon {found : Option ItemKeyword} {token : Token} {later : List Token} :
      token.kind = .semicolon → Taken found (token :: later) ⟨[token], found, none, none, later⟩
  | braces {found : Option ItemKeyword} {opener : Token} {later : List Token} {group : Closing} :
      opener.kind = .openCurly → ¬found.any ItemKeyword.endsAtSemicolon →
      closing opener later = .ok group → Taken found (opener :: later)
        ⟨group.before ++ [group.closer], found, none, insideOf found group, group.after⟩
  | group {found : Option ItemKeyword} {opener : Token} {later : List Token} {group : Closing}
      {s : Stretch} : opener.kind.isOpener →
      (opener.kind = .openCurly → found.any ItemKeyword.endsAtSemicolon) →
      closing opener later = .ok group → Taken found group.after s →
      Taken found (opener :: later) { s with tokens := group.before ++ [group.closer] ++ s.tokens }
  | token {found : Option ItemKeyword} {token : Token} {later : List Token} {s : Stretch} :
      token.kind ≠ .semicolon → ¬token.kind.isOpener →
      (found = none → ItemKeyword.of? token later = none) → Taken found later s →
      Taken found (token :: later) { s with tokens := token :: s.tokens }
  | keyword {token : Token} {later : List Token} {keyword : ItemKeyword} {s : Stretch} :
      token.kind ≠ .semicolon → ¬token.kind.isOpener → ItemKeyword.of? token later = some keyword →
      Taken (some keyword) later s → Taken none (token :: later)
        { s with tokens := token :: s.tokens, declared := declaredBy later s.tokens }

theorem taken_of_takeItem {found : Option ItemKeyword} {tokens : List Token} {s : Stretch}
    (taken : takeItem found tokens = .ok s) : Taken found tokens s := by
  fun_induction takeItem found tokens generalizing s with
  | case1 => cases taken; exact .nothing
  | case2 found token later semicolon => cases taken; exact .semicolon semicolon
  | case3 => cases taken
  | case4 found token later semicolon opener group closed own =>
    rename_i ends
    cases taken
    simp only [Bool.and_eq_true, decide_eq_true_eq, Bool.not_eq_true'] at ends
    exact .braces ends.1 (by simp [ends.2]) closed
  | case5 found token later semicolon opener group closed own ends =>
    rename_i ih
    obtain ⟨r, inner, rfl⟩ := exists_of_map_ok taken
    refine .group opener (fun curly => ?_) closed (ih inner)
    simpa [curly] using ends
  | case6 token later semicolon opener keyword ih =>
    obtain ⟨r, inner, rfl⟩ := exists_of_map_ok taken
    exact .token semicolon opener (by simp) (ih inner)
  | case7 token later semicolon opener silent ih =>
    obtain ⟨r, inner, rfl⟩ := exists_of_map_ok taken
    exact .token semicolon opener (fun _ => silent) (ih inner)
  | case8 token later semicolon opener keyword meant ih =>
    obtain ⟨r, inner, rfl⟩ := exists_of_map_ok taken
    exact .keyword semicolon opener meant (ih inner)

theorem Taken.found {found : Option ItemKeyword} {tokens : List Token} {s : Stretch}
    (taken : Taken found tokens s) : takeItem found tokens = .ok s := by
  induction taken with
  | nothing => simp [takeItem]
  | semicolon semicolon =>
    rw [takeItem.eq_def]
    simp only [if_pos semicolon]
  | braces curly short closed =>
    have other : Kind.openCurly ≠ .semicolon := by decide
    have opens : Kind.openCurly.isOpener := by decide
    rw [takeItem.eq_def]
    simp only [curly, other, if_false, opens, if_true]
    split
    · rename_i failed
      cases failed.symm.trans closed
    · rename_i same
      cases same.symm.trans closed
      simp [short]
  | @group found opener later group s opens passed closed _ ih =>
    have other : opener.kind ≠ .semicolon := by
      intro same
      rw [same] at opens
      cases opens
    rw [takeItem.eq_def]
    simp only [if_neg other, if_pos opens]
    split
    · rename_i failed
      cases failed.symm.trans closed
    · rename_i same
      cases same.symm.trans closed
      rw [if_neg, ih]
      · rfl
      · simpa using passed
  | @token found token later s other flat silent _ ih =>
    rw [takeItem.eq_def]
    simp only [if_neg other, if_neg flat]
    cases found with
    | some keyword => simp only [ih]; rfl
    | none => simp only [silent rfl, ih]; rfl
  | keyword other flat meant _ ih =>
    rw [takeItem, if_neg other, if_neg flat]
    simp only [meant, ih]
    rfl

-- The tokens of a level and their outline.
inductive Levelled (text : String) : Option Token → List Token → Outline → Prop where
  | nothing {behind : Option Token} : Levelled text behind [] .empty
  | trailing {behind : Option Token} {tokens : List Token} {sites : List AttributeSite} :
      tokens ≠ [] → Led text behind tokens sites [] → Levelled text behind tokens .empty
  | inner {behind : Option Token} {tokens after rest : List Token} {sites : List AttributeSite}
      {bracket : Token} {group : Closing} {o : Outline} : Led text behind tokens sites after →
      innerBracket? after = some (bracket, rest) → closing bracket rest = .ok group →
      Levelled text behind group.after o → Levelled text behind tokens o
  | item {behind : Option Token} {first token : Token} {others later : List Token}
      {sites : List AttributeSite} {s : Stretch} {o : Outline} :
      Led text behind (first :: others) sites (token :: later) →
      innerBracket? (token :: later) = none → ¬token.kind.isCloser → Taken none (token :: later) s →
      s.inside = none → Levelled text behind s.rest o → Levelled text behind (first :: others)
        (Outline.append ⟨[outlineItem first sites s], carrierOf s.keyword s.declared⟩ o)
  | submodule {behind : Option Token} {first token close : Token} {others later inside : List Token}
      {sites : List AttributeSite} {s : Stretch} {within o : Outline} :
      Led text behind (first :: others) sites (token :: later) →
      innerBracket? (token :: later) = none → ¬token.kind.isCloser → Taken none (token :: later) s →
      s.inside = some (inside, close) → Levelled text (some close) inside within →
      Levelled text behind s.rest o → Levelled text behind (first :: others)
        ((within.append ⟨[outlineItem first sites s], carrierOf s.keyword s.declared⟩).append o)

theorem levelled_of_outlineLevel {tokens : List Token} {o : Outline}
    (outlined : outlineLevel text behind tokens = .ok o) : Levelled text behind tokens o := by
  fun_induction outlineLevel text behind tokens generalizing o with
  | case1 => cases outlined; exact .nothing
  | case2 => cases outlined
  | case3 behind first others sites led =>
    cases outlined
    exact .trailing (by simp) (led_of_leadingAttributes led)
  | case4 => cases outlined
  | case5 behind first others sites token later led bracket rest inner group closed ih =>
    exact .inner (led_of_leadingAttributes led) inner closed (ih outlined)
  | case6 => cases outlined
  | case7 => cases outlined
  | case8 behind first others sites token later led inner flat s taken here inside =>
    rename_i ih
    obtain ⟨rest, next, rfl⟩ := exists_of_map_ok outlined
    exact .item (led_of_leadingAttributes led) inner flat (taken_of_takeItem taken) inside (ih next)
  | case9 => cases outlined
  | case10 behind first others sites token later led inner flat s taken here inside close found within
      level ihInside =>
    rename_i ihRest
    obtain ⟨rest, next, rfl⟩ := exists_of_map_ok outlined
    exact .submodule (led_of_leadingAttributes led) inner flat (taken_of_takeItem taken) found
      (ihInside level) (ihRest next)

theorem Led.nonempty {tokens rest : List Token} {sites : List AttributeSite}
    (led : Led text behind tokens sites rest) (filled : rest ≠ []) : tokens ≠ [] := by
  rintro rfl
  cases led
  exact filled rfl

-- One step of the outline behind the attributes.
theorem outlineLevel_behind {first token : Token} {others later : List Token}
    {sites : List AttributeSite} (led : Led text behind (first :: others) sites (token :: later)) :
    (∀ bracket rest group, innerBracket? (token :: later) = some (bracket, rest) →
      closing bracket rest = .ok group →
      outlineLevel text behind (first :: others) = outlineLevel text behind group.after) ∧
    (∀ s, innerBracket? (token :: later) = none → ¬token.kind.isCloser →
      takeItem none (token :: later) = .ok s →
      let here : Outline := ⟨[outlineItem first sites s], carrierOf s.keyword s.declared⟩
      (s.inside = none → outlineLevel text behind (first :: others) =
        (outlineLevel text behind s.rest).map here.append) ∧
      (∀ inside close within, s.inside = some (inside, close) →
        outlineLevel text (some close) inside = .ok within →
        outlineLevel text behind (first :: others) =
          (outlineLevel text behind s.rest).map (within.append here).append)) := by
  rw [outlineLevel]
  split
  · rename_i failed
    cases failed.symm.trans led.found
  · rename_i other
    cases other.symm.trans led.found
  · rename_i same
    cases same.symm.trans led.found
    constructor
    · intro bracket rest group bracketed closed
      split
      · rename_i found
        cases found.symm.trans bracketed
        split
        · rename_i failed
          cases failed.symm.trans closed
        · rename_i ended
          cases ended.symm.trans closed
          rfl
      · rename_i missed
        cases missed.symm.trans bracketed
    · intro s bare flat taken here
      split
      · rename_i found
        cases found.symm.trans bare
      · rw [if_neg flat]
        split
        · rename_i failed
          cases failed.symm.trans taken
        · rename_i took
          cases took.symm.trans taken
          constructor
          · intro single
            split
            · rfl
            · rename_i braced
              cases braced.symm.trans single
          · intro inside close within braced level
            split
            · rename_i single
              cases single.symm.trans braced
            · rename_i also
              cases also.symm.trans braced
              rw [level]

theorem Levelled.found {tokens : List Token} {o : Outline} (level : Levelled text behind tokens o) :
    outlineLevel text behind tokens = .ok o := by
  induction level with
  | nothing => simp [outlineLevel]
  | @trailing behind tokens sites filled led =>
    obtain ⟨first, others, rfl⟩ := List.exists_cons_of_ne_nil filled
    rw [outlineLevel]
    split
    · rename_i failed
      cases failed.symm.trans led.found
    · rfl
    · rename_i other
      cases other.symm.trans led.found
  | @inner behind tokens after rest sites bracket group o led bracketed closed _ ih =>
    cases after with
    | nil => cases bracketed
    | cons token later =>
      obtain ⟨first, others, rfl⟩ := List.exists_cons_of_ne_nil (led.nonempty (by simp))
      rw [(outlineLevel_behind led).1 _ _ _ bracketed closed, ih]
  | item led bare flat taken single _ ih =>
    rw [((outlineLevel_behind led).2 _ bare flat taken.found).1 single, ih]
    rfl
  | submodule led bare flat taken braced _ _ ihInside ihRest =>
    rw [((outlineLevel_behind led).2 _ bare flat taken.found).2 _ _ _ braced ihInside, ihRest]
    rfl

end Deasync
