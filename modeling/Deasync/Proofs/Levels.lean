import Deasync.Proofs.Grammar.Balance
import Deasync.Proofs.Outlining

namespace Deasync

open Grammar

-- The kinds outside all groups. A group is known by the delimiter that opens it.
def outerKinds : Nat → List Kind → List Kind
  | _, [] => []
  | depth, k :: ks =>
    if k.isCloser then outerKinds (depth - 1) ks
    else
      let later := outerKinds (if k.isOpener then depth + 1 else depth) ks
      if depth = 0 then k :: later else later

theorem Kind.not_closer_of_closer? {k due : Kind} (opens : k.closer? = some due) : ¬k.isCloser := by
  cases k <;> simp_all [Kind.closer?, Kind.isCloser]

theorem outerKinds_plain {k : Kind} (flat : k.closer? = none) (closes : ¬k.isCloser) (depth : Nat)
    (ks : List Kind) : outerKinds depth (k :: ks) =
      if depth = 0 then k :: outerKinds depth ks else outerKinds depth ks := by
  simp [outerKinds, Kind.isOpener, flat, closes]

theorem outerKinds_opener {k due : Kind} (opens : k.closer? = some due) (depth : Nat)
    (ks : List Kind) : outerKinds depth (k :: ks) =
      if depth = 0 then k :: outerKinds (depth + 1) ks else outerKinds (depth + 1) ks := by
  simp [outerKinds, Kind.isOpener, opens, Kind.not_closer_of_closer? opens]

theorem outerKinds_closer {k : Kind} (closes : k.isCloser) (depth : Nat) (ks : List Kind) :
    outerKinds depth (k :: ks) = outerKinds (depth - 1) ks := by
  simp [outerKinds, closes]

-- What `closingFrom` finds in tokens that close everything that is open: the delimiter that `frame`
-- waits for, with balanced tokens behind it.
structure Closing.Ends (c : Closing) (w : List Token) (inner : List (Kind × Unit))
    (frame : Kind × Unit) : Prop where
  inside : walk delimiterMove ((), inner) (kindsOf c.before) = some ((), [])
  closer : c.closer.kind = frame.1
  behind : Balanced (kindsOf c.after)
  outside : outerKinds (inner.length + 1) (kindsOf w) = outerKinds 0 (kindsOf c.after)

theorem closingFrom_ends (first : Token) {w : List Token} (inner : List (Kind × Unit))
    {frame : Kind × Unit}
    (walked : walk delimiterMove ((), inner ++ [frame]) (kindsOf w) = some ((), [])) :
    ∃ c, closingFrom first ((inner ++ [frame]).map Prod.fst) w = .ok c ∧ c.Ends w inner frame := by
  induction w generalizing inner with
  | nil => simp [walk, kindsOf] at walked
  | cons t w ih =>
    rw [kindsOf_cons, walk] at walked
    obtain ⟨⟨_, middle⟩, stepped, rest⟩ := Option.bind_eq_some_iff.mp walked
    simp only [walkStep, delimiterMove] at stepped
    rw [closingFrom.eq_def]
    cases opens : t.kind.closer? with
    | some due =>
      simp only [opens] at stepped ⊢
      cases stepped
      obtain ⟨c, found, ends⟩ := ih ((due, ()) :: inner) rest
      refine ⟨c.within t, ?_, ?_, ends.closer, ends.behind, ?_⟩
      · rw [List.cons_append, List.map_cons] at found
        rw [found]
        rfl
      · rw [Closing.within, kindsOf_cons, walk, walkStep, delimiterMove, opens]
        exact ends.inside
      · rw [kindsOf_cons, outerKinds_opener opens, if_neg (Nat.succ_ne_zero _)]
        exact ends.outside
    | none =>
      simp only [opens] at stepped ⊢
      by_cases closes : t.kind.isCloser
      · simp only [closes, if_true] at stepped ⊢
        cases inner with
        | nil =>
          simp only [List.nil_append] at stepped
          split at stepped
          · rename_i same
            cases stepped
            refine ⟨⟨[], t, w⟩, ?_, rfl, same.symm, rest, ?_⟩
            · simp [same]
            · rw [kindsOf_cons, outerKinds_closer closes]
              rfl
          · cases stepped
        | cons top inner =>
          obtain ⟨due, back⟩ := top
          simp only [List.cons_append] at stepped
          split at stepped
          · rename_i same
            cases stepped
            obtain ⟨c, found, ends⟩ := ih inner rest
            refine ⟨c.within t, ?_, ?_, ends.closer, ends.behind, ?_⟩
            · have more : ((inner ++ [frame]).map Prod.fst).isEmpty = false := by simp
              simp only [List.cons_append, List.map_cons, same, ne_eq, not_true, if_false, more,
                Bool.false_eq_true]
              rw [found]
              rfl
            · rw [Closing.within, kindsOf_cons, walk, walkStep, delimiterMove, opens]
              simp only [closes, if_true, same]
              exact ends.inside
            · rw [kindsOf_cons, outerKinds_closer closes]
              exact ends.outside
          · cases stepped
      · simp only [closes, Bool.false_eq_true, if_false] at stepped ⊢
        cases stepped
        obtain ⟨c, found, ends⟩ := ih inner rest
        refine ⟨c.within t, by rw [found]; rfl, ?_, ends.closer, ends.behind, ?_⟩
        · rw [Closing.within, kindsOf_cons, walk, walkStep, delimiterMove, opens]
          simp only [closes, Bool.false_eq_true, if_false]
          exact ends.inside
        · rw [kindsOf_cons, outerKinds_plain opens closes, if_neg (Nat.succ_ne_zero _)]
          exact ends.outside

-- Tokens and groups one behind the other, with the kinds that stand outside all groups.
inductive Level : List Token → List Kind → Prop where
  | done : Level [] []
  | token {token : Token} {later : List Token} {ks : List Kind} : ¬token.kind.isOpener →
      ¬token.kind.isCloser → Level later ks → Level (token :: later) (token.kind :: ks)
  | group {opener : Token} {later : List Token} {group : Closing} {inner ks : List Kind} :
      opener.kind.closer? = some group.closer.kind → closing opener later = .ok group →
      Level group.before.tail inner → Level group.after ks →
      Level (opener :: later) (opener.kind :: ks)

theorem level_of_balanced {tokens : List Token} (balanced : Balanced (kindsOf tokens)) :
    Level tokens (outerKinds 0 (kindsOf tokens)) := by
  -- on the number of tokens: a group hands on the tokens inside it and those behind it
  induction length : tokens.length using Nat.strongRecOn generalizing tokens with
  | ind most ih =>
    subst length
    cases tokens with
    | nil => exact .done
    | cons t later =>
      have walked := balanced
      rw [Balanced, kindsOf_cons, walk] at walked
      obtain ⟨⟨_, stack⟩, stepped, rest⟩ := Option.bind_eq_some_iff.mp walked
      simp only [walkStep, delimiterMove] at stepped
      cases opens : t.kind.closer? with
      | some due =>
        simp only [opens] at stepped
        cases stepped
        obtain ⟨c, found, ends⟩ := closingFrom_ends t [] rest
        have closed : closing t later = .ok (c.within t) := by
          simp only [List.nil_append, List.map_cons, List.map_nil] at found
          simp only [closing, closingFrom, opens, found]
          rfl
        have shorter := closing_after_length closed
        have within := Closing.tail_before_length closed
        rw [kindsOf_cons, outerKinds_opener opens, if_pos rfl]
        have outside := ends.outside
        rw [List.length_nil] at outside
        rw [outside]
        refine .group (by rw [opens, Closing.within, ends.closer]) closed
          (ih c.before.length ?_ ends.inside rfl) (ih c.after.length ?_ ends.behind rfl)
        · simp only [Closing.within, List.tail_cons] at within
          exact Nat.lt_succ_of_le within
        · simp only [Closing.within] at shorter
          exact Nat.lt_succ_of_le shorter
      | none =>
        simp only [opens] at stepped
        by_cases closes : t.kind.isCloser
        · simp only [closes, if_true] at stepped
          cases stepped
        · simp only [closes, Bool.false_eq_true, if_false] at stepped
          cases stepped
          rw [kindsOf_cons, outerKinds_plain opens closes, if_pos rfl]
          exact .token (by simp [Kind.isOpener, opens]) closes (ih later.length (by simp) rest rfl)

namespace Level

variable {tokens : List Token} {ks : List Kind}

theorem behind {token : Token} (level : Level (token :: tokens) ks) (flat : ¬token.kind.isOpener) :
    ∃ rest, ks = token.kind :: rest ∧ Level tokens rest := by
  cases level with
  | token _ _ later => exact ⟨_, rfl, later⟩
  | group opens => exact absurd (by simp [Kind.isOpener, opens]) flat

theorem closed {opener : Token} (level : Level (opener :: tokens) ks)
    (opens : opener.kind.isOpener) : ∃ group inner rest, closing opener tokens = .ok group ∧
      Level group.before.tail inner ∧ ks = opener.kind :: rest ∧ Level group.after rest := by
  cases level with
  | token flat => exact absurd opens flat
  | group _ closed inside after => exact ⟨_, _, _, closed, inside, rfl, after⟩

theorem head_not_closer {token : Token} (level : Level (token :: tokens) ks) :
    ¬token.kind.isCloser := by
  cases level with
  | token _ closes => exact closes
  | group opens => exact Kind.not_closer_of_closer? opens

-- A brace at the end closes a group of the level.
theorem brace {last : Token} (level : Level tokens ks) (ends : tokens.getLast? = some last)
    (closes : last.kind = .closeCurly) : .openCurly ∈ ks := by
  induction level with
  | done => cases ends
  | @token token later ks _ flat level ih =>
    cases later with
    | nil =>
      obtain rfl : token = last := by simpa using ends
      rw [closes] at flat
      exact absurd rfl flat
    | cons next later =>
      rw [List.getLast?_cons_cons] at ends
      exact .tail _ (ih ends)
  | @group opener later group inner ks opens closed _ after _ ih =>
    rw [closing_split closed, List.getLast?_append_of_ne_nil _ (List.cons_ne_nil _ _)] at ends
    cases behind : group.after with
    | nil =>
      obtain rfl : group.closer = last := by simpa [behind] using ends
      rw [closes] at opens
      have curly : opener.kind = .openCurly := by
        cases kind : opener.kind <;> rw [kind] at opens <;> simp [Kind.closer?] at opens
      rw [curly]
      exact .head _
    | cons next more =>
      rw [behind, List.getLast?_cons_cons] at ends
      exact .tail _ (ih (behind ▸ ends))

theorem eq_nil_iff (level : Level tokens ks)
    (closes : ∀ last, tokens.getLast? = some last → last.kind = .closeCurly) :
    tokens = [] ↔ .openCurly ∉ ks := by
  constructor
  · rintro rfl
    cases level
    simp
  · intro none
    cases ends : tokens.getLast? with
    | none => exact List.getLast?_eq_none_iff.mp ends
    | some last => exact absurd (level.brace ends (closes last ends)) none

theorem path (level : Level tokens ks) : ∃ rest, Level (pathWords tokens).2 rest := by
  have flat {k : Kind} (word : k.isWord) : ¬k.isOpener := by
    cases k <;> simp_all [Kind.isWord, Kind.isOpener, Kind.closer?]
  fun_induction pathWords tokens generalizing ks with
  | case1 => exact ⟨_, level⟩
  | case2 token word next rest sep words behind found ih =>
    obtain ⟨_, _, later⟩ := level.behind (flat word)
    obtain ⟨_, _, rest⟩ := later.behind (by rw [sep]; decide)
    obtain ⟨_, level⟩ := ih rest
    rw [found] at level
    exact ⟨_, level⟩
  | case3 token word next rest other =>
    obtain ⟨_, _, later⟩ := level.behind (flat word)
    exact ⟨_, later⟩
  | case4 token word => exact ⟨_, .done⟩
  | case5 token later other => exact ⟨_, level⟩

theorem attributeArgument_ok (text : String) (close : Token) (level : Level tokens ks) :
    ∃ argument, attributeArgument text close tokens = .ok argument := by
  cases tokens with
  | nil => exact ⟨none, rfl⟩
  | cons token later =>
    rw [attributeArgument]
    split
    · rename_i opens
      obtain ⟨group, _, _, closed, _⟩ := level.closed opens
      exact ⟨_, by rw [closed]; rfl⟩
    · exact ⟨_, rfl⟩

theorem attributePath_rest (level : Level tokens ks) :
    ∃ rest, Level (attributePath tokens).2 rest := by
  cases tokens with
  | nil => exact level.path
  | cons token later =>
    by_cases sep : token.kind = .pathSep
    · obtain ⟨_, _, behind⟩ := level.behind (by rw [sep]; decide)
      obtain ⟨rest, level⟩ := behind.path
      exact ⟨rest, by simpa [attributePath, sep] using level⟩
    · obtain ⟨rest, level⟩ := level.path
      exact ⟨rest, by simpa [attributePath, sep] using level⟩

theorem attributeSite_ok (text : String) (behind : Option Token) (hash : Token) {group : Closing}
    (inside : Level group.before.tail ks) :
    ∃ site, attributeSite text behind hash group = .ok site := by
  obtain ⟨_, rest⟩ := inside.attributePath_rest
  obtain ⟨argument, found⟩ := rest.attributeArgument_ok text group.closer
  exact ⟨_, by simp only [attributeSite, found]; rfl⟩

theorem leadingAttributes_ok (text : String) (behind : Option Token) (level : Level tokens ks) :
    ∃ sites rest front last, leadingAttributes text behind tokens = .ok (sites, rest) ∧
      ks = front ++ last ∧ .openCurly ∉ front ∧ Level rest last := by
  fun_induction leadingAttributes text behind tokens generalizing ks with
  | case1 => exact ⟨_, _, [], ks, rfl, rfl, by simp, level⟩
  | case2 token later doc ih =>
    rw [Kind.isDoc_iff] at doc
    obtain ⟨_, rfl, later⟩ := level.behind (by rcases doc with doc | doc <;> rw [doc] <;> decide)
    obtain ⟨sites, rest, front, last, led, rfl, plain, level⟩ := ih later
    refine ⟨sites, rest, token.kind :: front, last, led, rfl, ?_, level⟩
    rcases doc with doc | doc <;> simp [doc, plain]
  | case3 => exact ⟨_, _, [], ks, rfl, rfl, by simp, level⟩
  | case4 token doc hash second rest square fault failed =>
    obtain ⟨_, _, later⟩ := level.behind (by rw [hash]; decide)
    obtain ⟨group, _, _, closed, _⟩ := later.closed (by rw [square]; decide)
    rw [failed] at closed
    cases closed
  | case5 token doc hash second rest square group closed fault failed =>
    obtain ⟨_, _, later⟩ := level.behind (by rw [hash]; decide)
    obtain ⟨other, _, _, same, inside, _⟩ := later.closed (by rw [square]; decide)
    rw [closed] at same
    cases same
    obtain ⟨site, found⟩ := inside.attributeSite_ok text behind token
    rw [failed] at found
    cases found
  | case6 token doc hash second rest square group closed site found ih =>
    obtain ⟨_, rfl, later⟩ := level.behind (by rw [hash]; decide)
    obtain ⟨other, _, _, same, inside, rfl, after⟩ := later.closed (by rw [square]; decide)
    rw [closed] at same
    cases same
    obtain ⟨sites, rest, front, last, led, rfl, plain, level⟩ := ih after
    refine ⟨site :: sites, rest, token.kind :: second.kind :: front, last, by rw [led]; rfl, rfl, ?_,
      level⟩
    simp [hash, square, plain]
  | case7 => exact ⟨_, _, [], ks, rfl, rfl, by simp, level⟩
  | case8 => exact ⟨_, _, [], ks, rfl, rfl, by simp, level⟩

theorem leadingAttributes_rest {text : String} {front : Option Token} {sites : List AttributeSite}
    {rest : List Token} (level : Level tokens ks)
    (led : leadingAttributes text front tokens = .ok (sites, rest)) :
    ∃ first last, ks = first ++ last ∧ .openCurly ∉ first ∧ Level rest last := by
  obtain ⟨_, _, first, last, same, split, plain, level⟩ := level.leadingAttributes_ok text front
  rw [led] at same
  cases same
  exact ⟨first, last, split, plain, level⟩

-- An item of a level that does not go on to a semicolon ends with the first group in braces.
structure Cut (ks : List Kind) (s : Stretch) (rest : List Kind) : Prop where
  behind : Level s.rest rest
  inside : ∀ inside close, s.inside = some (inside, close) → ∃ inner, Level inside inner
  braces : ¬s.keyword.any ItemKeyword.endsAtSemicolon → .semicolon ∉ ks → .openCurly ∈ ks →
    ∃ front, ks = front ++ .openCurly :: rest ∧ .openCurly ∉ front

-- One more token or group in front of an item, which is not the one in braces that ends it.
theorem Cut.map {result : Except Fault Stretch} {change : Stretch → Stretch} {k : Kind}
    (cut : ∃ s rest, result = .ok s ∧ Cut ks s rest)
    (keeps : ∀ s, (change s).rest = s.rest ∧ (change s).inside = s.inside ∧
      (change s).keyword = s.keyword)
    (plain : ∀ s, result = .ok s → ¬s.keyword.any ItemKeyword.endsAtSemicolon → k ≠ .openCurly) :
    ∃ s rest, result.map change = .ok s ∧ Cut (k :: ks) s rest := by
  obtain ⟨s, rest, rfl, cut⟩ := cut
  obtain ⟨behind, inside, keyword⟩ := keeps s
  refine ⟨change s, rest, rfl, behind ▸ cut.behind, inside ▸ cut.inside, ?_⟩
  intro short single brace
  rw [keyword] at short
  have other := (plain s rfl short).symm
  simp only [List.mem_cons, not_or] at single
  obtain ⟨front, rfl, without⟩ := cut.braces short single.2
    ((List.mem_cons.mp brace).resolve_left other)
  exact ⟨k :: front, rfl, by simp [without, other]⟩

theorem takeItem_ok (level : Level tokens ks) (found : Option ItemKeyword) :
    ∃ s rest, takeItem found tokens = .ok s ∧ Cut ks s rest := by
  have bare {s : Stretch} (none : s.inside = none) :
      ∀ inside close, s.inside = some (inside, close) → ∃ inner, Level inside inner := by
    intro inside close some
    rw [none] at some
    cases some
  have other {k : Kind} (flat : ¬k.isOpener) : k ≠ .openCurly := by
    rintro rfl
    exact flat rfl
  fun_induction takeItem found tokens generalizing ks with
  | case1 found =>
    cases level
    exact ⟨_, _, rfl, .done, bare rfl, fun _ _ brace => by cases brace⟩
  | case2 found token later semicolon =>
    obtain ⟨rest, rfl, later⟩ := level.behind (by rw [semicolon]; decide)
    exact ⟨_, _, rfl, later, bare rfl, fun _ single => by simp [semicolon] at single⟩
  | case3 found token later semicolon opener fault failed =>
    obtain ⟨group, _, _, closed, _⟩ := level.closed opener
    rw [failed] at closed
    cases closed
  | case4 found token later semicolon opener group closed own =>
    rename_i ends
    obtain ⟨other, inner, rest, same, inside, rfl, after⟩ := level.closed opener
    rw [closed] at same
    cases same
    simp only [Bool.and_eq_true, decide_eq_true_eq] at ends
    refine ⟨_, _, rfl, after, ?_, fun _ _ _ => ⟨[], by rw [ends.1]; rfl, by simp⟩⟩
    intro within close standing
    simp only [insideOf, Option.ite_none_right_eq_some, Option.some.injEq, Prod.mk.injEq] at standing
    obtain ⟨_, rfl, _⟩ := standing
    exact ⟨inner, inside⟩
  | case5 found token later semicolon opener group closed own ends =>
    rename_i ih
    obtain ⟨other, inner, rest, same, inside, rfl, after⟩ := level.closed opener
    rw [closed] at same
    cases same
    refine Cut.map (ih after) (fun _ => ⟨rfl, rfl, rfl⟩) fun s taken short curly => ?_
    -- a group in braces is passed for the sake of a semicolon only
    cases found with
    | none => simp [curly] at ends
    | some keyword =>
      rw [takeItem_keyword taken] at short
      simp_all
  | case6 token later semicolon opener keyword ih =>
    obtain ⟨_, rfl, behind⟩ := level.behind opener
    exact Cut.map (ih behind) (fun _ => ⟨rfl, rfl, rfl⟩) fun _ _ _ => other opener
  | case7 token later semicolon opener silent ih =>
    obtain ⟨_, rfl, behind⟩ := level.behind opener
    exact Cut.map (ih behind) (fun _ => ⟨rfl, rfl, rfl⟩) fun _ _ _ => other opener
  | case8 token later semicolon opener keyword meant ih =>
    obtain ⟨_, rfl, behind⟩ := level.behind opener
    exact Cut.map (ih behind) (fun _ => ⟨rfl, rfl, rfl⟩) fun _ _ _ => other opener

theorem takeItem_rest {found : Option ItemKeyword} {s : Stretch} (level : Level tokens ks)
    (taken : takeItem found tokens = .ok s) : ∃ rest, Cut ks s rest := by
  obtain ⟨r, rest, same, cut⟩ := level.takeItem_ok found
  rw [taken] at same
  cases same
  exact ⟨rest, cut⟩

theorem inner_ok {bracket : Token} {rest : List Token} (level : Level tokens ks)
    (inner : innerBracket? tokens = some (bracket, rest)) :
    ∃ group last, closing bracket rest = .ok group ∧ Level group.after last := by
  unfold innerBracket? at inner
  split at inner
  · split at inner
    · rename_i kinds
      obtain ⟨hash, bang, square⟩ := kinds
      cases inner
      obtain ⟨_, _, behind⟩ := level.behind (by rw [hash]; decide)
      obtain ⟨_, _, behind⟩ := behind.behind (by rw [bang]; decide)
      obtain ⟨group, _, last, closed, _, _, after⟩ := behind.closed (by rw [square]; decide)
      exact ⟨group, last, closed, after⟩
    · cases inner
  · cases inner

-- Nothing that the outline asks of balanced tokens fails.
theorem outline_ok (text : String) (front : Option Token) (level : Level tokens ks) :
    ∃ o, outlineLevel text front tokens = .ok o := by
  fun_induction outlineLevel text front tokens generalizing ks with
  | case1 => exact ⟨_, rfl⟩
  | case2 front first others fault failed =>
    obtain ⟨_, _, _, _, led, _⟩ := level.leadingAttributes_ok text front
    cases failed.symm.trans led
  | case3 => exact ⟨_, rfl⟩
  | case4 front first others sites token later led bracket rest inner fault failed =>
    obtain ⟨_, _, _, _, level⟩ := level.leadingAttributes_rest led
    obtain ⟨group, _, closed, _⟩ := level.inner_ok inner
    cases failed.symm.trans closed
  | case5 front first others sites token later led bracket rest inner group closed ih =>
    obtain ⟨_, _, _, _, level⟩ := level.leadingAttributes_rest led
    obtain ⟨other, _, same, after⟩ := level.inner_ok inner
    cases closed.symm.trans same
    exact ih after
  | case6 front first others sites token later led inner closes =>
    obtain ⟨_, _, _, _, level⟩ := level.leadingAttributes_rest led
    exact absurd closes level.head_not_closer
  | case7 front first others sites token later led inner closes fault failed =>
    obtain ⟨_, _, _, _, level⟩ := level.leadingAttributes_rest led
    obtain ⟨s, _, taken, _⟩ := level.takeItem_ok none
    cases failed.symm.trans taken
  | case8 front first others sites token later led inner flat s taken here inside =>
    rename_i ih
    obtain ⟨_, _, _, _, level⟩ := level.leadingAttributes_rest led
    obtain ⟨_, cut⟩ := level.takeItem_rest taken
    obtain ⟨o, found⟩ := ih cut.behind
    exact ⟨_, by rw [found]; rfl⟩
  | case9 front first others sites token later led inner flat s taken inside close found fault failed
      ih =>
    obtain ⟨_, _, _, _, level⟩ := level.leadingAttributes_rest led
    obtain ⟨_, cut⟩ := level.takeItem_rest taken
    obtain ⟨_, within⟩ := cut.inside inside close found
    obtain ⟨o, outlined⟩ := ih within
    cases failed.symm.trans outlined
  | case10 front first others sites token later led inner flat s taken here inside close found within
      outlined ihInside =>
    rename_i ih
    obtain ⟨_, _, _, _, level⟩ := level.leadingAttributes_rest led
    obtain ⟨_, cut⟩ := level.takeItem_rest taken
    obtain ⟨o, found⟩ := ih cut.behind
    exact ⟨_, by rw [found]; rfl⟩

end Level

end Deasync
