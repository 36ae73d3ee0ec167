import Deasync.Proofs.OutlineSteps

namespace Deasync

-- The last token ends an item with this keyword: it is a semicolon, or the brace behind the group
-- that such an item ends with.
def EndsItem (keyword : Option ItemKeyword) (tokens : List Token) : Prop :=
  ∃ last, tokens.getLast? = some last ∧ (last.kind = .semicolon ∨ last.kind = .closeCurly ∧
    0 < openGroups tokens.dropLast ∧ ¬keyword.any ItemKeyword.endsAtSemicolon)

instance (keyword : Option ItemKeyword) (tokens : List Token) : Decidable (EndsItem keyword tokens) :=
  decidable_of_iff (tokens.getLast?.any fun last => decide (last.kind = .semicolon ∨
      last.kind = .closeCurly ∧ 0 < openGroups tokens.dropLast ∧
        ¬keyword.any ItemKeyword.endsAtSemicolon)) (by
    unfold EndsItem
    cases tokens.getLast? <;> simp)

theorem EndsItem.nonempty {keyword : Option ItemKeyword} {tokens : List Token}
    (ends : EndsItem keyword tokens) : tokens ≠ [] := by
  rintro rfl
  obtain ⟨last, found, _⟩ := ends
  cases found

theorem EndsItem.behind {keyword : Option ItemKeyword} {front later : List Token}
    (level : ∀ more, openGroups (front ++ more) = openGroups more) (filled : later ≠ [])
    (ends : EndsItem keyword (front ++ later)) : EndsItem keyword later := by
  obtain ⟨last, found, kind⟩ := ends
  rw [List.getLast?_append_of_ne_nil _ filled] at found
  rw [List.dropLast_append_of_ne_nil filled, level] at kind
  exact ⟨last, found, kind⟩

-- What follows an item did not become part of it.
def Stretch.Ended (s : Stretch) : Prop := s.rest ≠ [] ∨ EndsItem s.keyword s.tokens

theorem Taken.split {found : Option ItemKeyword} {tokens : List Token} {s : Stretch}
    (taken : Taken found tokens s) :
    tokens = s.tokens ++ s.rest ∧ (tokens ≠ [] → s.tokens ≠ []) :=
  takeItem_split taken.found

theorem Taken.level {found : Option ItemKeyword} {tokens : List Token} {s : Stretch}
    (taken : Taken found tokens s) (more : List Token) :
    openGroups (s.tokens ++ more) = openGroups more := by
  induction taken with
  | nothing => rfl
  | @semicolon found token later semicolon =>
    have flat : ¬token.kind.isOpener := by rw [semicolon]; decide
    exact openGroups_cons flat more
  | braces curly short closed => exact closing_openGroups closed more
  | @group found opener later group s opens passed closed _ ih =>
    rw [List.append_assoc, closing_openGroups closed, ih]
  | token other flat silent _ ih => rw [List.cons_append, openGroups_cons flat, ih]
  | keyword other flat meant _ ih => rw [List.cons_append, openGroups_cons flat, ih]

theorem Taken.eq_nothing {found : Option ItemKeyword} {tokens : List Token} {s : Stretch}
    (taken : Taken found tokens s) (empty : s.tokens = []) : tokens = [] ∧ s.rest = [] ∧
      s.keyword = found := by
  obtain ⟨split, filled⟩ := taken.split
  have none : tokens = [] := by
    by_contra some
    exact filled some empty
  subst none
  cases taken
  exact ⟨rfl, rfl, rfl⟩

-- The end of an item is the end of what is left of it behind its first tokens.
theorem Stretch.Ended.tail (front : List Token) {s : Stretch} {found : Option ItemKeyword}
    {tokens : List Token} {declared : Option (String × List Token)} (taken : Taken found tokens s)
    (level : ∀ more, openGroups (front ++ more) = openGroups more)
    (unended : ¬EndsItem found front)
    (ended : Stretch.Ended { s with tokens := front ++ s.tokens, declared := declared }) :
    s.Ended ∧ s.tokens ≠ [] := by
  rcases List.eq_nil_or_concat s.tokens with empty | ⟨most, last, filled⟩
  · obtain ⟨-, rest, keyword⟩ := taken.eq_nothing empty
    rcases ended with more | ends
    · exact absurd rest more
    · simp only [empty, List.append_nil, keyword] at ends
      exact absurd ends unended
  · have some : s.tokens ≠ [] := by simp [filled]
    exact ⟨ended.imp_right fun ends => ends.behind level some, some⟩

theorem ItemKeyword.of?_append {token : Token} {later : List Token} (filled : later ≠ [])
    (more : List Token) : ItemKeyword.of? token (later ++ more) = ItemKeyword.of? token later := by
  obtain ⟨next, rest, rfl⟩ := List.exists_cons_of_ne_nil filled
  rfl

theorem declaredBy_append {later : List Token} (filled : later ≠ []) (more own : List Token) :
    declaredBy (later ++ more) own = declaredBy later own := by
  obtain ⟨next, rest, rfl⟩ := List.exists_cons_of_ne_nil filled
  rfl

-- A token that is no semicolon and opens nothing ends no item.
theorem not_endsItem_single {keyword : Option ItemKeyword} {token : Token}
    (other : token.kind ≠ .semicolon) : ¬EndsItem keyword [token] := by
  rintro ⟨last, found, kind⟩
  cases found
  rcases kind with semicolon | ⟨_, deep, _⟩
  · exact other semicolon
  · exact absurd deep (Nat.lt_irrefl 0)

theorem not_endsItem_group {found : Option ItemKeyword} {opener : Token} {later : List Token}
    {group : Closing} (opens : opener.kind.isOpener)
    (passed : opener.kind = .openCurly → found.any ItemKeyword.endsAtSemicolon)
    (closed : closing opener later = .ok group) :
    ¬EndsItem found (group.before ++ [group.closer]) := by
  rintro ⟨last, ends, kind⟩
  rw [List.getLast?_concat] at ends
  cases ends
  have due := closing_kind opens closed
  rcases kind with semicolon | ⟨curly, _, short⟩
  · rw [semicolon] at due
    revert due
    cases opener.kind <;> decide
  · rw [curly] at due
    refine short (passed ?_)
    revert due
    cases opener.kind <;> decide

-- An item that has ended takes nothing of what follows.
theorem Taken.extend {found : Option ItemKeyword} {tokens : List Token} {s : Stretch}
    (taken : Taken found tokens s) (ended : s.Ended) (more : List Token) :
    Taken found (tokens ++ more) { s with rest := s.rest ++ more } := by
  induction taken with
  | nothing =>
    rcases ended with rest | ends
    · exact absurd rfl rest
    · exact absurd rfl ends.nonempty
  | semicolon semicolon => exact .semicolon semicolon
  | braces curly short closed => exact .braces curly short (closing_append closed more)
  | @group found opener later group s opens passed closed taken ih =>
    obtain ⟨ended, _⟩ := ended.tail _ taken (closing_openGroups closed)
      (not_endsItem_group opens passed closed)
    exact .group opens passed (closing_append closed more) (ih ended)
  | @token found token later s other flat silent taken ih =>
    obtain ⟨ended, filled⟩ := Stretch.Ended.tail [token] taken (openGroups_cons flat)
      (not_endsItem_single other) ended
    have some : later ≠ [] := by rw [taken.split.1]; simp [filled]
    exact .token other flat (fun none => by rw [ItemKeyword.of?_append some, silent none])
      (ih ended)
  | @keyword token later keyword s other flat meant taken ih =>
    obtain ⟨ended, filled⟩ := Stretch.Ended.tail [token] taken (openGroups_cons flat)
      (not_endsItem_single other) ended
    have some : later ≠ [] := by rw [taken.split.1]; simp [filled]
    rw [← declaredBy_append some more]
    exact .keyword other flat (by rw [ItemKeyword.of?_append some, meant]) (ih ended)

-- `part` stands in `text` behind the first `offset` characters.
def Text.At (offset : Nat) (part text : String) : Prop :=
  part.toList <+: text.toList.drop offset

theorem Text.At.slice {offset : Nat} {part text : String} (at' : Text.At offset part text)
    (start : Nat) {stop : Nat} (fits : stop ≤ part.length) :
    Text.slice text (offset + start) (offset + stop) = Text.slice part start stop := by
  obtain ⟨rest, whole⟩ := at'
  unfold Text.slice
  rw [← List.drop_drop, ← whole, Nat.add_sub_add_left, List.drop_append, List.take_append_of_le_length]
  rw [List.length_drop, String.length_toList]
  omega

-- Tokens, and the same ones `offset` characters further on.
abbrev Displaced (offset : Nat) := List.Forall₂ fun a b : Token => b.Shifted offset a

def AttributeSite.displaced (text : String) (offset : Nat) (site : AttributeSite) : AttributeSite where
  path := site.path
  start := offset + site.start
  stop := offset + site.stop
  nextStart := offset + site.nextStart
  argument := site.argument.map fun a => { a with span := a.span.rebase text offset none }

def OutlineItem.displaced (text : String) (offset : Nat) (item : OutlineItem) : OutlineItem where
  start := offset + item.start
  stop := offset + item.stop
  keyword := item.keyword
  name := item.name
  attributes := item.attributes.map (AttributeSite.displaced text offset)

def Outline.displaced (text : String) (offset : Nat) (o : Outline) : Outline :=
  ⟨o.items.map (OutlineItem.displaced text offset), o.carriers⟩

section Displacement

variable {offset : Nat} {part text : String}

theorem pathWords_suffix (tokens : List Token) : (pathWords tokens).2 <:+ tokens := by
  fun_induction pathWords tokens with
  | case1 => exact List.suffix_refl _
  | case2 first word next rest sep words behind walked ih =>
    rw [walked] at ih
    exact (ih.trans (List.suffix_cons _ _)).trans (List.suffix_cons _ _)
  | case3 => exact List.suffix_cons _ _
  | case4 => exact List.suffix_cons _ _
  | case5 => exact List.suffix_refl _

theorem attributePath_suffix (inside : List Token) : (attributePath inside).2 <:+ inside := by
  unfold attributePath
  cases inside with
  | nil => exact pathWords_suffix []
  | cons first later =>
    by_cases sep : first.kind = .pathSep
    · simp only [sep, if_true]
      exact (pathWords_suffix later).trans (List.suffix_cons _ _)
    · simp only [sep, if_false]
      exact pathWords_suffix (first :: later)

theorem closing_displaced {first other : Token} {later others : List Token} {c : Closing}
    (same : other.Shifted offset first) (moved : Displaced offset later others)
    (closed : closing first later = .ok c) : ∃ d, closing other others = .ok d ∧
      c.Related (fun a b => b.Shifted offset a) d :=
  closing_related (R := fun a b => b.Shifted offset a) (fun shift => shift.kind.symm) same moved
    closed

theorem pathWords_displaced {tokens others : List Token} (moved : Displaced offset tokens others) :
    (pathWords others).1 = (pathWords tokens).1 ∧
      Displaced offset (pathWords tokens).2 (pathWords others).2 := by
  fun_induction pathWords tokens generalizing others with
  | case1 => cases moved; exact ⟨rfl, .nil⟩
  | case2 token word next rest sep words behind walked ih =>
    obtain _ | ⟨same, _ | ⟨after, moved⟩⟩ := moved
    obtain ⟨first, second⟩ := ih moved
    rw [walked] at first second
    simp only [pathWords, same.kind, word, after.kind, sep, if_true, same.text, first]
    exact ⟨trivial, second⟩
  | case3 token word next rest sep =>
    obtain _ | ⟨same, _ | ⟨after, moved⟩⟩ := moved
    simp only [pathWords, same.kind, word, after.kind, sep, if_true, if_false, same.text]
    exact ⟨trivial, .cons after moved⟩
  | case4 token word =>
    obtain _ | ⟨same, _ | _⟩ := moved
    simp only [pathWords, same.kind, word, if_true, same.text]
    exact ⟨trivial, .nil⟩
  | case5 token later word =>
    obtain _ | ⟨same, moved⟩ := moved
    have other := same.kind ▸ word
    rw [pathWords.eq_def]
    simp only [if_neg other]
    exact ⟨trivial, .cons same moved⟩

theorem attributePath_displaced {inside others : List Token} (moved : Displaced offset inside others) :
    (attributePath others).1 = (attributePath inside).1 ∧
      Displaced offset (attributePath inside).2 (attributePath others).2 := by
  unfold attributePath
  cases moved with
  | nil => exact ⟨rfl, .nil⟩
  | @cons token other later rest same moved =>
    by_cases sep : token.kind = .pathSep
    · obtain ⟨words, behind⟩ := pathWords_displaced moved
      simp only [same.kind, sep, if_true, words]
      exact ⟨trivial, behind⟩
    · obtain ⟨words, behind⟩ := pathWords_displaced (.cons same moved)
      simp only [same.kind, sep, if_false, words]
      exact ⟨trivial, behind⟩

theorem attributeArgument_displaced {tokens others : List Token} {close end' : Token}
    {argument : Option Argument} (at' : Text.At offset part text)
    (moved : Displaced offset tokens others) (last : end'.Shifted offset close)
    (fits : ∀ t ∈ close :: tokens, t.extent.start ≤ part.length)
    (found : attributeArgument part close tokens = .ok argument) :
    attributeArgument text end' others =
      .ok (argument.map fun a => { a with span := a.span.rebase text offset none }) := by
  cases moved with
  | nil => cases found; rfl
  | @cons token other later rest same moved =>
    simp only [attributeArgument, same.kind] at found ⊢
    split
    · rename_i opens
      rw [if_pos opens] at found
      obtain ⟨group, closed, rfl⟩ := exists_of_map_ok found
      obtain ⟨again, also, related⟩ := closing_displaced same moved closed
      have listed : group.closer ∈ token :: later := by rw [closing_split closed]; simp
      have bound := fits group.closer (.tail _ listed)
      rw [also]
      simp only [Except.map, Option.map_some, same.stop, related.closer.start, at'.slice _ bound,
        Span.rebase, Span.between, Span.preferred, Int.natCast_add]
    · rename_i opens
      rw [if_neg opens] at found
      cases found
      simp only [Option.map_some, same.start, last.start, at'.slice _ (fits close (.head _)),
        Span.rebase, Span.between, Span.preferred, Int.natCast_add]

theorem head?_displaced {tokens others : List Token} {behind next : Option Token}
    (moved : Displaced offset tokens others)
    (standing : next.map (·.extent.start) = behind.map (offset + ·.extent.start)) :
    (others.head?.or next).map (·.extent.start) =
      (tokens.head?.or behind).map (offset + ·.extent.start) := by
  cases moved with
  | nil => exact standing
  | cons same _ => simp [same.start]

theorem attributeSite_eq (text : String) (behind : Option Token) (hash : Token) (group : Closing) :
    attributeSite text behind hash group =
      (attributeArgument text group.closer (attributePath group.before.tail).2).map fun argument =>
        ⟨(attributePath group.before.tail).1, hash.extent.start, group.closer.extent.stop,
          match group.after.head?.or behind with
          | some next => next.extent.start
          | none => group.closer.extent.stop, argument⟩ := rfl

theorem attributeSite_displaced {behind next : Option Token} {hash mark : Token}
    {group again : Closing} {site : AttributeSite} (at' : Text.At offset part text)
    (standing : next.map (·.extent.start) = behind.map (offset + ·.extent.start))
    (same : mark.Shifted offset hash) (related : group.Related (fun a b => b.Shifted offset a) again)
    (fits : ∀ t ∈ group.closer :: group.before, t.extent.start ≤ part.length)
    (found : attributeSite part behind hash group = .ok site) :
    attributeSite text next mark again = .ok (site.displaced text offset) := by
  have inside : Displaced offset group.before.tail again.before.tail := by
    rw [← List.drop_one, ← List.drop_one]
    exact List.forall₂_drop 1 related.before
  obtain ⟨path, rest⟩ := attributePath_displaced inside
  rw [attributeSite_eq] at found ⊢
  obtain ⟨argument, read, rfl⟩ := exists_of_map_ok found
  have within : ∀ t ∈ group.closer :: (attributePath group.before.tail).2,
      t.extent.start ≤ part.length := by
    refine List.forall_mem_cons.mpr ⟨fits _ (.head _), fun t listed => fits t (.tail _ ?_)⟩
    exact List.mem_of_mem_tail ((attributePath_suffix _).mem listed)
  have ahead := head?_displaced related.after standing
  simp only [attributeArgument_displaced at' rest related.closer within read, path, Except.map,
     AttributeSite.displaced, same.start, related.closer.stop, Except.ok.injEq,
    AttributeSite.mk.injEq, true_and, and_true]
  cases first : group.after.head?.or behind with
  | none =>
    rw [first, Option.map_none, Option.map_eq_none_iff] at ahead
    rw [ahead]
  | some token =>
    rw [first, Option.map_some, Option.map_eq_some_iff] at ahead
    obtain ⟨other, second, start⟩ := ahead
    rw [second]
    exact start

theorem Led.displaced {behind next : Option Token} {tokens others none : List Token}
    {sites : List AttributeSite} (led : Led part behind tokens sites none) (all : none = [])
    (at' : Text.At offset part text) (moved : Displaced offset tokens others)
    (fits : ∀ t ∈ tokens, t.extent.start ≤ part.length)
    (standing : next.map (·.extent.start) = behind.map (offset + ·.extent.start)) :
    Led text next others (sites.map (AttributeSite.displaced text offset)) [] := by
  induction led generalizing others with
  | done =>
    subst all
    cases moved
    exact .done trivial
  | doc doc _ ih =>
    obtain _ | ⟨same, moved⟩ := moved
    exact .doc (same.kind ▸ doc) (ih all moved fun t listed => fits t (.tail _ listed))
  | @attributed hash bracket later rest group site sites mark square closed found _ ih =>
    obtain _ | ⟨same, _ | ⟨after, moved⟩⟩ := moved
    obtain ⟨again, also, related⟩ := closing_displaced after moved closed
    have split := closing_split closed
    have within : ∀ t ∈ bracket :: later, t.extent.start ≤ part.length :=
      fun t listed => fits t (.tail _ listed)
    rw [split] at within
    refine .attributed (same.kind.trans mark) (after.kind.trans square) also ?_
      (ih all related.after fun t listed => within t (by simp [listed]))
    refine attributeSite_displaced at' standing same related (fun t listed => within t ?_) found
    rcases List.mem_cons.mp listed with rfl | listed <;> simp_all

theorem countLifetimes_kinds {tokens others : List Token} (alike : SameKinds tokens others)
    (depth : Nat) (previous : Kind) :
    countLifetimes depth previous others = countLifetimes depth previous tokens := by
  induction alike generalizing depth previous with
  | nil => rfl
  | cons same _ ih => simp only [countLifetimes, ← same, ih]

theorem lifetimeArity_kinds {tokens others : List Token} (alike : SameKinds tokens others) :
    lifetimeArity others = lifetimeArity tokens := by
  cases alike with
  | nil => rfl
  | cons same rest => simp only [lifetimeArity, ← same, countLifetimes_kinds rest]

-- The same item, further on.
structure Stretch.Displaced (offset : Nat) (s r : Stretch) : Prop where
  tokens : Deasync.Displaced offset s.tokens r.tokens
  keyword : r.keyword = s.keyword
  declared : r.declared.map (fun d => (d.1, lifetimeArity d.2)) =
    s.declared.map fun d => (d.1, lifetimeArity d.2)
  inside : Option.Rel (fun a b => Deasync.Displaced offset a.1 b.1 ∧ b.2.Shifted offset a.2)
    s.inside r.inside
  rest : Deasync.Displaced offset s.rest r.rest

theorem ItemKeyword.of?_displaced {token other : Token} {later others : List Token}
    (same : other.Shifted offset token) (moved : Displaced offset later others) :
    ItemKeyword.of? other others = ItemKeyword.of? token later := by
  unfold ItemKeyword.of?
  rw [same.kind, same.text]
  cases moved with
  | nil => rfl
  | cons next _ => simp only [next.kind]

theorem declaredBy_displaced {later others own its : List Token}
    (moved : Displaced offset later others) (tokens : Displaced offset own its) :
    (declaredBy others its).map (fun d => (d.1, lifetimeArity d.2)) =
      (declaredBy later own).map fun d => (d.1, lifetimeArity d.2) := by
  cases moved with
  | nil => rfl
  | cons next _ =>
    have kinds : SameKinds own its := tokens.imp fun _ _ shift => shift.kind.symm
    have arity := lifetimeArity_kinds (List.forall₂_drop 1 kinds)
    simp only [List.drop_one] at arity
    simp only [declaredBy, next.kind, next.text]
    split
    · rw [Option.map_some, Option.map_some, arity]
    · rfl

theorem insideOf_displaced {group again : Closing} (keyword : Option ItemKeyword)
    (related : group.Related (fun a b => b.Shifted offset a) again) :
    Option.Rel (fun a b => Displaced offset a.1 b.1 ∧ b.2.Shifted offset a.2)
      (insideOf keyword group) (insideOf keyword again) := by
  unfold insideOf
  split
  · refine .some ⟨?_, related.closer⟩
    rw [← List.drop_one, ← List.drop_one]
    exact List.forall₂_drop 1 related.before
  · exact .none

theorem Closing.Related.own {group again : Closing}
    (related : group.Related (fun a b => b.Shifted offset a) again) :
    Displaced offset (group.before ++ [group.closer]) (again.before ++ [again.closer]) :=
  List.rel_append related.before (.cons related.closer .nil)

theorem Taken.displaced {found : Option ItemKeyword} {tokens others : List Token} {s : Stretch}
    (taken : Taken found tokens s) (moved : Displaced offset tokens others) :
    ∃ r, Taken found others r ∧ s.Displaced offset r := by
  induction taken generalizing others with
  | nothing =>
    cases moved
    exact ⟨_, .nothing, .nil, rfl, rfl, .none, .nil⟩
  | semicolon semicolon =>
    obtain _ | ⟨same, moved⟩ := moved
    exact ⟨_, .semicolon (same.kind.trans semicolon), .cons same .nil, rfl, rfl, .none, moved⟩
  | braces curly short closed =>
    obtain _ | ⟨same, moved⟩ := moved
    obtain ⟨again, also, related⟩ := closing_displaced same moved closed
    exact ⟨_, .braces (same.kind.trans curly) short also, related.own, rfl, rfl,
      insideOf_displaced _ related, related.after⟩
  | group opens passed closed _ ih =>
    obtain _ | ⟨same, moved⟩ := moved
    obtain ⟨again, also, related⟩ := closing_displaced same moved closed
    obtain ⟨r, taken, alike⟩ := ih related.after
    refine ⟨_, .group (same.kind ▸ opens) (fun curly => passed (same.kind ▸ curly)) also taken, ?_⟩
    exact ⟨List.rel_append related.own alike.tokens, alike.keyword, alike.declared, alike.inside,
      alike.rest⟩
  | token other flat silent _ ih =>
    obtain _ | ⟨same, moved⟩ := moved
    obtain ⟨r, taken, alike⟩ := ih moved
    refine ⟨_, .token (same.kind ▸ other) (same.kind ▸ flat)
      (fun none => by rw [ItemKeyword.of?_displaced same moved, silent none]) taken, ?_⟩
    exact ⟨.cons same alike.tokens, alike.keyword, alike.declared, alike.inside, alike.rest⟩
  | keyword other flat meant _ ih =>
    obtain _ | ⟨same, moved⟩ := moved
    obtain ⟨r, taken, alike⟩ := ih moved
    refine ⟨_, .keyword (same.kind ▸ other) (same.kind ▸ flat)
      (by rw [ItemKeyword.of?_displaced same moved, meant]) taken, ?_⟩
    exact ⟨.cons same alike.tokens, alike.keyword, declaredBy_displaced moved alike.tokens,
      alike.inside, alike.rest⟩

theorem Stretch.Displaced.carrierOf {s r : Stretch} (alike : s.Displaced offset r) :
    carrierOf r.keyword r.declared = carrierOf s.keyword s.declared := by
  have declared := alike.declared
  rw [alike.keyword]
  cases own : s.declared with
  | none =>
    rw [own, Option.map_none, Option.map_eq_none_iff] at declared
    rw [declared]
  | some pair =>
    rw [own, Option.map_some, Option.map_eq_some_iff] at declared
    obtain ⟨other, its, same⟩ := declared
    rw [Prod.mk.injEq] at same
    simp only [its, Deasync.carrierOf, same.1, same.2]

theorem Stretch.Displaced.name {s r : Stretch} (alike : s.Displaced offset r) :
    r.declared.map Prod.fst = s.declared.map Prod.fst := by
  simpa [Function.comp_def] using congrArg (Option.map Prod.fst) alike.declared

theorem getLast?_displaced {first other : Token} {tokens others : List Token}
    (same : other.Shifted offset first) (moved : Displaced offset tokens others) :
    (others.getLast?.getD other).Shifted offset (tokens.getLast?.getD first) := by
  induction moved generalizing first other with
  | nil => exact same
  | cons next _ ih =>
    rw [List.getLast?_cons, List.getLast?_cons, Option.getD_some, Option.getD_some]
    exact ih next

theorem outlineItem_displaced {first other : Token} {sites : List AttributeSite} {s r : Stretch}
    (same : other.Shifted offset first) (alike : s.Displaced offset r) :
    outlineItem other (sites.map (AttributeSite.displaced text offset)) r =
      (outlineItem first sites s).displaced text offset := by
  have last := getLast?_displaced same alike.tokens
  simp only [outlineItem, OutlineItem.displaced, same.start, last.stop, alike.keyword, alike.name]

theorem innerBracket?_displaced {tokens others : List Token}
    (moved : Displaced offset tokens others) :
    Option.Rel (fun a b => b.1.Shifted offset a.1 ∧ Displaced offset a.2 b.2)
      (innerBracket? tokens) (innerBracket? others) := by
  obtain _ | ⟨hash, _ | ⟨bang, _ | ⟨bracket, rest⟩⟩⟩ := moved
  · exact .none
  · exact .none
  · exact .none
  · simp only [innerBracket?, hash.kind, bang.kind, bracket.kind]
    split
    · exact .some ⟨bracket, rest⟩
    · exact .none

theorem Unattributed.displaced {tokens others : List Token} (bare : Unattributed tokens)
    (moved : Displaced offset tokens others) : Unattributed others := by
  obtain _ | ⟨first, _ | ⟨second, rest⟩⟩ := moved
  · trivial
  · simpa only [Unattributed, first.kind] using bare
  · simpa only [Unattributed, first.kind, second.kind] using bare

-- An item that has ended has a token that no attribute begins with.
theorem Taken.mark {found : Option ItemKeyword} {tokens : List Token} {s : Stretch}
    (taken : Taken found tokens s) (ended : s.Ended) :
    ∃ t ∈ s.tokens, t.kind = .semicolon ∨ t.kind = .openCurly := by
  induction taken with
  | nothing =>
    rcases ended with rest | ends
    · exact absurd rfl rest
    · exact absurd rfl ends.nonempty
  | semicolon semicolon => exact ⟨_, .head _, .inl semicolon⟩
  | @braces found opener later group curly short closed =>
    obtain ⟨rest, before⟩ := closing_before (by rw [curly]; decide) closed
    exact ⟨opener, by simp [before], .inr curly⟩
  | group opens passed closed taken ih =>
    obtain ⟨ended, _⟩ := ended.tail _ taken (closing_openGroups closed)
      (not_endsItem_group opens passed closed)
    obtain ⟨t, listed, kind⟩ := ih ended
    exact ⟨t, List.mem_append_right _ listed, kind⟩
  | @token found token later s other flat silent taken ih =>
    obtain ⟨ended, _⟩ := Stretch.Ended.tail [token] taken (openGroups_cons flat)
      (not_endsItem_single other) ended
    obtain ⟨t, listed, kind⟩ := ih ended
    exact ⟨t, .tail _ listed, kind⟩
  | @keyword token later keyword s other flat meant taken ih =>
    obtain ⟨ended, _⟩ := Stretch.Ended.tail [token] taken (openGroups_cons flat)
      (not_endsItem_single other) ended
    obtain ⟨t, listed, kind⟩ := ih ended
    exact ⟨t, .tail _ listed, kind⟩

theorem Unattributed.append {tokens : List Token} (bare : Unattributed tokens)
    (mark : ∃ t ∈ tokens, t.kind = .semicolon ∨ t.kind = .openCurly) (more : List Token) :
    Unattributed (tokens ++ more) := by
  obtain ⟨t, listed, kind⟩ := mark
  match tokens, bare with
  | [token], bare =>
    obtain rfl := List.mem_singleton.mp listed
    cases more with
    | nil => exact bare
    | cons next rest =>
      refine ⟨bare, fun both => ?_⟩
      rcases kind with same | same <;> rw [same] at both <;> cases both.1
  | _ :: _ :: _, bare => exact bare

theorem innerBracket?_eq_some_iff {tokens rest : List Token} {bracket : Token} :
    innerBracket? tokens = some (bracket, rest) ↔ ∃ hash bang,
      tokens = hash :: bang :: bracket :: rest ∧ hash.kind = .hash ∧ bang.kind = .bang ∧
        bracket.kind = .openSquare := by
  fun_cases innerBracket? tokens with
  | case1 hash bang bracket rest kinds =>
    constructor
    · rintro ⟨⟩
      exact ⟨hash, bang, rfl, kinds⟩
    · rintro ⟨_, _, ⟨⟩, _⟩
      rfl
  | case2 hash bang bracket rest kinds =>
    refine ⟨fun found => (by cases found), ?_⟩
    rintro ⟨_, _, ⟨⟩, others⟩
    exact absurd others kinds
  | case3 tokens short =>
    refine ⟨fun found => (by cases found), ?_⟩
    rintro ⟨hash, bang, same, _⟩
    exact absurd same (short hash bang bracket rest)

theorem innerBracket?_eq_none_iff {tokens : List Token} : innerBracket? tokens = none ↔
    ∀ hash bang bracket rest, tokens = hash :: bang :: bracket :: rest →
      ¬(hash.kind = .hash ∧ bang.kind = .bang ∧ bracket.kind = .openSquare) := by
  fun_cases innerBracket? tokens with
  | case1 hash bang bracket rest kinds => simp [kinds]
  | case2 hash bang bracket rest kinds =>
    simp only [true_iff]
    rintro _ _ _ _ ⟨⟩
    exact kinds
  | case3 tokens short =>
    simp only [true_iff]
    intro hash bang bracket rest same
    exact absurd same (short hash bang bracket rest)

theorem innerBracket?_append {tokens : List Token} (none : innerBracket? tokens = none)
    (mark : ∃ t ∈ tokens, t.kind = .semicolon ∨ t.kind = .openCurly) (more : List Token) :
    innerBracket? (tokens ++ more) = .none := by
  obtain ⟨t, listed, kind⟩ := mark
  refine innerBracket?_eq_none_iff.mpr fun hash bang bracket rest same kinds => ?_
  match tokens, same with
  | [a], same =>
    cases same
    obtain rfl := List.mem_singleton.mp listed
    simp [kinds] at kind
  | [a, b], same =>
    cases same
    rcases List.mem_pair.mp listed with rfl | rfl <;> simp [kinds] at kind
  | a :: b :: c :: tokens, same =>
    cases same
    exact innerBracket?_eq_none_iff.mp none _ _ _ _ rfl kinds

theorem displaced_append {a b others : List Token} (moved : Displaced offset (a ++ b) others) :
    ∃ x y, others = x ++ y ∧ Displaced offset a x ∧ Displaced offset b y := by
  induction a generalizing others with
  | nil => exact ⟨[], others, rfl, .nil, moved⟩
  | cons token a ih =>
    obtain _ | ⟨same, moved⟩ := moved
    obtain ⟨x, y, rfl, first, second⟩ := ih moved
    exact ⟨_, y, rfl, .cons same first, second⟩

theorem openGroups_kinds {tokens others : List Token} (alike : SameKinds tokens others) :
    openGroups others = openGroups tokens := by
  unfold openGroups
  generalize 0 = depth
  induction alike generalizing depth with
  | nil => rfl
  | cons same _ ih => simp only [List.foldl_cons, Token.depth, ← same, ih]

theorem EndsItem.displaced {keyword : Option ItemKeyword} {tokens others : List Token}
    (ends : EndsItem keyword tokens) (moved : Displaced offset tokens others) :
    EndsItem keyword others := by
  obtain ⟨last, found, kind⟩ := ends
  obtain ⟨most, rfl⟩ := List.getLast?_eq_some_iff.mp found
  obtain ⟨x, y, rfl, front, _ | ⟨same, _ | _⟩⟩ := displaced_append moved
  have groups := openGroups_kinds (front.imp fun _ _ shift => shift.kind.symm)
  rw [List.dropLast_concat] at kind
  refine ⟨_, List.getLast?_concat, ?_⟩
  rwa [List.dropLast_concat, groups, same.kind]

theorem Stretch.Ended.displaced {s r : Stretch} (ended : s.Ended) (alike : s.Displaced offset r) :
    r.Ended := by
  rcases ended with more | ends
  · refine .inl fun none => more ?_
    exact List.forall₂_nil_right_iff.mp (none ▸ alike.rest)
  · right
    rw [alike.keyword]
    exact ends.displaced alike.tokens

theorem inner_displaced {behind next : Option Token} {bracket : Token}
    {tokens after rest its : List Token} {sites : List AttributeSite} {group : Closing}
    (led : Led part behind tokens sites after) (bracketed : innerBracket? after = some (bracket, rest))
    (closed : closing bracket rest = .ok group) (at' : Text.At offset part text)
    (fits : ∀ t ∈ tokens, t.extent.start ≤ part.length) (moved : Displaced offset tokens its)
    (standing : next.map (·.extent.start) = behind.map (offset + ·.extent.start))
    (more : List Token) :
    ∃ left other tail, ∃ again : Closing,
      Led text next (its ++ more) (sites.map (AttributeSite.displaced text offset)) left ∧
      innerBracket? left = some (other, tail) ∧
      closing other tail = .ok { again with after := again.after ++ more } ∧
      Displaced offset group.after again.after := by
  obtain ⟨front, rfl, leads, _⟩ := led.split
  obtain ⟨hash, bang, rfl, mark, exclaims, square⟩ := innerBracket?_eq_some_iff.mp bracketed
  obtain ⟨x, y, rfl, lead, own⟩ := displaced_append moved
  have ahead := leads.displaced rfl at' lead (fun t listed => fits t (by simp [listed]))
    (head?_displaced own standing)
  obtain _ | ⟨first, _ | ⟨second, _ | ⟨third, own⟩⟩⟩ := own
  obtain ⟨again, also, related⟩ := closing_displaced third own closed
  have mark' := first.kind.trans mark
  have exclaims' := second.kind.trans exclaims
  refine ⟨_, _, _, again, ?_,
    innerBracket?_eq_some_iff.mpr ⟨_, _, rfl, mark', exclaims', third.kind.trans square⟩,
    closing_append also more, related.after⟩
  rw [List.append_assoc, ← List.append_nil (sites.map _)]
  refine Led.join ahead rfl (.done ⟨?_, fun both => ?_⟩)
  · rw [mark']
    decide
  · cases exclaims'.symm.trans both.2

-- No group is open behind an inner attribute.
theorem inner_level {behind : Option Token} {bracket : Token} {tokens after rest : List Token}
    {sites : List AttributeSite} {group : Closing} (led : Led part behind tokens sites after)
    (bracketed : innerBracket? after = some (bracket, rest))
    (closed : closing bracket rest = .ok group) : ∃ front, tokens = front ++ group.after ∧
      ∀ more, openGroups (front ++ more) = openGroups more := by
  obtain ⟨front, rfl, _, _, level⟩ := led.split
  obtain ⟨hash, bang, rfl, mark, exclaims, _⟩ := innerBracket?_eq_some_iff.mp bracketed
  refine ⟨front ++ hash :: bang :: (group.before ++ [group.closer]), ?_, fun more => ?_⟩
  · rw [closing_split closed]
    simp
  · have flat : ¬hash.kind.isOpener ∧ ¬bang.kind.isOpener := by rw [mark, exclaims]; decide
    rw [List.append_assoc, level, List.cons_append, List.cons_append, openGroups_cons flat.1,
      openGroups_cons flat.2, closing_openGroups closed]

theorem item_displaced {behind next : Option Token} {first token : Token}
    {others later its more : List Token} {sites : List AttributeSite} {s : Stretch}
    (led : Led part behind (first :: others) sites (token :: later))
    (bare : innerBracket? (token :: later) = none) (flat : ¬token.kind.isCloser)
    (taken : Taken none (token :: later) s) (at' : Text.At offset part text)
    (fits : ∀ t ∈ first :: others, t.extent.start ≤ part.length)
    (moved : Displaced offset (first :: others) its)
    (standing : next.map (·.extent.start) = behind.map (offset + ·.extent.start))
    (goes : more = [] ∨ s.Ended) :
    ∃ start rest head tail r, its = start :: rest ∧ start.Shifted offset first ∧
      Led text next (start :: rest ++ more) (sites.map (AttributeSite.displaced text offset))
        (head :: tail) ∧
      innerBracket? (head :: tail) = none ∧ ¬head.kind.isCloser ∧
      Taken none (head :: tail) { r with rest := r.rest ++ more } ∧ s.Displaced offset r := by
  obtain ⟨front, split, leads, plain, _⟩ := led.split
  obtain _ | ⟨same, _⟩ := id moved
  rename_i start rest _
  rw [split] at moved fits
  obtain ⟨x, y, row, lead, own⟩ := displaced_append moved
  obtain ⟨r, again, alike⟩ := taken.displaced own
  have ahead := leads.displaced rfl at' lead (fun t listed => fits t (by simp [listed]))
    (head?_displaced own standing)
  have plain' := plain.displaced own
  have bare' : innerBracket? y = none := by
    have both := innerBracket?_displaced own
    rw [bare] at both
    generalize innerBracket? y = found at both ⊢
    cases both
    rfl
  have mark : more = [] ∨ ∃ t ∈ y, t.kind = .semicolon ∨ t.kind = .openCurly := by
    refine goes.imp_right fun ended => ?_
    obtain ⟨t, listed, kind⟩ := again.mark (ended.displaced alike)
    exact ⟨t, by rw [again.split.1]; exact List.mem_append_left _ listed, kind⟩
  obtain _ | ⟨opens, tail⟩ := own
  rename_i head tail'
  refine ⟨start, rest, head, tail' ++ more, r, rfl, same, ?_, ?_, opens.kind ▸ flat, ?_, alike⟩
  · rw [row, List.append_assoc, ← List.append_nil (sites.map _)]
    have lead : Led text ((head :: tail' ++ more).head?.or next) x
      (sites.map (AttributeSite.displaced text offset)) [] := ahead
    refine lead.join rfl (.done ?_)
    rcases mark with rfl | mark
    · rwa [List.append_nil]
    · exact plain'.append mark more
  · rcases mark with rfl | mark
    · rwa [List.append_nil]
    · exact innerBracket?_append bare' mark more
  · rcases goes with rfl | ended
    · simpa using again
    · exact again.extend (ended.displaced alike) more

-- The last token is the end of the last item of the level.
def Terminated (tokens : List Token) (o : Outline) : Prop :=
  ∃ last item, tokens.getLast? = some last ∧ o.items.getLast? = some item ∧
    item.stop = last.extent.stop ∧ EndsItem item.keyword tokens

instance (tokens : List Token) (o : Outline) : Decidable (Terminated tokens o) :=
  decidable_of_iff (tokens.getLast?.any fun last => o.items.getLast?.any fun item =>
      decide (item.stop = last.extent.stop ∧ EndsItem item.keyword tokens)) (by
    unfold Terminated
    cases tokens.getLast? <;> cases o.items.getLast? <;> simp)

theorem Terminated.behind {front later : List Token} {o : Outline}
    (level : ∀ more, openGroups (front ++ more) = openGroups more) (filled : later ≠ [])
    (terminated : Terminated (front ++ later) o) : Terminated later o := by
  obtain ⟨last, item, found, listed, stop, ends⟩ := terminated
  rw [List.getLast?_append_of_ne_nil _ filled] at found
  exact ⟨last, item, found, listed, stop, ends.behind level filled⟩

theorem InRow.last_lt {start stop : Nat} {front later : List Token} {a b : Token}
    (row : InRow start stop (front ++ later)) (first : front.getLast? = some a)
    (second : later.getLast? = some b) : a.extent.stop < b.extent.stop := by
  have apart := (List.pairwise_append.mp row.apart).2.2 a (List.mem_of_getLast? first) b
    (List.mem_of_getLast? second)
  have filled := row.filled b (List.mem_append_right _ (List.mem_of_getLast? second))
  omega

theorem InRow.sublist {start stop : Nat} {tokens part : List Token} (row : InRow start stop tokens)
    (sub : part.Sublist tokens) : InRow start stop part where
  apart := row.apart.sublist sub
  filled t listed := row.filled t (sub.mem listed)
  from_start t listed := row.from_start t (sub.mem listed)
  to_stop t listed := row.to_stop t (sub.mem listed)

theorem Terminated.item {start stop : Nat} {front : List Token} {s : Stretch} {before o : Outline}
    {first : Token} {sites : List AttributeSite}
    (terminated : Terminated (front ++ s.tokens ++ s.rest) (before.append o))
    (here : before.items.getLast? = some (outlineItem first sites s)) (filled : s.tokens ≠ [])
    (row : InRow start stop (front ++ s.tokens ++ s.rest))
    (lead : ∀ more, openGroups (front ++ more) = openGroups more)
    (own : ∀ more, openGroups (s.tokens ++ more) = openGroups more)
    (nothing : s.rest = [] → o.items = []) : s.Ended ∧ (s.rest = [] ∨ Terminated s.rest o) := by
  by_cases rest : s.rest = []
  · obtain ⟨last, item, found, listed, stop, ends⟩ := terminated
    rw [Outline.append, nothing rest, List.append_nil, here] at listed
    cases listed
    rw [rest, List.append_nil] at ends
    exact ⟨.inr (ends.behind lead filled), .inl rest⟩
  · refine ⟨.inl rest, .inr ?_⟩
    have level : ∀ more, openGroups (front ++ s.tokens ++ more) = openGroups more := by
      intro more
      rw [List.append_assoc, lead, own]
    obtain ⟨last, item, found, listed, stop, ends⟩ := terminated.behind level rest
    have more : o.items ≠ [] := by
      intro none
      rw [Outline.append, none, List.append_nil, here] at listed
      cases listed
      have ending := List.getLast?_eq_getLast_of_ne_nil filled
      have less := row.last_lt ((List.getLast?_append_of_ne_nil _ filled).trans ending) found
      simp only [outlineItem, ending, Option.getD_some] at stop
      omega
    rw [Outline.append, List.getLast?_append_of_ne_nil _ more] at listed
    exact ⟨last, item, found, listed, stop, ends⟩

@[simp] theorem Outline.append_empty (o : Outline) : o.append .empty = o := by
  simp [Outline.append, Outline.empty]

theorem Outline.append_assoc (a b c : Outline) : (a.append b).append c = a.append (b.append c) := by
  simp [Outline.append]

theorem Outline.displaced_append (text : String) (offset : Nat) (a b : Outline) :
    (a.append b).displaced text offset =
      (a.displaced text offset).append (b.displaced text offset) := by
  simp [Outline.append, Outline.displaced]

theorem Levelled.nothing_eq {behind : Option Token} {o : Outline} (level : Levelled text behind [] o) :
    o = .empty := by
  have found := level.found
  rw [outlineLevel] at found
  cases found
  rfl

-- What follows a level follows its first item, when it ends the level, or else the rest of it.
theorem goes_behind {start stop : Nat} {behind : Option Token} {first token : Token}
    {others later more : List Token} {sites : List AttributeSite} {s : Stretch} {o : Outline}
    (before : Outline) (led : Led part behind (first :: others) sites (token :: later))
    (taken : Taken none (token :: later) s) (row : InRow start stop (first :: others))
    (goes : more = [] ∨ first :: others = [] ∨ Terminated (first :: others) (before.append o))
    (level : Levelled part behind s.rest o)
    (here : before.items.getLast? = some (outlineItem first sites s)) :
    (more = [] ∨ s.Ended) ∧ (more = [] ∨ s.rest = [] ∨ Terminated s.rest o) := by
  rcases goes with none | empty | terminated
  · exact ⟨.inl none, .inl none⟩
  · cases empty
  · obtain ⟨front, split, _, _, lead⟩ := led.split
    obtain ⟨own, filled⟩ := taken.split
    rw [split, own, ← List.append_assoc] at terminated row
    have nothing : s.rest = [] → o.items = [] := by
      intro none
      rw [none] at level
      rw [level.nothing_eq]
      rfl
    obtain ⟨ended, rest⟩ :=
      terminated.item here (filled (List.cons_ne_nil _ _)) row lead taken.level nothing
    exact ⟨.inr ended, .inr rest⟩

theorem rest_within {behind : Option Token} {tokens rest : List Token} {sites : List AttributeSite}
    {s : Stretch} (led : Led part behind tokens sites rest) (taken : Taken none rest s) :
    s.rest <:+: tokens ∧ ∀ pair, s.inside = some pair → pair.1 <:+: tokens := by
  obtain ⟨front, split, _⟩ := led.split
  rw [split, taken.split.1]
  refine ⟨⟨front ++ s.tokens, [], by simp⟩, fun pair found => ?_⟩
  obtain ⟨_, lead, _, own⟩ := takeItem_encloses taken.found _ _ found
  exact ⟨front ++ lead, [pair.2] ++ s.rest, by rw [own]; simp⟩

theorem here_displaced {first other : Token} {sites : List AttributeSite} {s r : Stretch}
    (same : other.Shifted offset first) (alike : s.Displaced offset r) :
    Outline.displaced text offset ⟨[outlineItem first sites s], carrierOf s.keyword s.declared⟩ =
      ⟨[outlineItem other (sites.map (AttributeSite.displaced text offset)) r],
        carrierOf r.keyword r.declared⟩ := by
  rw [Outline.displaced, List.map_singleton, outlineItem_displaced same alike, alike.carrierOf]

theorem Levelled.displaced {behind next : Option Token} {tokens others more : List Token}
    {o following : Outline} {start stop : Nat} (level : Levelled part behind tokens o)
    (at' : Text.At offset part text) (row : InRow start stop tokens) (fits : stop ≤ part.length)
    (moved : Displaced offset tokens others)
    (standing : next.map (·.extent.start) = behind.map (offset + ·.extent.start))
    (goes : more = [] ∨ tokens = [] ∨ Terminated tokens o)
    (follows : Levelled text next more following) :
    Levelled text next (others ++ more) ((o.displaced text offset).append following) := by
  have bound : ∀ {tokens}, InRow start stop tokens → ∀ t ∈ tokens, t.extent.start ≤ part.length := by
    intro tokens row t listed
    have filled := row.filled t listed
    have ends := row.to_stop t listed
    omega
  induction level generalizing others more following next with
  | nothing =>
    cases moved
    exact follows
  | @trailing behind tokens sites filled led =>
    have none : more = [] := by
      rcases goes with none | empty | ⟨_, _, _, listed, _⟩
      · exact none
      · exact absurd empty filled
      · cases listed
    subst none
    obtain rfl := follows.nothing_eq
    rw [List.append_nil]
    refine .trailing ?_ (led.displaced rfl at' moved (bound row) standing)
    rintro rfl
    exact filled (List.forall₂_nil_right_iff.mp moved)
  | @inner behind tokens after rest sites bracket group o led bracketed closed _ ih =>
    obtain ⟨left, other, tail, again, ahead, found, also, rest⟩ :=
      inner_displaced led bracketed closed at' (bound row) moved standing more
    obtain ⟨front, split, flat⟩ := inner_level led bracketed closed
    refine .inner ahead found also (ih ?_ rest standing (goes.imp_right ?_) follows)
    · exact row.sublist (split ▸ List.sublist_append_right _ _)
    · rintro (empty | terminated)
      · exact absurd empty (led.nonempty (by rintro rfl; cases bracketed))
      · by_cases none : group.after = []
        · exact .inl none
        · rw [split] at terminated
          exact .inr (terminated.behind flat none)
  | @item behind first token others later sites s o led bare flat own single level ih =>
    obtain ⟨ended, goes⟩ := goes_behind ⟨[_], _⟩ led own row goes level rfl
    obtain ⟨start, rest, head, tail, r, rfl, same, ahead, bare, flat, taken, alike⟩ :=
      item_displaced led bare flat own at' (bound row) moved standing ended
    have inside : r.inside = none := by
      have both := alike.inside
      rw [single] at both
      generalize r.inside = found at both ⊢
      cases both
      rfl
    have rest := ih (row.sublist (rest_within led own).1.sublist) alike.rest standing goes follows
    rw [Outline.displaced_append, Outline.append_assoc, here_displaced same alike]
    exact .item (s := { r with rest := r.rest ++ more }) ahead bare flat taken inside rest
  | @submodule behind first token close others later inside sites s within o led bare flat own braced
      _ level ihInside ihRest =>
    obtain ⟨ended, goes⟩ := goes_behind (within.append ⟨[_], _⟩) led own row goes level
      (List.getLast?_concat ..)
    obtain ⟨start, rest, head, tail, r, rfl, same, ahead, bare, flat, taken, alike⟩ :=
      item_displaced led bare flat own at' (bound row) moved standing ended
    obtain ⟨inside', close', braced', moved', shift⟩ : ∃ inside' close',
        r.inside = some (inside', close') ∧ Displaced offset inside inside' ∧
          close'.Shifted offset close := by
      have both := alike.inside
      rw [braced] at both
      generalize r.inside = found at both ⊢
      cases both with
      | some both => exact ⟨_, _, rfl, both⟩
    have tails := rest_within led own
    have brace : (some close').map (·.extent.start) = (some close).map (offset + ·.extent.start) :=
      congrArg some shift.start
    have within' := ihInside (row.sublist (tails.2 _ braced).sublist) moved' brace (.inl rfl) .nothing
    have rest := ihRest (row.sublist tails.1.sublist) alike.rest standing goes follows
    rw [List.append_nil, Outline.append_empty] at within'
    rw [Outline.displaced_append, Outline.displaced_append, Outline.append_assoc,
      here_displaced same alike]
    exact .submodule (s := { r with rest := r.rest ++ more }) ahead bare flat taken braced' within' rest

end Displacement

end Deasync
