import Deasync.Grammar.Reading
import Deasync.Outline
import Mathlib.Data.List.Forall2

namespace Deasync

theorem exists_of_map_ok {α β : Type} {result : Except Fault α} {change : α → β} {b : β}
    (mapped : result.map change = .ok b) : ∃ a, result = .ok a ∧ change a = b := by
  cases result with
  | error fault => cases mapped
  | ok a => cases mapped; exact ⟨a, rfl, rfl⟩

theorem error_of_map {α β : Type} {result : Except Fault α} {change : α → β} {fault : Fault}
    (failed : result.map change = .error fault) : result = .error fault := by
  cases result with
  | error _ => cases failed; rfl
  | ok _ => cases failed

theorem exists_of_forall₂ {α β : Type} {R : α → β → Prop} {l : List α} {u : List β} {a : α}
    (alike : List.Forall₂ R l u) (listed : a ∈ l) : ∃ b ∈ u, R a b := by
  induction alike with
  | nil => cases listed
  | cons related _ ih =>
    rcases List.mem_cons.mp listed with rfl | later
    · exact ⟨_, .head _, related⟩
    · obtain ⟨b, present, other⟩ := ih later
      exact ⟨b, .tail _ present, other⟩

theorem toOption_eq_some {ε α : Type} {result : Except ε α} {a : α}
    (found : result.toOption = some a) : result = .ok a := by
  cases result with
  | error fault => cases found
  | ok b => cases found; rfl

theorem closingFrom_append {first : Token} {waiting : List Kind} {tokens : List Token} {c : Closing}
    (closed : closingFrom first waiting tokens = .ok c) (more : List Token) :
    closingFrom first waiting (tokens ++ more) = .ok { c with after := c.after ++ more } := by
  fun_induction closingFrom first waiting tokens generalizing c with
  | case1 => cases closed
  | case2 waiting token later due opens ih =>
    obtain ⟨d, inner, rfl⟩ := exists_of_map_ok closed
    simp only [List.cons_append, closingFrom, opens, ih inner]
    rfl
  | case3 token later closes none => cases closed
  | case4 token later closes none due outer different => cases closed
  | case5 token later opens closes due outer same last =>
    cases closed
    simp_all [closingFrom]
  | case6 token later opens closes due outer same last ih =>
    obtain ⟨d, inner, rfl⟩ := exists_of_map_ok closed
    simp only [List.cons_append, closingFrom, opens, closes, if_true, same, if_false, last,
      ih inner]
    rfl
  | case7 waiting token later opens closes ih =>
    obtain ⟨d, inner, rfl⟩ := exists_of_map_ok closed
    simp only [List.cons_append, closingFrom, opens, closes, ih inner]
    rfl

theorem closing_append {first : Token} {later : List Token} {c : Closing}
    (closed : closing first later = .ok c) (more : List Token) :
    closing first (later ++ more) = .ok { c with after := c.after ++ more } :=
  closingFrom_append closed more

-- Two ways to close a group, with the same relation between all their tokens.
structure Closing.Related (R : Token → Token → Prop) (c d : Closing) : Prop where
  before : List.Forall₂ R c.before d.before
  closer : R c.closer d.closer
  after : List.Forall₂ R c.after d.after

theorem Closing.Related.within {R : Token → Token → Prop} {a b : Token} {c d : Closing}
    (related : c.Related R d) (same : R a b) : (c.within a).Related R (d.within b) :=
  ⟨.cons same related.before, related.closer, related.after⟩

-- A group is closed by the kinds of its tokens alone.
theorem closingFrom_related {R : Token → Token → Prop} (kinds : ∀ {a b}, R a b → a.kind = b.kind)
    {first other : Token} {waiting : List Kind} {tokens others : List Token} {c : Closing}
    (alike : List.Forall₂ R tokens others) (closed : closingFrom first waiting tokens = .ok c) :
    ∃ d, closingFrom other waiting others = .ok d ∧ c.Related R d := by
  induction alike generalizing waiting c with
  | nil => cases closed
  | @cons a b tokens others same rest ih =>
    unfold closingFrom at closed ⊢
    rw [← kinds same]
    split at closed
    · obtain ⟨d, inner, rfl⟩ := exists_of_map_ok closed
      obtain ⟨e, found, related⟩ := ih inner
      exact ⟨e.within b, by rw [found]; rfl, related.within same⟩
    · split at closed
      · rename_i closes
        rw [if_pos closes]
        split at closed
        · cases closed
        · rename_i due outer
          split at closed
          · cases closed
          · rename_i matching
            split at closed
            · rename_i last
              cases closed
              exact ⟨⟨[], b, others⟩, by rw [if_neg matching, if_pos last], .nil, same, rest⟩
            · rename_i last
              obtain ⟨d, inner, rfl⟩ := exists_of_map_ok closed
              obtain ⟨e, found, related⟩ := ih inner
              exact ⟨e.within b, by rw [if_neg matching, if_neg last, found]; rfl,
                related.within same⟩
      · rename_i closes
        rw [if_neg closes]
        obtain ⟨d, inner, rfl⟩ := exists_of_map_ok closed
        obtain ⟨e, found, related⟩ := ih inner
        exact ⟨e.within b, by rw [found]; rfl, related.within same⟩

theorem closing_related {R : Token → Token → Prop} (kinds : ∀ {a b}, R a b → a.kind = b.kind)
    {first other : Token} {later others : List Token} {c : Closing} (same : R first other)
    (alike : List.Forall₂ R later others) (closed : closing first later = .ok c) :
    ∃ d, closing other others = .ok d ∧ c.Related R d :=
  closingFrom_related kinds (.cons same alike) closed

abbrev SameKinds := List.Forall₂ fun a b : Token => a.kind = b.kind

theorem closing_kinds {first other : Token} {later others : List Token} {c : Closing}
    (same : first.kind = other.kind) (alike : SameKinds later others)
    (closed : closing first later = .ok c) :
    ∃ d, closing other others = .ok d ∧ SameKinds c.after d.after := by
  obtain ⟨d, found, related⟩ := closing_related (fun same => same) same alike closed
  exact ⟨d, found, related.after⟩

theorem Kind.isDoc_iff {k : Kind} : k.isDoc ↔ k = .docLine ∨ k = .docBlock := by
  cases k <;> decide

-- What may stand in front of `trait` or `impl`, and these words themselves.
inductive Heading : List Token → Prop where
  | word {token : Token} {later : List Token} :
      token.kind = .traitWord ∨ token.kind = .implWord → Heading (token :: later)
  | skipped {token : Token} {later : List Token} : token.kind.isDoc ∨ token.kind = .unsafeWord →
      Heading later → Heading (token :: later)
  | attributed {hash bracket : Token} {rest : List Token} {group : Closing} : hash.kind = .hash →
      bracket.kind = .openSquare → closing bracket rest = .ok group → Heading group.after →
      Heading (hash :: bracket :: rest)
  | bare {token next : Token} {later : List Token} : token.kind = .pubWord →
      next.kind ≠ .openRound → Heading (next :: later) → Heading (token :: next :: later)
  | enclosed {token bracket : Token} {rest : List Token} {group : Closing} : token.kind = .pubWord →
      bracket.kind = .openRound → closing bracket rest = .ok group → Heading group.after →
      Heading (token :: bracket :: rest)

theorem heading_of_checkTarget {text : String} {tokens : List Token}
    (accepted : checkTarget text tokens = .ok ()) : Heading tokens := by
  fun_induction checkTarget text tokens with
  | case1 => cases accepted
  | case2 token later doc ih => exact .skipped (.inl (by rw [doc]; rfl)) (ih accepted)
  | case3 token later doc ih => exact .skipped (.inl (by rw [doc]; rfl)) (ih accepted)
  | case4 token later word ih => exact .skipped (.inr word) (ih accepted)
  | case5 token later word => exact .word (.inl word)
  | case6 token later word => exact .word (.inr word)
  | case7 => cases accepted
  | case8 token hash second rest square group closed ih =>
    exact .attributed hash square closed (ih accepted)
  | case9 => cases accepted
  | case10 => cases accepted
  | case11 token word ih => cases ih accepted
  | case12 token word second rest round group closed ih =>
    exact .enclosed word round closed (ih accepted)
  | case13 => cases accepted
  | case14 token word second rest round ih => exact .bare word round (ih accepted)
  | case15 => cases accepted

theorem checkTarget_of_heading {tokens : List Token} (headed : Heading tokens) (text : String) :
    checkTarget text tokens = .ok () := by
  induction headed with
  | word word => rcases word with word | word <;> simp only [checkTarget.eq_def, word]
  | @skipped token later skip _ ih =>
    rw [checkTarget.eq_def]
    rw [Kind.isDoc_iff] at skip
    rcases skip with (line | block) | word
    · simp only [line, ih]
    · simp only [block, ih]
    · simp only [word, ih]
  | attributed hash square closed _ ih =>
    rw [checkTarget.eq_def]
    simp only [hash, square, if_true]
    split
    · rename_i found; rw [closed] at found; cases found; exact ih
    · rename_i found; rw [closed] at found; cases found
  | bare word round _ ih =>
    rw [checkTarget.eq_def]
    simp only [word, round, if_false]
    exact ih
  | enclosed word round closed _ ih =>
    rw [checkTarget.eq_def]
    simp only [word, round, if_true]
    split
    · rename_i found; rw [closed] at found; cases found; exact ih
    · rename_i found; rw [closed] at found; cases found

theorem Heading.append {tokens : List Token} (headed : Heading tokens) (more : List Token) :
    Heading (tokens ++ more) := by
  induction headed with
  | word word => exact .word word
  | skipped skip _ ih => exact .skipped skip ih
  | attributed hash square closed _ ih => exact .attributed hash square (closing_append closed more) ih
  | bare word round _ ih => exact .bare word round ih
  | enclosed word round closed _ ih => exact .enclosed word round (closing_append closed more) ih

theorem Heading.of_kinds {tokens others : List Token} (headed : Heading tokens)
    (alike : SameKinds tokens others) : Heading others := by
  induction headed generalizing others with
  | word word =>
    cases alike with
    | cons same rest => exact .word (same ▸ word)
  | skipped skip _ ih =>
    cases alike with
    | cons same rest => exact .skipped (same ▸ skip) (ih rest)
  | attributed hash square closed _ ih =>
    cases alike with
    | cons same rest =>
      cases rest with
      | cons second rest =>
        obtain ⟨group, found, after⟩ := closing_kinds second rest closed
        exact .attributed (same ▸ hash) (second ▸ square) found (ih after)
  | bare word round _ ih =>
    cases alike with
    | cons same rest =>
      cases rest with
      | cons second rest => exact .bare (same ▸ word) (second ▸ round) (ih (.cons second rest))
  | enclosed word round closed _ ih =>
    cases alike with
    | cons same rest =>
      cases rest with
      | cons second rest =>
        obtain ⟨group, found, after⟩ := closing_kinds second rest closed
        exact .enclosed (same ▸ word) (second ▸ round) found (ih after)

theorem Heading.behind_attributes {text : String} {behind : Option Token} {tokens rest : List Token}
    {sites : List AttributeSite} (headed : Heading tokens)
    (led : leadingAttributes text behind tokens = .ok (sites, rest)) : Heading rest := by
  fun_induction leadingAttributes text behind tokens generalizing sites rest with
  | case1 => cases headed
  | case2 token later doc ih =>
    rw [Kind.isDoc_iff] at doc
    cases headed with
    | word word => rcases doc with doc | doc <;> simp [doc] at word
    | skipped _ later => exact ih later led
    | attributed hash _ _ _ => simp_all
    | bare word _ _ => simp_all
    | enclosed word _ _ _ => simp_all
  | case3 => cases led; exact headed
  | case4 => cases led
  | case5 => cases led
  | case6 token doc hash second rest' square group closed site found ih =>
    obtain ⟨pair, next, same⟩ := exists_of_map_ok led
    cases same
    cases headed with
    | word word => simp_all
    | skipped skip _ => simp_all
    | attributed _ _ same after =>
      rw [closed] at same
      cases same
      exact ih after next
    | bare word _ _ => simp_all
    | enclosed word _ _ _ => simp_all
  | case7 => cases led; exact headed
  | case8 => cases led; exact headed

theorem takeItem_keyword {found : ItemKeyword} {tokens : List Token} {s : Stretch}
    (taken : takeItem (some found) tokens = .ok s) : s.keyword = some found := by
  generalize start : some found = known at taken
  fun_induction takeItem known tokens generalizing s with
  | case1 => cases taken; rfl
  | case2 => cases taken; rfl
  | case3 => cases taken
  | case4 => cases taken; rfl
  | case5 known token later semicolon opener group closed own ends =>
    rename_i ih
    obtain ⟨r, inner, rfl⟩ := exists_of_map_ok taken
    have same := ih start inner
    exact same
  | case6 token later semicolon opener keyword ih =>
    obtain ⟨r, inner, rfl⟩ := exists_of_map_ok taken
    have same := ih start inner
    exact same
  | case7 => cases start
  | case8 => cases start

-- The tokens in front of `trait` or `impl` do not tell what an item is.
theorem takeItem_pass {token : Token} {later : List Token} {s : Stretch}
    (passed : token.kind ∈ [.docLine, .docBlock, .unsafeWord, .hash, .pubWord])
    (taken : takeItem none (token :: later) = .ok s) :
    ∃ r, takeItem none later = .ok r ∧ r.keyword = s.keyword := by
  have inner : token.kind ≠ .semicolon := by intro same; simp [same] at passed
  have flat : ¬token.kind.isOpener := by
    intro opener
    cases kind : token.kind <;> simp [kind, Kind.isOpener, Kind.closer?] at passed opener
  have silent : ItemKeyword.of? token later = none := by
    cases kind : token.kind <;> simp [kind, ItemKeyword.of?] at passed ⊢
  rw [takeItem, if_neg inner, if_neg flat, silent] at taken
  obtain ⟨r, rest, rfl⟩ := exists_of_map_ok taken
  exact ⟨r, rest, rfl⟩

theorem takeItem_group {token : Token} {later : List Token} {group : Closing} {s : Stretch}
    (opens : token.kind = .openSquare ∨ token.kind = .openRound)
    (closed : closing token later = .ok group) (taken : takeItem none (token :: later) = .ok s) :
    ∃ r, takeItem none group.after = .ok r ∧ r.keyword = s.keyword := by
  have inner : token.kind ≠ .semicolon := by rcases opens with same | same <;> simp [same]
  have opener : token.kind.isOpener := by rcases opens with same | same <;> rw [same] <;> rfl
  have flat : token.kind ≠ .openCurly := by rcases opens with same | same <;> simp [same]
  rw [takeItem, if_neg inner, if_pos opener] at taken
  split at taken
  · cases taken
  · rename_i found same
    rw [closed] at same
    cases same
    simp only [flat, decide_false, Bool.false_and, Bool.false_eq_true, if_false] at taken
    obtain ⟨r, rest, rfl⟩ := exists_of_map_ok taken
    exact ⟨r, rest, rfl⟩

theorem takeItem_word {token : Token} {later : List Token} {s : Stretch} {keyword : ItemKeyword}
    (inner : token.kind ≠ .semicolon) (flat : ¬token.kind.isOpener)
    (meant : ItemKeyword.of? token later = some keyword)
    (taken : takeItem none (token :: later) = .ok s) : s.keyword = some keyword := by
  rw [takeItem, if_neg inner, if_neg flat, meant] at taken
  obtain ⟨r, rest, rfl⟩ := exists_of_map_ok taken
  have same := takeItem_keyword rest
  exact same

theorem Heading.keyword {tokens : List Token} {s : Stretch} (headed : Heading tokens)
    (taken : takeItem none tokens = .ok s) :
    s.keyword = some .contract ∨ s.keyword = some .implementation := by
  induction headed generalizing s with
  | word word =>
    rcases word with word | word
    · refine .inl (takeItem_word ?_ ?_ ?_ taken)
      all_goals simp [word, Kind.isOpener, Kind.closer?, ItemKeyword.of?]
    · refine .inr (takeItem_word ?_ ?_ ?_ taken)
      all_goals simp [word, Kind.isOpener, Kind.closer?, ItemKeyword.of?]
  | skipped skip _ ih =>
    rw [Kind.isDoc_iff] at skip
    obtain ⟨r, rest, same⟩ := takeItem_pass (by simp; tauto) taken
    exact same ▸ ih rest
  | attributed hash square closed _ ih =>
    obtain ⟨r, rest, same⟩ := takeItem_pass (by simp [hash]) taken
    obtain ⟨q, behind, also⟩ := takeItem_group (.inl square) closed rest
    exact same ▸ also ▸ ih behind
  | bare word round _ ih =>
    obtain ⟨r, rest, same⟩ := takeItem_pass (by simp [word]) taken
    exact same ▸ ih rest
  | enclosed word round closed _ ih =>
    obtain ⟨r, rest, same⟩ := takeItem_pass (by simp [word]) taken
    obtain ⟨q, behind, also⟩ := takeItem_group (.inr round) closed rest
    exact same ▸ also ▸ ih behind

end Deasync
