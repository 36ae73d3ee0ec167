import Deasync.Grammar.Rules
import Deasync.Proofs.Grammar.Charting
import Deasync.Proofs.Grammar.Contract
import Deasync.Proofs.Heading

namespace Deasync

open Grammar

def Nonterminal.isEmpty (n : Nonterminal) : Bool := n = .outerAttributes

theorem declarations_ranked : declarations.Ranked Nonterminal.isEmpty where
  empties := by
    intro n
    cases n <;> decide
  descends := by
    intro n
    cases n <;> decide

def delimiterMove (_ : Unit) (k : Kind) : Move Unit :=
  match k.closer? with
  | some closer => .enter closer () ()
  | none => if k.isCloser then .leave else .stay ()

-- The delimiter that a nonterminal ends with, when it is not the one that began the group.
def Nonterminal.closer? : Nonterminal → Option Kind
  | .roundRest => some .closeRound
  | .squareRest => some .closeSquare
  | .curlyRest | .members => some .closeCurly
  | _ => none

def delimiters : Contract Nonterminal Unit where
  depth n := if n.closer?.isSome then 1 else 0
  entries n := [((), n.closer?.toList.map (·, ()))]
  exits _ _ := [((), [])]

theorem delimiters_checked (n : Nonterminal) : delimiters.checks delimiterMove declarations n := by
  cases n <;> decide +kernel

def Balanced (ks : List Kind) : Prop := walk delimiterMove ((), []) ks = some ((), [])

theorem Balanced.append {ks ls : List Kind} (first : Balanced ks) (second : Balanced ls) :
    Balanced (ks ++ ls) := by
  unfold Balanced
  rw [walk_append, first]
  exact second

theorem balanced_of_spells {n : Nonterminal} {ks : List Kind} (plain : n.closer? = none)
    (spelled : declarations.Spells n ks) : Balanced ks := by
  obtain ⟨place, found, walked⟩ := Contract.walks delimiters_checked spelled ((), [])
    (by simp [delimiters, plain])
  obtain rfl := List.mem_singleton.mp found
  exact walked

theorem map_prepend {result : Except Fault Closing} {t : Token} {w : List Token} :
    (result.map fun c => { c with before := w ++ c.before }).map (.within t) =
      result.map fun c => { c with before := t :: w ++ c.before } := by
  cases result <;> rfl

-- Balanced tokens belong to the group that is open around them.
theorem closingFrom_walk (first : Token) {w : List Token} {stack left : List (Kind × Unit)}
    (walked : walk delimiterMove ((), stack) (kindsOf w) = some ((), left)) {waiting : List Kind}
    (filled : waiting ≠ []) (more : List Token) :
    closingFrom first (stack.map Prod.fst ++ waiting) (w ++ more) =
      (closingFrom first (left.map Prod.fst ++ waiting) more).map fun c =>
        { c with before := w ++ c.before } := by
  induction w generalizing stack with
  | nil =>
    cases walked
    rw [List.nil_append]
    cases closingFrom first (left.map Prod.fst ++ waiting) more <;> rfl
  | cons t w ih =>
    rw [kindsOf_cons, walk] at walked
    obtain ⟨⟨_, middle⟩, stepped, rest⟩ := Option.bind_eq_some_iff.mp walked
    have later := ih rest
    rw [List.cons_append, closingFrom.eq_def]
    simp only [walkStep, delimiterMove] at stepped
    cases opens : t.kind.closer? with
    | some closer =>
      simp only [opens] at stepped ⊢
      cases stepped
      rw [← map_prepend, ← later]
      rfl
    | none =>
      simp only [opens] at stepped ⊢
      by_cases closes : t.kind.isCloser
      · simp only [closes, if_true] at stepped ⊢
        cases stack with
        | nil => cases stepped
        | cons frame stack =>
          obtain ⟨closer, _⟩ := frame
          dsimp only at stepped
          split at stepped
          · rename_i same
            cases stepped
            have outer : (List.map Prod.fst middle ++ waiting).isEmpty = false := by
              simp [filled]
            simp only [List.map_cons, List.cons_append, same, ne_eq, not_true, if_false, outer,
              Bool.false_eq_true]
            rw [later, map_prepend]
            rfl
          · cases stepped
      · simp only [closes, if_false, Bool.false_eq_true] at stepped ⊢
        cases stepped
        rw [← map_prepend, ← later]

-- The rests of token trees, with the delimiters that end them.
def rests : List (Nonterminal × Kind) :=
  [(.roundRest, .closeRound), (.squareRest, .closeSquare), (.curlyRest, .closeCurly)]

theorem rest_alternatives {n : Nonterminal} {k : Kind} (rest : (n, k) ∈ rests) :
    declarations.alternatives n = [[.tok [k]], [.ref .tree, .ref n]] := by
  simp only [rests, List.mem_cons, Prod.mk.injEq, List.not_mem_nil, or_false] at rest
  rcases rest with ⟨rfl, rfl⟩ | ⟨rfl, rfl⟩ | ⟨rfl, rfl⟩ <;> rfl

theorem spells_ne_nil {n : Nonterminal} {ks : List Kind} (filled : n ≠ .outerAttributes)
    (spelled : declarations.Spells n ks) : ks ≠ [] := by
  intro void
  exact filled (of_decide_eq_true (spelled.nullable declarations_ranked void))

theorem spells_length_pos {n : Nonterminal} {w : List Token} (filled : n ≠ .outerAttributes)
    (spelled : declarations.Spells n (kindsOf w)) : 0 < w.length := by
  have nonempty := List.length_pos_iff.mpr (spells_ne_nil filled spelled)
  rwa [kindsOf, List.length_map] at nonempty

theorem rest_split {n : Nonterminal} {k : Kind} (rest : (n, k) ∈ rests) {ks : List Kind}
    (spelled : declarations.Spells n ks) : ∃ body, ks = body ++ [k] ∧ Balanced body := by
  -- on the number of tokens: each tree takes at least one
  induction length : ks.length using Nat.strongRecOn generalizing ks with
  | ind most ih =>
    obtain ⟨rhs, listed, all⟩ := spells_iff_alternative.mp spelled
    rw [rest_alternatives rest, List.mem_pair] at listed
    rcases listed with rfl | rfl
    · obtain ⟨ls, ms, rfl, one, none⟩ := spellsAll_cons.mp all
      obtain ⟨k', fits, rfl⟩ := spellsSym_tok.mp one
      obtain rfl := List.mem_singleton.mp fits
      obtain rfl := spellsAll_nil.mp none
      exact ⟨[], rfl, rfl⟩
    · obtain ⟨ls, ms, rfl, tree, all⟩ := spellsAll_cons.mp all
      obtain ⟨ms, none, rfl, later, empty⟩ := spellsAll_cons.mp all
      obtain rfl := spellsAll_nil.mp empty
      have tree := spellsSym_ref.mp tree
      have filled := List.length_pos_iff.mpr (spells_ne_nil (by decide) tree)
      simp only [List.append_nil, List.length_append] at length ⊢
      obtain ⟨body, rfl, balanced⟩ := ih ms.length (by omega) (spellsSym_ref.mp later) rfl
      exact ⟨ls ++ body, by rw [List.append_assoc], (balanced_of_spells rfl tree).append balanced⟩

theorem closingFrom_closer {first closer : Token} {k : Kind} (closes : k.isCloser)
    (same : closer.kind = k) (more : List Token) :
    closingFrom first [k] (closer :: more) = .ok ⟨[], closer, more⟩ := by
  subst same
  have flat : closer.kind.closer? = none := by
    cases kind : closer.kind <;> rw [kind] at closes <;> first | rfl | cases closes
  rw [closingFrom.eq_def]
  simp [flat, closes]

-- A group of the grammar is a group for `closing`.
theorem closing_group {n : Nonterminal} {opener : Token} {k : Kind} {w : List Token}
    (rest : (n, k) ∈ rests) (opens : opener.kind.closer? = some k)
    (spelled : declarations.Spells n (kindsOf w)) (more : List Token) :
    ∃ group, closing opener (w ++ more) = .ok group ∧ group.after = more := by
  obtain ⟨body, same, balanced⟩ := rest_split rest spelled
  obtain ⟨inner, last, rfl, rfl, only⟩ := kindsOf_split same.symm
  obtain ⟨closer, rfl, ends⟩ := List.map_eq_singleton_iff.mp only.symm
  have closes : k.isCloser := by
    simp only [rests, List.mem_cons, Prod.mk.injEq, List.not_mem_nil, or_false] at rest
    rcases rest with ⟨_, rfl⟩ | ⟨_, rfl⟩ | ⟨_, rfl⟩ <;> rfl
  have inside : closingFrom opener [k] (inner ++ closer :: more) = .ok ⟨inner, closer, more⟩ := by
    have walked := closingFrom_walk opener balanced (List.cons_ne_nil k [])
      (closer :: more)
    rw [List.map_nil, List.nil_append, closingFrom_closer closes ends] at walked
    simpa [Except.map] using walked
  refine ⟨⟨opener :: inner, closer, more⟩, ?_, rfl⟩
  rw [closing, closingFrom.eq_def]
  simp only [opens, List.append_assoc, List.singleton_append, inside]
  rfl

theorem heading_attribute {w : List Token} (spelled : declarations.Spells .outerAttribute (kindsOf w))
    {more : List Token} (headed : Heading more) : Heading (w ++ more) := by
  obtain ⟨rhs, listed, all⟩ := spells_iff_alternative.mp spelled
  have either : rhs = [.tok [.docLine, .docBlock]] ∨
      rhs = [.tok [.hash], .tok [.openSquare], .ref .squareRest] := List.mem_pair.mp listed
  rcases either with rfl | rfl
  · obtain ⟨x, y, rfl, one, none⟩ := spellsAll_parts all
    obtain ⟨t, rfl, fits⟩ := spells_tok one
    obtain rfl := List.map_eq_nil_iff.mp (spellsAll_nil.mp none)
    exact .skipped (.inl (Kind.isDoc_iff.mpr (List.mem_pair.mp fits))) headed
  · obtain ⟨hash, u, rfl, isHash, brackets⟩ := spellsAll_one all
    obtain ⟨bracket, v, rfl, isBracket, rest⟩ := spellsAll_one brackets
    obtain ⟨group, closed, rfl⟩ := closing_group (k := .closeSquare) (by decide)
      (by rw [isBracket]; rfl) (spellsAll_last rest) more
    exact .attributed isHash isBracket closed headed

theorem heading_attributes {w : List Token}
    (spelled : declarations.Spells .outerAttributes (kindsOf w)) {more : List Token}
    (headed : Heading more) : Heading (w ++ more) := by
  induction length : w.length using Nat.strongRecOn generalizing w with
  | ind most ih =>
    obtain ⟨rhs, listed, all⟩ := spells_iff_alternative.mp spelled
    have either : rhs = [.ref .outerAttribute, .ref .outerAttributes] ∨ rhs = [] :=
      List.mem_pair.mp listed
    rcases either with rfl | rfl
    · obtain ⟨x, y, rfl, first, later⟩ := spellsAll_ref all
      have filled := spells_length_pos (by decide) first
      rw [List.length_append] at length
      rw [List.append_assoc]
      exact heading_attribute first (ih y.length (by omega) (spellsAll_last later) rfl)
    · obtain rfl := List.map_eq_nil_iff.mp (spellsAll_nil.mp all)
      exact headed

theorem heading_visibility {w : List Token} (spelled : declarations.Spells .visibility (kindsOf w))
    {next : Token} {more : List Token} (flat : next.kind ≠ .openRound)
    (headed : Heading (next :: more)) : Heading (w ++ next :: more) := by
  obtain ⟨rhs, listed, all⟩ := spells_iff_alternative.mp spelled
  obtain rfl : rhs = [.tok [.pubWord], .maybe (.ref .scope)] := List.mem_singleton.mp listed
  obtain ⟨token, u, rfl, isPub, scope⟩ := spellsAll_one all
  rcases spellsAll_maybe scope with none | ⟨x, y, rfl, own, none⟩
  · obtain rfl := List.map_eq_nil_iff.mp (spellsAll_nil.mp none)
    exact .bare isPub flat headed
  · obtain rfl := List.map_eq_nil_iff.mp (spellsAll_nil.mp none)
    obtain ⟨rhs, listed, all⟩ := spells_iff_alternative.mp (spellsSym_ref.mp own)
    obtain rfl : rhs = [.tok [.openRound], .ref .roundRest] := List.mem_singleton.mp listed
    obtain ⟨bracket, v, rfl, isBracket, rest⟩ := spellsAll_one all
    obtain ⟨group, closed, after⟩ := closing_group (k := .closeRound) (by decide)
      (by rw [isBracket]; rfl) (spellsAll_last rest) (next :: more)
    rw [List.append_nil]
    exact .enclosed isPub isBracket closed (after ▸ headed)

-- Behind the attributes and the visibility: `unsafe`, if it is there, and the word itself.
theorem heading_word {word : Kind} (isWord : word = .traitWord ∨ word = .implWord)
    {rest : List (Sym Nonterminal)} {w : List Token}
    (spelled : declarations.SpellsAll (.maybe (.tok [.unsafeWord]) :: .tok [word] :: rest) (kindsOf w)) :
    Heading w ∧ ∃ next more, w = next :: more ∧ next.kind ≠ .openRound := by
  have bare {u : List Token} (spelled : declarations.SpellsAll (.tok [word] :: rest) (kindsOf u)) :
      Heading u ∧ ∃ next more, u = next :: more ∧ next.kind ≠ .openRound := by
    obtain ⟨token, v, rfl, same, _⟩ := spellsAll_one spelled
    refine ⟨.word (same ▸ isWord), token, v, rfl, ?_⟩
    rcases isWord with rfl | rfl <;> simp [same]
  rcases spellsAll_maybe spelled with plain | ⟨x, y, rfl, isUnsafe, later⟩
  · exact bare plain
  · obtain ⟨token, rfl, fits⟩ := spells_tok isUnsafe
    have same := List.mem_singleton.mp fits
    exact ⟨.skipped (.inr same) (bare later).1, token, y, rfl, by simp [same]⟩

theorem heading_of_spells {w : List Token}
    (spelled : declarations.Spells .declaration (kindsOf w)) : Heading w := by
  obtain ⟨rhs, listed, all⟩ := spells_iff_alternative.mp spelled
  rcases List.mem_pair.mp listed with rfl | rfl
  · obtain ⟨x, y, rfl, attributes, later⟩ := spellsAll_ref all
    refine heading_attributes attributes ?_
    rcases spellsAll_maybe later with plain | ⟨u, v, rfl, visibility, later⟩
    · exact (heading_word (.inl rfl) plain).1
    · obtain ⟨headed, next, more, rfl, flat⟩ := heading_word (.inl rfl) later
      exact heading_visibility (spellsSym_ref.mp visibility) flat headed
  · obtain ⟨x, y, rfl, attributes, later⟩ := spellsAll_ref all
    exact heading_attributes attributes (heading_word (.inr rfl) later).1

end Deasync
