import Deasync.Proofs.Grammar.Respelling
import Deasync.Proofs.Grammar.TypeWalk

namespace Deasync

open Grammar

namespace Spot

def isTyped : Spot → Bool
  | typed _ _ => true
  | _ => false

def last? : Spot → Option Last
  | typed _ last => some last
  | _ => none

end Spot

-- A comma is left out in front of the bracket that closes a list.
def commaChange (closer : Kind) (roles : List Role) : Change Spot where
  head := closer
  more := none
  old := [.comma, closer]
  mark
    | .typed role last => role ∈ roles ∧ last ∈ Spot.ending
    | _ => false
  inner _ := false

def roundComma : Change Spot := commaChange .closeRound [.call, .tuple]

def angleComma : Change Spot := commaChange .greater [.angled]

def joinChange : Change Spot where
  head := .ampersands
  more := none
  old := [.ampersand, .ampersand]
  mark := Spot.isTyped
  inner _ := false

def splitChange : Change Spot where
  head := .ampersand
  more := some .ampersand
  old := [.ampersands]
  mark := Spot.isTyped
  inner spot := spot.last? = some .reference

def turbofishChange : Change Spot where
  head := .pathSep
  more := some .less
  old := [.less]
  mark := Spot.isTyped
  inner spot := spot.last? = some .separator

def typeChanges : List (Change Spot) :=
  [roundComma, angleComma, joinChange, splitChange, turbofishChange]

-- All right-hand sides but the given ones are without seams.
def Change.passes (ch : Change Spot) (but : List (Nonterminal × List (Sym Nonterminal)))
    (n : Nonterminal) : Bool :=
  (declarations.alternatives n).all fun rhs => (n, rhs) ∈ but ∨
    (Spot.contract.entries n).all (ch.unseamed Spot.contract Spot.move declarationGuide rhs)

def tupleSymbols : List (Sym Nonterminal) :=
  [.tok [.openRound], .ref .type, .tok [.comma], .ref .typeList, .tok [.closeRound]]

def callSymbols : List (Sym Nonterminal) :=
  [.tok [.ident], .tok [.openRound], .maybe (.ref .typeList), .tok [.closeRound],
   .maybe (.ref .plainOutput)]

def argsSymbols : List (Sym Nonterminal) :=
  [.tok [.less], .ref .genericArgList, .tok [.greater]]

def referenceSymbols (k : Kind) : List (Sym Nonterminal) :=
  [.tok [k], .maybe (.tok [.lifetime]), .maybe (.tok [.mutWord]), .ref .type]

def turbofishSymbols : List (Sym Nonterminal) :=
  [.tok [.ident, .selfWord], .tok [.pathSep], .ref .genericArgs]

theorem roundComma_passes (n : Nonterminal) :
    roundComma.passes [(.plainType, tupleSymbols), (.segment, callSymbols)] n := by
  cases n <;> decide +kernel

theorem angleComma_passes (n : Nonterminal) : angleComma.passes [(.genericArgs, argsSymbols)] n := by
  cases n <;> decide +kernel

theorem joinChange_passes (n : Nonterminal) :
    joinChange.passes [(.plainType, referenceSymbols .ampersands)] n := by
  cases n <;> decide +kernel

theorem splitChange_passes (n : Nonterminal) :
    splitChange.passes [(.plainType, referenceSymbols .ampersand)] n := by
  cases n <;> decide +kernel

theorem turbofishChange_passes (n : Nonterminal) :
    turbofishChange.passes [(.segment, turbofishSymbols)] n := by
  cases n <;> decide +kernel

section

variable {ch : Change Spot} {but : List (Nonterminal × List (Sym Nonterminal))}

theorem Change.resolves_of_passes (passes : ∀ n, ch.passes but n)
    (special : ∀ n rhs, (n, rhs) ∈ but → ∀ entry p q place, walk Spot.move entry p = some place →
      ch.mark place.1 → ch.Seam declarations rhs p q → declarations.Spells n (p ++ ch.old ++ q))
    (n : Nonterminal) (rhs : List (Sym Nonterminal)) (listed : rhs ∈ declarations.alternatives n)
    (entry : Place Spot) (accepted : entry ∈ Spot.contract.entries n) (p q : List Kind)
    (place : Place Spot) (walked : walk Spot.move entry p = some place) (marked : ch.mark place.1)
    (seam : ch.Seam declarations rhs p q) : declarations.Spells n (p ++ ch.old ++ q) := by
  rcases of_decide_eq_true (List.all_eq_true.mp (passes n) rhs listed) with excepted | free
  · exact special n rhs excepted entry p q place walked marked seam
  · exact absurd seam (Change.unseamed_sound Spot.contract_kept declarationGuide_right
      (List.all_eq_true.mp free entry accepted) walked marked)

end

-- The places in a right-hand side where the head of the new kinds is read.
def Change.readers (ch : Change Spot) (rhs : List (Sym Nonterminal)) :
    List (List (Sym Nonterminal) × Sym Nonterminal × List (Sym Nonterminal)) :=
  (cuts rhs).filter fun cut => ch.head ∈ cut.2.1.toks

theorem Change.Seam.around {ch : Change Spot} {rhs f b : List (Sym Nonterminal)}
    {s : Sym Nonterminal} {p q : List Kind} (seam : ch.Seam declarations rhs p q)
    (only : ch.readers rhs = [(f, s, b)]) : declarations.SpellsAll f p ∧
      declarations.SpellsAll b (ch.more.toList ++ q) := by
  obtain ⟨front, s', back, rfl, listed, before, after⟩ := seam.found
  have located : (front, s', back) ∈ ch.readers (front ++ s' :: back) :=
    List.mem_filter.mpr ⟨mem_cuts front s' back, decide_eq_true listed⟩
  rw [only, List.mem_singleton] at located
  cases located
  exact ⟨before, after⟩

-- A comma may end a list that does not end with one.
theorem list_comma {n i : Nonterminal}
    (listed : declarations.alternatives n = [[.ref i, .tok [.comma], .ref n],
      [.ref i, .tok [.comma]], [.ref i]]) {ks : List Kind} (spelled : declarations.Spells n ks)
    (bare : ∀ ls, ks ≠ ls ++ [.comma]) : declarations.Spells n (ks ++ [.comma]) := by
  induction length : ks.length using Nat.strongRecOn generalizing ks with
  | ind most ih =>
    obtain ⟨rhs, found, all⟩ := spells_iff_alternative.mp spelled
    rw [listed, List.mem_cons, List.mem_pair] at found
    rcases found with rfl | rfl | rfl
    · obtain ⟨first, rest, rfl, own, others⟩ := spellsAll_cons.mp all
      obtain ⟨ms, rfl, last⟩ := spellsAll_tok.mp others
      have unended : ∀ ls, ms ≠ ls ++ [.comma] := by
        rintro ls rfl
        exact bare (first ++ .comma :: ls) (by simp)
      have longer := ih ms.length (by simp at length; omega) (spellsAll_ref_one.mp last) unended rfl
      rw [List.append_assoc]
      refine spells_iff_alternative.mpr ⟨_, by rw [listed]; exact .head _, .cons own ?_⟩
      exact spellsAll_tok.mpr ⟨ms ++ [.comma], rfl, spellsAll_ref_one.mpr longer⟩
    · obtain ⟨first, rest, rfl, own, others⟩ := spellsAll_cons.mp all
      obtain ⟨ms, rfl, void⟩ := spellsAll_tok.mp others
      obtain rfl := spellsAll_nil.mp void
      exact absurd rfl (bare first)
    · have only := spellsAll_ref_one.mp all
      refine spells_iff_alternative.mpr
        ⟨_, by rw [listed]; exact .tail _ (.head _), .cons (.ref only) ?_⟩
      exact spellsAll_tok.mpr ⟨[], rfl, .nil⟩

theorem comma_step {closer : Kind} {roles : List Role} {place next : Place Spot}
    (stepped : walkStep Spot.move place .comma = some next) :
    ¬(commaChange closer roles).mark next.1 := by
  obtain ⟨spot, stack⟩ := place
  cases spot with
  | typed role last => cases role <;> cases stepped <;> simp [commaChange, Spot.ending]
  | _ => cases stepped; simp [commaChange]

-- What stands in front of a bracket where a comma was left out does not end with one.
theorem ends_bare {closer : Kind} {roles : List Role} {entry place : Place Spot} {ks ls : List Kind}
    (walked : walk Spot.move entry (ks ++ ls) = some place)
    (marked : (commaChange closer roles).mark place.1) (ms : List Kind) : ls ≠ ms ++ [.comma] := by
  rintro rfl
  rw [← List.append_assoc] at walked
  obtain ⟨next, _, ended⟩ := walk_prefix walked
  obtain ⟨last, stepped, same⟩ := Option.bind_eq_some_iff.mp ended
  cases same
  exact comma_step stepped marked

-- Nor is it empty.
theorem call_filled {entry place : Place Spot}
    (walked : walk Spot.move entry [.ident, .openRound] = some place) :
    ¬roundComma.mark place.1 := by
  obtain ⟨spot, stack⟩ := entry
  cases spot <;> cases walked <;> simp [roundComma, commaChange, Spot.ending]

theorem roundComma_sound : roundComma.Sound declarations Spot.contract Spot.move where
  between wide := by cases wide
  never wide := by cases wide
  resolves := by
    apply Change.resolves_of_passes roundComma_passes
    intro n rhs excepted entry p q place walked marked seam
    have closes : declarations.SpellsAll [.tok [.closeRound]] [.closeRound] :=
      spellsAll_tok.mpr ⟨[], rfl, .nil⟩
    have comma {ks ls : List Kind} (walked : walk Spot.move entry (ks ++ ls) = some place)
        (list : declarations.Spells .typeList ls) : declarations.Spells .typeList (ls ++ [.comma]) :=
      list_comma (i := .type) rfl list (ends_bare walked marked)
    rcases List.mem_pair.mp excepted with same | same
    · obtain ⟨rfl, rfl⟩ := Prod.mk.inj same
      obtain ⟨before, after⟩ := seam.around
        (f := [.tok [.openRound], .ref .type, .tok [.comma]] ++ [.ref .typeList]) rfl
      obtain rfl := spellsAll_nil.mp after
      obtain ⟨ls, ms, rfl, front, list⟩ := before.split
      have longer := comma walked (spellsAll_ref_one.mp list)
      have kinds : ls ++ ms ++ roundComma.old ++ [] = ls ++ (ms ++ [.comma]) ++ [.closeRound] := by
        simp [roundComma, commaChange]
      rw [kinds]
      exact spells_iff_alternative.mpr ⟨tupleSymbols, by decide,
        (front.append (spellsAll_ref_one.mpr longer)).append closes⟩
    · obtain ⟨rfl, rfl⟩ := Prod.mk.inj same
      obtain ⟨before, after⟩ := seam.around
        (f := [.tok [.ident], .tok [.openRound]] ++ [.maybe (.ref .typeList)]) rfl
      obtain ⟨ls, ms, rfl, front, list⟩ := before.split
      obtain ⟨ms, none, rfl, inputs, void⟩ := spellsAll_cons.mp list
      obtain rfl := spellsAll_nil.mp void
      rw [List.append_nil] at walked ⊢
      rcases spellsSym_maybe.mp inputs with rfl | inputs
      · obtain ⟨ks, rfl, rest⟩ := spellsAll_tok.mp front
        obtain ⟨none, rfl, void⟩ := spellsAll_tok.mp rest
        obtain rfl := spellsAll_nil.mp void
        exact absurd marked (call_filled walked)
      · have longer := comma walked (spellsSym_ref.mp inputs)
        have kinds : ls ++ ms ++ roundComma.old ++ q =
            ls ++ (ms ++ [.comma]) ++ ([.closeRound] ++ q) := by
          simp [roundComma, commaChange]
        rw [kinds]
        exact spells_iff_alternative.mpr ⟨callSymbols, by decide,
          (front.append (spellsAll_maybe_one longer)).append (closes.append after)⟩

theorem angleComma_sound : angleComma.Sound declarations Spot.contract Spot.move where
  between wide := by cases wide
  never wide := by cases wide
  resolves := by
    apply Change.resolves_of_passes angleComma_passes
    intro n rhs excepted entry p q place walked marked seam
    obtain ⟨rfl, rfl⟩ := Prod.mk.inj (List.mem_singleton.mp excepted)
    obtain ⟨before, after⟩ := seam.around (f := [.tok [.less]] ++ [.ref .genericArgList]) rfl
    obtain rfl := spellsAll_nil.mp after
    obtain ⟨ls, ms, rfl, front, list⟩ := before.split
    have longer := list_comma (i := .genericArg) rfl (spellsAll_ref_one.mp list)
      (ends_bare walked marked)
    have kinds : ls ++ ms ++ angleComma.old ++ [] = ls ++ (ms ++ [.comma]) ++ [.greater] := by
      simp [angleComma, commaChange]
    rw [kinds]
    exact spells_iff_alternative.mpr ⟨argsSymbols, by decide,
      (front.append (spellsAll_ref_one.mpr longer)).append (spellsAll_tok.mpr ⟨[], rfl, .nil⟩)⟩

-- What follows the ampersand of a reference.
def referredSymbols : List (Sym Nonterminal) :=
  [.maybe (.tok [.lifetime]), .maybe (.tok [.mutWord]), .ref .type]

theorem reference_spelled {ks : List Kind} (spelled : declarations.SpellsAll referredSymbols ks) :
    declarations.Spells .plainType (.ampersand :: ks) :=
  spells_iff_alternative.mpr
    ⟨referenceSymbols .ampersand, by decide, spellsAll_tok.mpr ⟨ks, rfl, spelled⟩⟩

theorem type_of_plainType {ks : List Kind} (spelled : declarations.Spells .plainType ks) :
    declarations.Spells .type ks :=
  spells_iff_alternative.mpr ⟨[.ref .plainType], by decide, spellsAll_ref_one.mpr spelled⟩

theorem referred_of_type {ks : List Kind} (spelled : declarations.Spells .type ks) :
    declarations.SpellsAll referredSymbols ks :=
  .cons .absent (.cons .absent (spellsAll_ref_one.mpr spelled))

-- Behind an ampersand another one begins a type of its own.
theorem referred_reference {ks : List Kind}
    (spelled : declarations.SpellsAll referredSymbols (.ampersand :: ks)) :
    declarations.SpellsAll referredSymbols ks := by
  have absent {k : Kind} {rest : List (Sym Nonterminal)} (other : k ≠ .ampersand)
      (spelled : declarations.SpellsAll (.maybe (.tok [k]) :: rest) (.ampersand :: ks)) :
      declarations.SpellsAll rest (.ampersand :: ks) := by
    obtain ⟨ls, ms, same, first, later⟩ := spellsAll_cons.mp spelled
    rcases spellsSym_maybe.mp first with rfl | present
    · rw [List.nil_append] at same
      rwa [same]
    · obtain ⟨l, fits, rfl⟩ := spellsSym_tok.mp present
      cases List.mem_singleton.mp fits
      cases same
      exact absurd rfl other
  have type := spellsAll_ref_one.mp (absent (by decide) (absent (by decide) spelled))
  obtain ⟨rhs, listed, all⟩ := Guide.spells_by_first declarationGuide_right
    (r := [[.ref .plainType]]) (by decide) type
  obtain rfl := List.mem_singleton.mp listed
  obtain ⟨rhs, listed, all⟩ := Guide.spells_by_first declarationGuide_right
    (r := [referenceSymbols .ampersand]) (by decide) (spellsAll_ref_one.mp all)
  obtain rfl := List.mem_singleton.mp listed
  obtain ⟨ls, same, rest⟩ := spellsAll_tok.mp all
  cases same
  exact rest

theorem joinChange_sound : joinChange.Sound declarations Spot.contract Spot.move where
  between wide := by cases wide
  never wide := by cases wide
  resolves := by
    apply Change.resolves_of_passes joinChange_passes
    intro n rhs excepted entry p q place walked marked seam
    obtain ⟨rfl, rfl⟩ := Prod.mk.inj (List.mem_singleton.mp excepted)
    obtain ⟨before, after⟩ := seam.around (f := []) (b := referredSymbols) rfl
    obtain rfl := spellsAll_nil.mp before
    exact reference_spelled (referred_of_type (type_of_plainType (reference_spelled after)))

theorem splitChange_sound : splitChange.Sound declarations Spot.contract Spot.move where
  between := by
    rintro - ⟨spot, stack⟩ next marked stepped
    cases spot <;> cases marked
    cases stepped
    rfl
  never := by
    intro _ n entry accepted exit left
    have checked : (Spot.contract.entries n).all fun entry => (Spot.contract.exits n entry).all
        fun exit => !splitChange.inner exit.1 := by
      cases n <;> decide +kernel
    have free := List.all_eq_true.mp (List.all_eq_true.mp checked entry accepted) exit left
    simpa using free
  resolves := by
    apply Change.resolves_of_passes splitChange_passes
    intro n rhs excepted entry p q place walked marked seam
    obtain ⟨rfl, rfl⟩ := Prod.mk.inj (List.mem_singleton.mp excepted)
    obtain ⟨before, after⟩ := seam.around (f := []) (b := referredSymbols) rfl
    obtain rfl := spellsAll_nil.mp before
    exact spells_iff_alternative.mpr ⟨referenceSymbols .ampersands, by decide,
      spellsAll_tok.mpr ⟨q, rfl, referred_reference after⟩⟩

theorem turbofishChange_sound : turbofishChange.Sound declarations Spot.contract Spot.move where
  between := by
    rintro - ⟨spot, stack⟩ next marked stepped
    cases spot <;> cases marked
    cases stepped
    rfl
  never := by
    intro _ n entry accepted exit left
    have checked : (Spot.contract.entries n).all fun entry => (Spot.contract.exits n entry).all
        fun exit => !turbofishChange.inner exit.1 := by
      cases n <;> decide +kernel
    have free := List.all_eq_true.mp (List.all_eq_true.mp checked entry accepted) exit left
    simpa using free
  resolves := by
    apply Change.resolves_of_passes turbofishChange_passes
    intro n rhs excepted entry p q place walked marked seam
    obtain ⟨rfl, rfl⟩ := Prod.mk.inj (List.mem_singleton.mp excepted)
    obtain ⟨before, after⟩ := seam.around (f := [.tok [.ident, .selfWord]])
      (b := [.ref .genericArgs]) rfl
    rw [List.append_assoc]
    exact spells_iff_alternative.mpr ⟨[.tok [.ident, .selfWord], .maybe (.ref .genericArgs)], by decide,
      before.append (spellsAll_maybe_one (spellsAll_ref_one.mp after))⟩

theorem typeChanges_sound :
    ∀ ch ∈ typeChanges, ch.Sound declarations Spot.contract Spot.move := by
  simp only [typeChanges, List.forall_mem_cons, List.not_mem_nil, false_imp_iff, implies_true, and_true]
  exact ⟨roundComma_sound, angleComma_sound, joinChange_sound, splitChange_sound, turbofishChange_sound⟩

end Deasync
