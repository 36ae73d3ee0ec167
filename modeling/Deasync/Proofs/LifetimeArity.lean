import Deasync.Proofs.Extents

namespace Deasync

open Grammar

-- Groups in parentheses, brackets and braces nest their angle brackets and have no lifetime behind a
-- comma outside of them, and outside of groups no lifetime follows an attribute or documentation.
-- `groups` counts the groups that are open, `angles` the angle brackets since the outermost began, and
-- `previous` is the kind in front.
def plain (groups angles : Nat) (previous : Kind) : List Kind → Bool
  | [] => true
  | k :: ks =>
    if k.isOpener then plain (groups + 1) angles k ks
    else if k.isCloser then (decide (1 < groups) || angles = 0) && plain (groups - 1) angles k ks
    else if groups = 0 then
      (k ≠ .lifetime || (previous ≠ .closeSquare && !previous.isDoc)) && plain 0 angles k ks
    else if k = .less then plain groups (angles + 1) k ks
    else if k = .greater then angles ≠ 0 && plain groups (angles - 1) k ks
    else (k ≠ .lifetime || angles ≠ 0 || previous ≠ .comma) && plain groups angles k ks

-- A list of generic parameters that the counter is not misled by.
def Plain (w : List Token) : Prop := plain 0 0 .less (kindsOf w)

instance (w : List Token) : Decidable (Plain w) := inferInstanceAs (Decidable (_ = true))

-- Where a token of a parameter stands: in front of the parameter, in the list itself, inside further
-- angle brackets, or in a group.
inductive Zone where
  | opened | flat | deep | group
  deriving Repr, DecidableEq

namespace Zone

def move : Zone → Kind → Move Zone
  | opened, k => if k ∈ [.hash, .docLine, .docBlock, .constWord, .ident] then .stay flat else .stop
  | flat, k =>
    match k.closer? with
    | some closer => .enter closer group flat
    | none =>
      if k.isCloser || k = .greater || k = .comma then .stop
      else if k = .less then .enter .greater deep flat
      else .stay flat
  | deep, k =>
    match k.closer? with
    | some closer => .enter closer group deep
    | none =>
      if k.isCloser || k = .greater then .leave
      else if k = .less then .enter .greater deep deep
      else .stay deep
  | group, k =>
    match k.closer? with
    | some closer => .enter closer group group
    | none => if k.isCloser then .leave else .stay group

-- Where a nonterminal is met in a list of generic parameters.
def entries : Nonterminal → List Zone
  | .outerAttribute => [opened, flat, deep, group]
  | .outerAttributes => [opened, flat, deep, group]
  | .tree | .constTree | .constTrees | .arrayLength => [group]
  | .typeList | .genericArg | .genericArgList | .genericParam | .genericParamList => [deep, group]
  | .delimited | .abi | .lifetimeBounds | .colonLifetimes | .constValue | .equalsConst | .genericArgs
  | .segment | .pathTail | .path | .asPath | .qualifiedPath | .genericParams | .binder | .plainOutput
  | .functionPointer | .plainType | .bound | .boundTail | .bounds | .type | .colonBounds
  | .equalsType => [flat, deep, group]
  | _ => []

def exits : Nonterminal → Zone → List Zone
  | .outerAttribute, opened => [flat]
  | .outerAttributes, opened => [opened, flat]
  | _, zone => [zone]

def contract : Contract Nonterminal Zone where
  depth := delimiters.depth
  entries n :=
    match n with
    | .members => []
    | n =>
      match n.closer? with
      | some k => [flat, deep, group].map fun back => (group, [(k, back)])
      | none => (entries n).map (·, [])
  exits n entry :=
    match entry.2 with
    | (_, back) :: _ => [(back, [])]
    | [] => (exits n entry.1).map (·, [])

theorem contract_kept (n : Nonterminal) : contract.checks move declarations n := by
  cases n <;> decide +kernel

end Zone

namespace Zone

-- The places outside of all groups, by the number of angle brackets that are open there, those of the
-- list itself included.
inductive Angled : Place Zone → Nat → Prop where
  | flat : Angled (flat, []) 1
  | first : Angled (deep, [(.greater, Zone.flat)]) 2
  | further {stack : List (Kind × Zone)} {depth : Nat} : Angled (deep, stack) depth →
      Angled (deep, (.greater, deep) :: stack) (depth + 1)

-- What is behind a place in a group, by the number of groups and the depth around them.
inductive Grouped : List (Kind × Zone) → Nat → Nat → Prop where
  | outermost {place : Place Zone} {depth : Nat} {closer : Kind} : Angled place depth →
      Grouped ((closer, place.1) :: place.2) 1 depth
  | inner {stack : List (Kind × Zone)} {groups depth : Nat} {closer : Kind} :
      Grouped stack groups depth → Grouped ((closer, group) :: stack) (groups + 1) depth

-- How a place, the state of `plain` and the depth of the counter go together.
inductive Seen : Place Zone → Nat → Nat → Kind → Nat → Prop where
  | opened {previous : Kind} : Seen (opened, []) 0 0 previous 1
  | angled {place : Place Zone} {depth : Nat} {previous : Kind} : Angled place depth →
      (depth = 1 → previous ≠ .less ∧ previous ≠ .comma) → Seen place 0 0 previous depth
  | grouped {stack : List (Kind × Zone)} {groups depth angles : Nat} {previous : Kind} :
      Grouped stack groups depth → (angles = 0 → previous ≠ .less) →
      Seen (group, stack) groups angles previous (depth + angles)

theorem Angled.depth_pos {place : Place Zone} {depth : Nat} (angled : Angled place depth) :
    0 < depth := by
  cases angled <;> omega

theorem Grouped.depth_pos {stack : List (Kind × Zone)} {groups depth : Nat}
    (grouped : Grouped stack groups depth) : 0 < depth ∧ 0 < groups := by
  induction grouped with
  | outermost angled => exact ⟨angled.depth_pos, Nat.one_pos⟩
  | inner _ ih => exact ⟨ih.1, Nat.succ_pos _⟩

theorem countLifetimes_other {t : Token} {depth : Nat} {previous : Kind} (less : t.kind ≠ .less)
    (greater : t.kind ≠ .greater)
    (quiet : t.kind = .lifetime → ¬(depth = 1 ∧ (previous = .less ∨ previous = .comma)))
    (later : List Token) :
    countLifetimes depth previous (t :: later) = countLifetimes depth t.kind later := by
  by_cases lifetime : t.kind = .lifetime
  · simp only [countLifetimes, lifetime, if_neg (quiet lifetime), Nat.zero_add]
  · rw [countLifetimes]
    split
    all_goals first | contradiction | rfl

theorem countLifetimes_less {t : Token} (less : t.kind = .less) (depth : Nat) (previous : Kind)
    (later : List Token) :
    countLifetimes depth previous (t :: later) = countLifetimes (depth + 1) t.kind later := by
  rw [countLifetimes, less]

theorem countLifetimes_greater {t : Token} (greater : t.kind = .greater) (depth : Nat)
    (previous : Kind) (later : List Token) :
    countLifetimes (depth + 2) previous (t :: later) = countLifetimes (depth + 1) t.kind later := by
  rw [countLifetimes, greater]
  simp

-- The counter and `plain` behind one more token.
def Follows (next : Place Zone) (depth : Nat) (previous : Kind) (t : Token) (ks : List Kind) : Prop :=
  ∃ groups angles after, Seen next groups angles t.kind after ∧ plain groups angles t.kind ks ∧
    ∀ later, countLifetimes depth previous (t :: later) = countLifetimes after t.kind later

variable {next : Place Zone} {depth : Nat} {previous : Kind} {t : Token} {ks : List Kind}

theorem plain_opens {groups angles : Nat} {due : Kind} (opens : t.kind.closer? = some due) :
    plain groups angles previous (t.kind :: ks) = plain (groups + 1) angles t.kind ks := by
  rw [plain, if_pos (by simp [Kind.isOpener, opens])]

theorem plain_closes {groups angles : Nat} (closes : t.kind.isCloser) :
    plain (groups + 1) angles previous (t.kind :: ks) ↔
      (groups = 0 → angles = 0) ∧ plain groups angles t.kind ks := by
  have opens : ¬t.kind.isOpener := by
    intro opens
    obtain ⟨due, opens⟩ := Option.isSome_iff_exists.mp opens
    exact Kind.not_closer_of_closer? opens closes
  rw [plain, if_neg opens, if_pos closes, Bool.and_eq_true]
  refine and_congr_left fun _ => ?_
  simp only [Bool.or_eq_true, decide_eq_true_eq]
  omega

section

variable (flat : t.kind.closer? = none) (closes : ¬t.kind.isCloser)
include flat closes

theorem plain_outside {angles : Nat} : plain 0 angles previous (t.kind :: ks) ↔
    (t.kind = .lifetime → previous ≠ .closeSquare ∧ ¬previous.isDoc) ∧ plain 0 angles t.kind ks := by
  have opens : ¬t.kind.isOpener := by simp [Kind.isOpener, flat]
  rw [plain, if_neg opens, if_neg closes, if_pos rfl, Bool.and_eq_true]
  refine and_congr_left fun _ => ?_
  simp [Decidable.imp_iff_not_or]

theorem plain_inside {groups angles : Nat} : plain (groups + 1) angles previous (t.kind :: ks) =
    if t.kind = .less then plain (groups + 1) (angles + 1) t.kind ks
    else if t.kind = .greater then angles ≠ 0 && plain (groups + 1) (angles - 1) t.kind ks
    else (t.kind ≠ .lifetime || angles ≠ 0 || previous ≠ .comma) &&
      plain (groups + 1) angles t.kind ks := by
  have opens : ¬t.kind.isOpener := by simp [Kind.isOpener, flat]
  rw [plain, if_neg opens, if_neg closes, if_neg (Nat.succ_ne_zero _)]

-- A walk in angles and in no group goes one angle deeper, or one back, or stays where it is.
theorem Angled.entered {place : Place Zone} (angled : Angled place depth) (less : t.kind = .less)
    (stepped : walkStep move place t.kind = some next) : Angled next (depth + 1) := by
  have inner : next = (deep, (.greater, place.1) :: place.2) := by
    cases angled <;> simp_all [walkStep, move]
  subst inner
  cases angled with
  | flat => exact .first
  | first => exact .further .first
  | further angled => exact .further (.further angled)

theorem Angled.left {place : Place Zone} (angled : Angled place depth) (greater : t.kind = .greater)
    (stepped : walkStep move place t.kind = some next) :
    ∃ before, depth = before + 2 ∧ Angled next (before + 1) := by
  cases angled with
  | flat =>
    simp only [walkStep, move, flat, closes] at stepped
    simp [greater] at stepped
  | first =>
    simp only [walkStep, move, flat, closes] at stepped
    simp only [greater, decide_true, Bool.or_true, if_true, Option.some.injEq] at stepped
    exact ⟨0, rfl, stepped ▸ .flat⟩
  | @further stack depth angled =>
    simp only [walkStep, move, flat, closes] at stepped
    simp only [greater, decide_true, Bool.or_true, if_true, Option.some.injEq] at stepped
    have least := angled.depth_pos
    obtain ⟨before, rfl⟩ : ∃ before, depth = before + 1 := ⟨depth - 1, by omega⟩
    exact ⟨before, rfl, stepped ▸ angled⟩

theorem Angled.stays {place : Place Zone} (angled : Angled place depth) (less : t.kind ≠ .less)
    (greater : t.kind ≠ .greater) (stepped : walkStep move place t.kind = some next) :
    next = place ∧ (depth = 1 → t.kind ≠ .comma) := by
  cases angled with
  | flat =>
    simp only [walkStep, move, flat, closes, less, greater, decide_false, Bool.or_self,
      Bool.false_or, decide_eq_true_eq, if_false] at stepped
    by_cases comma : t.kind = .comma
    · rw [if_pos comma] at stepped
      cases stepped
    · rw [if_neg comma] at stepped
      cases stepped
      exact ⟨rfl, fun _ => comma⟩
  | first =>
    simp only [walkStep, move, flat, closes, less, greater, decide_false, Bool.or_self,
      Bool.false_eq_true, if_false, Option.some.injEq] at stepped
    exact ⟨stepped.symm, fun one => by cases one⟩
  | further angled =>
    have least := angled.depth_pos
    simp only [walkStep, move, flat, closes, less, greater, decide_false, Bool.or_self,
      Bool.false_eq_true, if_false, Option.some.injEq] at stepped
    exact ⟨stepped.symm, fun one => by omega⟩

end

-- No group is open that a closer could end.
theorem Angled.unclosed {place : Place Zone} (angled : Angled place depth)
    (flat : t.kind.closer? = none) (closes : t.kind.isCloser) : walkStep move place t.kind = none := by
  cases angled <;> simp only [walkStep, move, flat, closes, Bool.true_or, if_true]
  all_goals
    rw [if_neg]
    intro same
    rw [← same] at closes
    cases closes

-- One more delimiter in front of a place is a group around the tokens behind it.
theorem walkStep_opener {place : Place Zone} (inside : place.1 ≠ opened) {due : Kind}
    (opens : t.kind.closer? = some due) :
    walkStep move place t.kind = some (group, (due, place.1) :: place.2) := by
  obtain ⟨zone, stack⟩ := place
  cases zone
  · exact absurd rfl inside
  all_goals simp only [walkStep, move, opens]

theorem Angled.outside {place : Place Zone} (angled : Angled place depth) :
    place.1 = Zone.flat ∨ place.1 = deep := by
  cases angled <;> simp

theorem Angled.step {place : Place Zone} (angled : Angled place depth)
    (silent : depth = 1 → previous ≠ .less ∧ previous ≠ .comma)
    (stepped : walkStep move place t.kind = some next)
    (clear : plain 0 0 previous (t.kind :: ks)) : Follows next depth previous t ks := by
  have quiet : t.kind = .lifetime → ¬(depth = 1 ∧ (previous = .less ∨ previous = .comma)) := by
    rintro - ⟨one, either⟩
    exact either.elim (silent one).1 (silent one).2
  cases opens : t.kind.closer? with
  | some due =>
    have other : t.kind ≠ .less ∧ t.kind ≠ .greater := by
      constructor <;> intro same <;> rw [same] at opens <;> cases opens
    have inside : place.1 ≠ opened := by
      rcases angled.outside with same | same <;> rw [same] <;> decide
    rw [walkStep_opener inside opens] at stepped
    cases stepped
    rw [plain_opens opens] at clear
    exact ⟨1, 0, depth, .grouped (.outermost angled) fun _ => other.1, clear,
      countLifetimes_other other.1 other.2 quiet⟩
  | none =>
    by_cases closes : t.kind.isCloser
    · rw [angled.unclosed opens closes] at stepped
      cases stepped
    · have clear := ((plain_outside opens closes).mp clear).2
      by_cases less : t.kind = .less
      · have inner := angled.entered opens closes less stepped
        have least := angled.depth_pos
        exact ⟨0, 0, depth + 1, .angled inner fun one => by omega, clear,
          countLifetimes_less less depth previous⟩
      · by_cases greater : t.kind = .greater
        · obtain ⟨before, rfl, outer⟩ := angled.left opens closes greater stepped
          exact ⟨0, 0, before + 1, .angled outer fun _ => by rw [greater]; decide, clear,
            countLifetimes_greater greater before previous⟩
        · obtain ⟨rfl, comma⟩ := angled.stays opens closes less greater stepped
          exact ⟨0, 0, depth, .angled angled fun one => ⟨less, comma one⟩, clear,
            countLifetimes_other less greater quiet⟩

theorem Grouped.step {stack : List (Kind × Zone)} {groups angles : Nat}
    (grouped : Grouped stack groups depth) (silent : angles = 0 → previous ≠ .less)
    (stepped : walkStep move (group, stack) t.kind = some next)
    (clear : plain groups angles previous (t.kind :: ks)) :
    Follows next (depth + angles) previous t ks := by
  obtain ⟨least, some⟩ := grouped.depth_pos
  obtain ⟨groups, rfl⟩ : ∃ fewer, groups = fewer + 1 := ⟨groups - 1, by omega⟩
  cases opens : t.kind.closer? with
  | some due =>
    have other : t.kind ≠ .less ∧ t.kind ≠ .greater ∧ t.kind ≠ .lifetime := by
      refine ⟨?_, ?_, ?_⟩ <;> intro same <;> rw [same] at opens <;> cases opens
    rw [walkStep_opener (show group ≠ opened by decide) opens] at stepped
    cases stepped
    rw [plain_opens opens] at clear
    exact ⟨groups + 2, angles, depth + angles, .grouped (.inner grouped) fun _ => other.1, clear,
      countLifetimes_other other.1 other.2.1 fun lifetime => absurd lifetime other.2.2⟩
  | none =>
    by_cases closes : t.kind.isCloser
    · have other : t.kind ≠ .less ∧ t.kind ≠ .greater ∧ t.kind ≠ .lifetime ∧ t.kind ≠ .comma := by
        refine ⟨?_, ?_, ?_, ?_⟩ <;> intro same <;> rw [same] at closes <;> cases closes
      have same : ∀ later, countLifetimes (depth + angles) previous (t :: later) =
          countLifetimes (depth + angles) t.kind later :=
        countLifetimes_other other.1 other.2.1 fun lifetime => absurd lifetime other.2.2.1
      obtain ⟨last, clear⟩ := (plain_closes closes).mp clear
      simp only [walkStep, move, opens, closes, if_true] at stepped
      cases grouped with
      | @outermost place depth closer angled =>
        simp only [Option.ite_none_right_eq_some, Option.some.injEq] at stepped
        obtain ⟨_, rfl⟩ := stepped
        obtain rfl := last rfl
        exact ⟨0, 0, depth, .angled angled fun _ => ⟨other.1, other.2.2.2⟩, clear, same⟩
      | inner grouped =>
        simp only [Option.ite_none_right_eq_some, Option.some.injEq] at stepped
        obtain ⟨_, rfl⟩ := stepped
        exact ⟨groups, angles, depth + angles, .grouped grouped fun _ => other.1, clear, same⟩
    · simp only [walkStep, move, opens, closes, Bool.false_eq_true, if_false, Option.some.injEq]
        at stepped
      subst stepped
      rw [plain_inside opens closes] at clear
      by_cases less : t.kind = .less
      · rw [if_pos less] at clear
        exact ⟨groups + 1, angles + 1, depth + (angles + 1), .grouped grouped (by simp), clear,
          countLifetimes_less less (depth + angles) previous⟩
      · rw [if_neg less] at clear
        by_cases greater : t.kind = .greater
        · rw [if_pos greater, Bool.and_eq_true, decide_eq_true_eq] at clear
          obtain ⟨filled, clear⟩ := clear
          obtain ⟨fewer, rfl⟩ : ∃ fewer, angles = fewer + 1 := ⟨angles - 1, by omega⟩
          obtain ⟨lower, rfl⟩ : ∃ lower, depth = lower + 1 := ⟨depth - 1, by omega⟩
          refine ⟨groups + 1, fewer, lower + 1 + fewer, .grouped grouped fun _ => less, clear,
            fun later => ?_⟩
          have counted := countLifetimes_greater greater (lower + fewer) previous later
          rwa [show lower + 1 + (fewer + 1) = lower + fewer + 2 by omega,
            show lower + 1 + fewer = lower + fewer + 1 by omega]
        · rw [if_neg greater, Bool.and_eq_true] at clear
          refine ⟨groups + 1, angles, depth + angles, .grouped grouped fun _ => less, clear.2,
            countLifetimes_other less greater ?_⟩
          rintro lifetime ⟨one, either⟩
          have none : angles = 0 := by omega
          have other : previous ≠ .comma := by simpa [lifetime, none] using clear.1
          exact either.elim (silent none) other

theorem Seen.step {place : Place Zone} {groups angles : Nat}
    (seen : Seen place groups angles previous depth)
    (stepped : walkStep move place t.kind = some next)
    (clear : plain groups angles previous (t.kind :: ks)) : Follows next depth previous t ks := by
  cases seen with
  | angled angled silent => exact angled.step silent stepped clear
  | grouped grouped silent => exact grouped.step silent stepped clear
  | opened =>
    simp only [walkStep, move] at stepped
    by_cases begins : t.kind ∈ [.hash, .docLine, .docBlock, .constWord, .ident]
    · simp only [begins, if_true, Option.some.injEq] at stepped
      subst stepped
      simp only [List.mem_cons, List.not_mem_nil, or_false] at begins
      have facts : t.kind.closer? = none ∧ ¬t.kind.isCloser ∧ t.kind ≠ .less ∧ t.kind ≠ .greater ∧
          t.kind ≠ .lifetime ∧ t.kind ≠ .comma := by
        rcases begins with same | same | same | same | same <;> rw [same] <;> decide
      obtain ⟨flat, closes, less, greater, lifetime, comma⟩ := facts
      exact ⟨0, 0, 1, .angled .flat fun _ => ⟨less, comma⟩, ((plain_outside flat closes).mp clear).2,
        countLifetimes_other less greater fun same => absurd same lifetime⟩
    · simp only [begins, if_false] at stepped
      cases stepped

def lastKind (previous : Kind) (w : List Token) : Kind := ((kindsOf w).getLast?).getD previous

theorem lastKind_cons (previous : Kind) (t : Token) (w : List Token) :
    lastKind previous (t :: w) = lastKind t.kind w := by
  rw [lastKind, kindsOf_cons, List.getLast?_cons, Option.getD_some, lastKind]

-- The counter goes over the tokens of a walk and counts nothing.
theorem Seen.run {place last : Place Zone} {w : List Token} {groups angles : Nat}
    (seen : Seen place groups angles previous depth) (walked : walk move place (kindsOf w) = some last)
    (clear : plain groups angles previous (kindsOf w ++ ks)) :
    ∃ groups angles after, Seen last groups angles (lastKind previous w) after ∧
      plain groups angles (lastKind previous w) ks ∧ ∀ later,
        countLifetimes depth previous (w ++ later) =
          countLifetimes after (lastKind previous w) later := by
  induction w generalizing place groups angles previous depth with
  | nil =>
    cases walked
    exact ⟨groups, angles, depth, seen, clear, fun _ => rfl⟩
  | cons t w ih =>
    obtain ⟨middle, stepped, rest⟩ := Option.bind_eq_some_iff.mp walked
    obtain ⟨_, _, _, seen, clear, first⟩ := seen.step stepped clear
    obtain ⟨g, a, after, seen, clear, others⟩ := ih seen rest clear
    rw [lastKind_cons]
    exact ⟨g, a, after, seen, clear, fun later => (first (w ++ later)).trans (others later)⟩

theorem Seen.level {zone : Zone} {groups angles : Nat}
    (seen : Seen (zone, []) groups angles previous depth) :
    groups = 0 ∧ angles = 0 ∧ depth = 1 := by
  cases seen with
  | opened => exact ⟨rfl, rfl, rfl⟩
  | angled angled => cases angled; exact ⟨rfl, rfl, rfl⟩
  | grouped grouped => cases grouped

end Zone

theorem outerAttribute_last {ks : List Kind} (spelled : declarations.Spells .outerAttribute ks) :
    ∃ front last, ks = front ++ [last] ∧ (last = .closeSquare ∨ last.isDoc) := by
  obtain ⟨rhs, listed, all⟩ := spells_iff_alternative.mp spelled
  have either : rhs = [.tok [.docLine, .docBlock]] ∨
      rhs = [.tok [.hash], .tok [.openSquare], .ref .squareRest] := List.mem_pair.mp listed
  rcases either with rfl | rfl
  · obtain ⟨_, _, rfl, one, none⟩ := spellsAll_cons.mp all
    obtain ⟨k, fits, rfl⟩ := spellsSym_tok.mp one
    obtain rfl := spellsAll_nil.mp none
    exact ⟨[], k, rfl, .inr (Kind.isDoc_iff.mpr (List.mem_pair.mp fits))⟩
  · obtain ⟨_, rfl, brackets⟩ := spellsAll_tok.mp all
    obtain ⟨_, rfl, rest⟩ := spellsAll_tok.mp brackets
    obtain ⟨body, rfl, _⟩ := rest_split (k := .closeSquare) (by decide) (spellsAll_ref_one.mp rest)
    exact ⟨.hash :: .openSquare :: body, .closeSquare, rfl, .inl rfl⟩

theorem outerAttributes_last {ks : List Kind} (spelled : declarations.Spells .outerAttributes ks) :
    ks = [] ∨ ∃ front last, ks = front ++ [last] ∧ (last = .closeSquare ∨ last.isDoc) := by
  induction length : ks.length using Nat.strongRecOn generalizing ks with
  | ind most ih =>
    obtain ⟨rhs, listed, all⟩ := spells_iff_alternative.mp spelled
    have either : rhs = [.ref .outerAttribute, .ref .outerAttributes] ∨ rhs = [] :=
      List.mem_pair.mp listed
    rcases either with rfl | rfl
    · obtain ⟨first, later, rfl, own, rest⟩ := spellsAll_cons.mp all
      obtain ⟨front, last, rfl, kind⟩ := outerAttribute_last (spellsSym_ref.mp own)
      rw [List.length_append, List.length_append, List.length_singleton] at length
      rcases ih later.length (by omega) (spellsAll_ref_one.mp rest) rfl with rfl | ⟨body, ends, rfl, its⟩
      · exact .inr ⟨front, last, List.append_nil _, kind⟩
      · exact .inr ⟨front ++ [last] ++ body, ends, (List.append_assoc ..).symm, its⟩
    · exact .inl (spellsAll_nil.mp all)

section

variable {text : String} {previous : Kind} {ks : List Kind}

open Zone

-- Behind some tokens of a list, `count` of which are lifetimes that the counter counts.
def Counted (count : Nat) (previous : Kind) (w : List Token) (ks : List Kind) : Prop :=
  plain 0 0 (lastKind previous w) ks ∧ ∀ later,
    countLifetimes 1 previous (w ++ later) = count + countLifetimes 1 (lastKind previous w) later

theorem lastKind_append (previous : Kind) (w u : List Token) :
    lastKind previous (w ++ u) = lastKind (lastKind previous w) u := by
  induction w generalizing previous with
  | nil => rfl
  | cons t w ih => rw [List.cons_append, lastKind_cons, lastKind_cons, ih]

theorem Counted.append {a b : Nat} {w u : List Token}
    (first : Counted a previous w (kindsOf u ++ ks))
    (second : plain 0 0 (lastKind previous w) (kindsOf u ++ ks) →
      Counted b (lastKind previous w) u ks) :
    Counted (a + b) previous (w ++ u) ks := by
  obtain ⟨clear, counted⟩ := second first.1
  refine ⟨lastKind_append previous w u ▸ clear, fun later => ?_⟩
  rw [List.append_assoc, first.2, counted, lastKind_append, Nat.add_assoc]

-- Nothing is counted from a place of the list to another one.
theorem counted_of_leads {rhs : List (Sym Nonterminal)} {place : Place Zone} {w : List Token}
    (seen : Seen place 0 0 previous 1)
    (led : contract.leads move rhs place [(Zone.flat, [])])
    (spelled : declarations.SpellsAll rhs (kindsOf w))
    (clear : plain 0 0 previous (kindsOf w ++ ks)) : Counted 0 previous w ks := by
  obtain ⟨last, listed, walked⟩ := Contract.walks_of_leads contract_kept led spelled
  obtain rfl := List.mem_singleton.mp listed
  obtain ⟨_, _, _, seen, clear, counted⟩ := seen.run walked clear
  obtain ⟨rfl, rfl, rfl⟩ := seen.level
  exact ⟨clear, fun later => by rw [counted, Nat.zero_add]⟩

theorem lifetime_counted {t : Token} (kind : t.kind = .lifetime)
    (begins : previous = .less ∨ previous = .comma) (clear : plain 0 0 previous (t.kind :: ks)) :
    Counted 1 previous [t] ks := by
  have flat : t.kind.closer? = none ∧ ¬t.kind.isCloser := by rw [kind]; decide
  refine ⟨((plain_outside flat.1 flat.2).mp clear).2, fun later => ?_⟩
  rw [List.singleton_append, countLifetimes, kind]
  simp only [begins, and_self, if_true]
  rw [lastKind_cons, kind]
  rfl

theorem comma_counted {t : Token} (kind : t.kind = .comma)
    (clear : plain 0 0 previous (t.kind :: ks)) : Counted 0 previous [t] ks := by
  have flat : t.kind.closer? = none ∧ ¬t.kind.isCloser := by rw [kind]; decide
  refine ⟨((plain_outside flat.1 flat.2).mp clear).2, fun later => ?_⟩
  rw [List.singleton_append, Nat.zero_add]
  exact countLifetimes_other (by rw [kind]; decide) (by rw [kind]; decide)
    (fun lifetime => by rw [kind] at lifetime; cases lifetime) later

-- A token that a production asks for.
theorem derivesAll_mark {k : Kind} {rest : List (Sym Nonterminal)} {w : List Token}
    {vs : Values declarations.Val (Rules.one k :: rest)}
    (all : declarations.DerivesAll text (Rules.one k :: rest) w vs) :
    ∃ (t : Token) (later : List Token), w = t :: later ∧ t.kind = k ∧
      declarations.DerivesAll text rest later vs.2 := by
  obtain ⟨own, later, rfl, one, more⟩ := derivesAll_cons all
  obtain ⟨same, fits⟩ := derivesSym_tok one
  exact ⟨_, later, by rw [same]; rfl, List.mem_singleton.mp fits, more⟩

theorem parameter_counted {w : List Token} {v : GenericParam}
    (derived : declarations.Derives text .genericParam w v)
    (begins : previous = .less ∨ previous = .comma)
    (clear : plain 0 0 previous (kindsOf w ++ ks)) :
    Counted (if v.isLifetime then 1 else 0) previous w ks := by
  obtain ⟨p, listed, vs, all, rfl⟩ := derives_def.mp derived
  rcases List.mem_cons.mp listed with rfl | listed
  · obtain ⟨front, rest, rfl, attributes, own⟩ := derivesAll_cons all
    obtain ⟨t, bounds, rfl, kind, more⟩ := derivesAll_mark own
    have flat : t.kind.closer? = none ∧ ¬t.kind.isCloser := by rw [kind]; decide
    -- an attribute in front of the lifetime would stand between it and its comma or bracket
    have bare : front = [] := by
      rcases outerAttributes_last (derivesSym_ref attributes).spells with none | ⟨body, last, ends, own⟩
      · exact List.map_eq_nil_iff.mp none
      · exfalso
        obtain ⟨place, found, walked⟩ := Contract.walks contract_kept
          (derivesSym_ref attributes).spells (opened, []) (by decide)
        obtain ⟨zone, rfl⟩ : ∃ zone, place = (zone, []) := by
          obtain ⟨zone, _, rfl⟩ := List.mem_map.mp found
          exact ⟨zone, rfl⟩
        rw [kindsOf_append, List.append_assoc] at clear
        obtain ⟨_, _, _, seen, clear, _⟩ := Seen.opened.run walked clear
        obtain ⟨rfl, rfl, _⟩ := seen.level
        have behind : lastKind previous front = last := by simp [lastKind, ends]
        obtain ⟨square, doc⟩ := ((plain_outside flat.1 flat.2).mp clear).1 kind
        rw [behind] at square doc
        exact own.elim square doc
    subst bare
    refine (lifetime_counted kind begins clear).append fun clear =>
      counted_of_leads (.angled .flat fun _ => ?_) ?_ more.spells clear
    · rw [lastKind_cons, kind]
      decide
    · decide +kernel
  · rcases List.mem_pair.mp listed with rfl | rfl
    · exact counted_of_leads .opened (by decide +kernel) all.spells clear
    · exact counted_of_leads .opened (by decide +kernel) all.spells clear

theorem parameters_counted {w : List Token} {params : List GenericParam}
    (derived : declarations.Derives text .genericParamList w params)
    (begins : previous = .less ∨ previous = .comma)
    (clear : plain 0 0 previous (kindsOf w ++ ks)) :
    Counted (params.countP GenericParam.isLifetime) previous w ks := by
  induction length : w.length using Nat.strongRecOn generalizing w params previous with
  | ind most ih =>
    obtain ⟨p, listed, vs, all, rfl⟩ := derives_def.mp derived
    rcases List.mem_cons.mp listed with rfl | listed
    · obtain ⟨first, rest, rfl, one, own⟩ := derivesAll_cons all
      obtain ⟨t, later, rfl, kind, more⟩ := derivesAll_mark own
      have more := derivesAll_single more
      rw [kindsOf_append, kindsOf_cons, List.append_assoc] at clear
      have here := parameter_counted (derivesSym_ref one) begins clear
      have shorter := spells_length_pos (by decide) (derivesSym_ref one).spells
      have marked := here.append fun clear => comma_counted (t := t) kind clear
      have whole := marked.append fun clear => ih later.length
        (by rw [← length, List.length_append, List.length_cons]; omega) more
        (.inr (by rw [lastKind_append, lastKind_cons]; exact kind)) clear rfl
      have sum : List.countP GenericParam.isLifetime (vs.1 :: vs.2.2.1) = _ := List.countP_cons
      rw [List.append_assoc] at whole
      rw [Nat.add_zero, Nat.add_comm, ← sum] at whole
      exact whole
    · rcases List.mem_pair.mp listed with rfl | rfl
      · obtain ⟨first, rest, rfl, one, own⟩ := derivesAll_cons all
        obtain ⟨t, later, rfl, kind, more⟩ := derivesAll_mark own
        obtain rfl := derivesAll_nil more
        rw [kindsOf_append, kindsOf_cons, List.append_assoc] at clear
        have here := parameter_counted (derivesSym_ref one) begins clear
        have whole := here.append fun clear => comma_counted (t := t) kind clear
        have sum : List.countP GenericParam.isLifetime [vs.1] = _ := List.countP_cons
        rw [List.countP_nil, Nat.zero_add] at sum
        rw [Nat.add_zero, ← sum] at whole
        exact whole
      · have whole := parameter_counted (derivesAll_single all) begins clear
        have sum : List.countP GenericParam.isLifetime [vs.1] = _ := List.countP_cons
        rw [List.countP_nil, Nat.zero_add] at sum
        rw [← sum] at whole
        exact whole

theorem countLifetimes_ends {t : Token} (greater : t.kind = .greater) (previous : Kind)
    (later : List Token) : countLifetimes 1 previous (t :: later) = 0 := by
  rw [countLifetimes, greater]
  simp

theorem lifetimeArity_plain {w : List Token} {g : Generics}
    (derived : declarations.Derives text .genericParams w g) (clear : Plain w) (rest : List Token) :
    lifetimeArity (w ++ rest) = g.params.countP GenericParam.isLifetime := by
  obtain ⟨p, listed, vs, all, rfl⟩ := derives_def.mp derived
  rcases List.mem_pair.mp listed with rfl | rfl
  · obtain ⟨less, w, rfl, opens, own⟩ := derivesAll_mark all
    obtain ⟨greater, later, rfl, ends, _⟩ := derivesAll_mark own
    rw [List.cons_append, lifetimeArity, if_pos opens, List.cons_append, countLifetimes_ends ends]
    rfl
  · obtain ⟨less, w, rfl, opens, own⟩ := derivesAll_mark all
    obtain ⟨list, last, rfl, params, more⟩ := derivesAll_cons own
    obtain ⟨greater, later, rfl, ends, _⟩ := derivesAll_mark more
    rw [Plain, kindsOf_cons] at clear
    have flat : less.kind.closer? = none ∧ ¬less.kind.isCloser := by rw [opens]; decide
    have inside := ((plain_outside flat.1 flat.2).mp clear).2
    rw [kindsOf_append, opens] at inside
    have counted := (parameters_counted (derivesSym_ref params) (.inl rfl) inside).2
      (greater :: (later ++ rest))
    rw [countLifetimes_ends ends, Nat.add_zero] at counted
    rw [List.cons_append, lifetimeArity, if_pos opens, List.append_assoc]
    exact counted

end

-- The first keyword outside all groups, the name behind it, and what follows the name.
inductive Declares (keyword : ItemKeyword) (name : String) (behind : List Token) :
    List Token → Prop where
  | here {word token : Token} : ItemKeyword.of? word (token :: behind) = some keyword →
      token.kind = .ident → token.text = name →
      Declares keyword name behind (word :: token :: behind)
  | passed {token : Token} {later : List Token} : ¬token.kind.isOpener →
      ItemKeyword.of? token later = none → Declares keyword name behind later →
      Declares keyword name behind (token :: later)
  | group {opener : Token} {later : List Token} {group : Closing} : opener.kind.isOpener →
      closing opener later = .ok group → Declares keyword name behind group.after →
      Declares keyword name behind (opener :: later)

theorem Declares.nonempty {keyword : ItemKeyword} {name : String} {behind body : List Token}
    (declares : Declares keyword name behind body) : body ≠ [] := by
  cases declares <;> exact List.cons_ne_nil _ _

theorem ItemKeyword.of?_mark {token : Token}
    (mark : token.kind.isOpener ∨ token.kind.isDoc ∨ token.kind = .hash) (later : List Token) :
    ItemKeyword.of? token later = none := by
  unfold ItemKeyword.of?
  cases kind : token.kind <;> rw [kind] at mark <;> first | rfl | simp_all [Kind.isOpener, Kind.isDoc,
    Kind.closer?]

section

variable {keyword : ItemKeyword} {name : String} {behind : List Token}

-- Behind a token that is no keyword or a group stands what they are in front of.
theorem Declares.later {token : Token} {later : List Token}
    (declares : Declares keyword name behind (token :: later)) (flat : ¬token.kind.isOpener)
    (silent : ItemKeyword.of? token later = none) : Declares keyword name behind later := by
  cases declares with
  | here meant => cases silent.symm.trans meant
  | passed _ _ declares => exact declares
  | group opens => exact absurd opens flat

theorem Declares.after {opener : Token} {later : List Token} {group : Closing}
    (declares : Declares keyword name behind (opener :: later)) (opens : opener.kind.isOpener)
    (closed : closing opener later = .ok group) : Declares keyword name behind group.after := by
  cases declares with
  | here meant => cases (ItemKeyword.of?_mark (.inl opens) _).symm.trans meant
  | passed flat => exact absurd opens flat
  | group _ also declares =>
    cases also.symm.trans closed
    exact declares

theorem AttributeRow.declares {next : Option Token} {row body : List Token}
    {sites : List AttributeSite} (attributes : AttributeRow next row sites)
    (declares : Declares keyword name behind (row ++ body)) : Declares keyword name behind body := by
  induction attributes with
  | nothing => exact declares
  | @doc token later sites doc _ ih =>
    have flat : ¬token.kind.isOpener := by
      rcases Kind.isDoc_iff.mp doc with same | same <;> rw [same] <;> decide
    exact ih (declares.later flat (ItemKeyword.of?_mark (.inr (.inl doc)) _))
  | @site own later site sites bracketed _ _ _ ih =>
    obtain ⟨lead, bracket, inside, close, rfl, mark, square, ends, nested⟩ := bracketed
    obtain ⟨hash, rfl, isHash⟩ := List.map_eq_singleton_iff.mp mark
    have opens : bracket.kind.isOpener := by rw [square]; rfl
    simp only [List.append_assoc, List.cons_append, List.nil_append] at declares
    have own := declares.later (by rw [isHash]; decide)
      (ItemKeyword.of?_mark (.inr (.inr isHash)) _)
    have closed : closing bracket (inside ++ close :: (later ++ body)) =
        .ok ⟨bracket :: inside, close, later ++ body⟩ :=
      (closing_eq_ok_iff opens).mpr ⟨inside, rfl, nested, by rw [square, ends]; rfl, rfl⟩
    exact ih (own.after opens closed)

theorem Taken.of?_tokens {found : Option ItemKeyword} {tokens : List Token} {s : Stretch}
    (taken : Taken found tokens s) (token : Token) :
    ItemKeyword.of? token s.tokens = ItemKeyword.of? token tokens := by
  obtain ⟨split, filled⟩ := taken.split
  by_cases none : tokens = []
  · rw [none, eq_comm, List.append_eq_nil_iff] at split
    rw [none, split.1]
  · rw [split, ItemKeyword.of?_append (filled none)]

-- What an item declares is what the outline takes from it.
theorem Taken.declared {found : Option ItemKeyword} {tokens : List Token} {s : Stretch}
    (taken : Taken found tokens s) (unknown : found = none)
    (declares : Declares keyword name behind s.tokens) :
    s.keyword = some keyword ∧ s.declared = some (name, behind) := by
  induction taken with
  | nothing => exact absurd rfl declares.nonempty
  | @semicolon found token later semicolon =>
    have last := declares.later (by rw [semicolon]; decide)
      (by unfold ItemKeyword.of?; rw [semicolon])
    exact absurd rfl last.nonempty
  | @braces found opener later group curly _ closed =>
    have opens : opener.kind.isOpener := by rw [curly]; decide
    obtain ⟨own, _, row, alone⟩ := closing_alone opens closed
    rw [row] at declares
    exact absurd rfl (declares.after opens alone).nonempty
  | @group found opener later group s opens _ closed _ ih =>
    obtain ⟨own, _, row, alone⟩ := closing_alone opens closed
    rw [row] at declares
    exact ih unknown (declares.after opens (closing_append alone s.tokens))
  | @token found token later s other flat silent taken ih =>
    exact ih unknown (declares.later flat ((taken.of?_tokens token).trans (silent unknown)))
  | @keyword token later first s other flat meant taken _ =>
    have own := (taken.of?_tokens token).trans meant
    obtain ⟨split, _⟩ := taken.split
    generalize s.tokens = tokens at declares own split ⊢
    cases declares with
    | passed _ silent => cases silent.symm.trans own
    | group opens => exact absurd opens flat
    | @here _ next also kind named =>
      obtain rfl := Option.some.inj (own.symm.trans also)
      refine ⟨taken.keyword_of rfl, ?_⟩
      rw [split, List.cons_append, declaredBy, if_pos kind, named]
      rfl

end

def OutlineItem.tokens (item : OutlineItem) (tokens : List Token) : List Token :=
  tokens.filter fun t => item.start ≤ t.extent.start && t.extent.stop ≤ item.stop

theorem OutlineItem.tokens_eq {item : OutlineItem} {front own after : List Token} {start stop : Nat}
    (row : InRow start stop (front ++ own ++ after)) (spans : Spans own item.start item.stop) :
    item.tokens (front ++ own ++ after) = own := by
  have filled := row.filled
  have inside := (row.along ⟨front, after, rfl⟩).tight spans
  obtain ⟨first, last, begins, ends, from_start, to_stop⟩ := spans
  obtain ⟨both, _, apart⟩ := List.pairwise_append.mp row.apart
  obtain ⟨_, _, ahead⟩ := List.pairwise_append.mp both
  have before : front.filter (fun t => item.start ≤ t.extent.start && t.extent.stop ≤ item.stop) = [] := by
    refine List.filter_eq_nil_iff.mpr fun t listed => ?_
    have own := filled t (by simp [listed])
    have next := ahead t listed first (List.mem_of_head? begins)
    simp only [Bool.and_eq_true, decide_eq_true_eq]
    omega
  have behind : after.filter (fun t => item.start ≤ t.extent.start && t.extent.stop ≤ item.stop) = [] := by
    refine List.filter_eq_nil_iff.mpr fun t listed => ?_
    have own := filled t (by simp [listed])
    have next := apart last (List.mem_append_right _ (List.mem_of_getLast? ends)) t listed
    simp only [Bool.and_eq_true, decide_eq_true_eq]
    omega
  have here : own.filter (fun t => item.start ≤ t.extent.start && t.extent.stop ≤ item.stop) = own := by
    refine List.filter_eq_self.mpr fun t listed => ?_
    simp only [Bool.and_eq_true, decide_eq_true_eq]
    exact ⟨inside.from_start t listed, inside.to_stop t listed⟩
  rw [OutlineItem.tokens, List.filter_append, List.filter_append, before, behind, here,
    List.nil_append, List.append_nil]

-- What an item of some tokens adds to the table of carriers.
structure OutlineItem.Entry (tokens : List Token) (item : OutlineItem) (entry : Carriers) : Prop where
  named : ∀ pair ∈ entry, item.name = some pair.1
  own : ∃ front row body after, tokens = front ++ (row ++ body) ++ after ∧ item.Laid row body ∧
    ∀ keyword name behind, Declares keyword name behind body → item.keyword = some keyword ∧
      item.name = some name ∧ entry = carrierOf (some keyword) (some (name, behind))

theorem OutlineItem.Entry.within {tokens others : List Token} (part : tokens <:+: others)
    {item : OutlineItem} {entry : Carriers} (own : item.Entry tokens entry) :
    item.Entry others entry := by
  obtain ⟨before, behind, rfl⟩ := part
  obtain ⟨front, row, body, after, rfl, found⟩ := own.own
  exact ⟨own.named, before ++ front, row, body, after ++ behind, by simp, found⟩

theorem OutlineItem.Entry.declared {tokens : List Token} {item : OutlineItem} {entry : Carriers}
    {start stop : Nat} {keyword : ItemKeyword} {name : String} {behind : List Token}
    (own : item.Entry tokens entry) (row : InRow start stop tokens)
    (declares : Declares keyword name behind (item.tokens tokens)) :
    item.keyword = some keyword ∧ item.name = some name ∧
      entry = carrierOf (some keyword) (some (name, behind)) := by
  obtain ⟨front, attributes, body, after, rfl, laid, declared⟩ := own.own
  rw [OutlineItem.tokens_eq row laid.spans] at declares
  exact declared keyword name behind (laid.attributes.declares declares)

theorem carrierOf_named {keyword : Option ItemKeyword} {declared : Option (String × List Token)}
    {pair : String × Nat} (listed : pair ∈ carrierOf keyword declared) :
    declared.map Prod.fst = some pair.1 := by
  cases declared with
  | none => cases listed
  | some own =>
    simp only [carrierOf] at listed
    split at listed
    · obtain rfl := List.mem_singleton.mp listed
      rfl
    · cases listed

variable {text : String} {behind : Option Token}

theorem entry_outlineItem {first token : Token} {others later : List Token}
    {sites : List AttributeSite} {s : Stretch}
    (led : Led text behind (first :: others) sites (token :: later))
    (taken : Taken none (token :: later) s) :
    (outlineItem first sites s).Entry (first :: others) (carrierOf s.keyword s.declared) := by
  obtain ⟨row, split, laid⟩ := laid_outlineItem led taken
  refine ⟨fun pair => carrierOf_named, [], row, s.tokens, s.rest, split, laid, ?_⟩
  intro keyword name behind declares
  obtain ⟨word, declared⟩ := taken.declared rfl declares
  exact ⟨word, congrArg (Option.map Prod.fst) declared, by rw [word, declared]⟩

theorem Levelled.entries {tokens : List Token} {o : Outline} (level : Levelled text behind tokens o) :
    ∃ entries, o.carriers = entries.flatten ∧
      List.Forall₂ (OutlineItem.Entry tokens) o.items entries := by
  induction level with
  | nothing => exact ⟨[], rfl, .nil⟩
  | trailing => exact ⟨[], rfl, .nil⟩
  | inner led found closed _ ih =>
    obtain ⟨entries, carriers, items⟩ := ih
    obtain ⟨front, split, _⟩ := inner_level led found closed
    exact ⟨entries, carriers, items.imp fun _ _ own => own.within ⟨front, [], by simp [split]⟩⟩
  | item led _ _ taken _ _ ih =>
    obtain ⟨entries, carriers, items⟩ := ih
    have behind := (rest_within led taken).1
    refine ⟨_ :: entries, ?_, .cons (entry_outlineItem led taken)
      (items.imp fun _ _ own => own.within behind)⟩
    rw [List.flatten_cons, ← carriers]
    rfl
  | submodule led _ _ taken inside _ _ ihInside ihRest =>
    obtain ⟨inner, carriersInside, itemsInside⟩ := ihInside
    obtain ⟨entries, carriers, items⟩ := ihRest
    obtain ⟨behind, braces⟩ := rest_within led taken
    have own := List.rel_append (itemsInside.imp fun _ _ own => own.within (braces _ inside))
      (.cons (entry_outlineItem led taken) .nil)
    refine ⟨inner ++ [_] ++ entries, ?_,
      List.rel_append own (items.imp fun _ _ own => own.within behind)⟩
    simp only [Outline.append, carriersInside, carriers, List.flatten_append, List.flatten_singleton]

theorem Carriers.arity?_append (a b : Carriers) (name : String) :
    Carriers.arity? (a ++ b) name = (Carriers.arity? b name).or (Carriers.arity? a name) := by
  unfold Carriers.arity?
  rw [List.reverse_append, List.lookup_append]

theorem Carriers.arity?_eq_none {carriers : Carriers} {name : String}
    (other : ∀ pair ∈ carriers, pair.1 ≠ name) : carriers.arity? name = none := by
  refine List.lookup_eq_none_iff.mpr fun pair listed => ?_
  exact bne_iff_ne.mpr (other pair (List.mem_reverse.mp listed)).symm

-- An item that shares its name with no other one has the entry under that name.
theorem arity?_of_entries {tokens : List Token} {items : List OutlineItem} {entries : List Carriers}
    {item : OutlineItem} {name : String}
    (own : List.Forall₂ (OutlineItem.Entry tokens) items entries) (distinct : items.Nodup)
    (listed : item ∈ items) (single : ∀ other ∈ items, other.name = some name → other = item) :
    ∃ entry, item.Entry tokens entry ∧
      Carriers.arity? entries.flatten name = Carriers.arity? entry name := by
  induction own with
  | nil => cases listed
  | @cons first entry others rest here later ih =>
    obtain ⟨apart, distinct⟩ := List.nodup_cons.mp distinct
    rw [List.flatten_cons, Carriers.arity?_append]
    rcases List.mem_cons.mp listed with rfl | listed
    · refine ⟨entry, here, ?_⟩
      rw [Carriers.arity?_eq_none, Option.none_or]
      intro pair found same
      obtain ⟨_, inside, found⟩ := List.mem_flatten.mp found
      obtain ⟨other, there, its⟩ := exists_of_forall₂ later.flip inside
      have also := single other (.tail _ there) (same ▸ its.named pair found)
      exact apart (also ▸ there)
    · obtain ⟨entry', here', same⟩ := ih distinct listed fun other there => single other (.tail _ there)
      have other : first.name ≠ some name := by
        intro also
        exact apart (single first (.head _) also ▸ listed)
      refine ⟨entry', here', ?_⟩
      have absent : Carriers.arity? entry name = none :=
        Carriers.arity?_eq_none fun pair found also => other (also ▸ here.named pair found)
      rw [same, absent, Option.or_none]

theorem Outlined.nodup {tokens : List Token} {items : List OutlineItem} {start stop : Nat}
    (outlined : Outlined tokens items) (most : start ≤ stop) (row : InRow start stop tokens) :
    items.Nodup := by
  obtain ⟨bounds, apart⟩ := outlined.before most row
  refine apart.imp_of_mem fun {a b} listed _ before same => ?_
  subst same
  have bound := bounds a listed
  rcases before with behind | ⟨_, inside, _⟩ <;> omega

-- The table has the lifetimes of every declaration whose list does not mislead the counter.
theorem carriers_arity {text : String} {o : Outline} {tokens w rest : List Token}
    {item : OutlineItem} {keyword : ItemKeyword} {name : String} {g : Generics}
    (outlined : Outline.ofText text = .ok o) (lexed : lex text = .ok tokens) (listed : item ∈ o.items)
    (declares : Declares keyword name (w ++ rest) (item.tokens tokens))
    (carries : keyword.carriesLifetimes)
    (single : ∀ other ∈ o.items, other.name = some name → other = item)
    (derived : declarations.Derives text .genericParams w g) (clear : Plain w) :
    item.keyword = some keyword ∧ item.name = some name ∧ o.carriers.arity? name =
      let count := g.params.countP GenericParam.isLifetime
      if count = 0 then none else some count := by
  have row := lex_inRow lexed
  obtain ⟨all, same, layout⟩ := ofText_outlined outlined
  cases lexed.symm.trans same
  have level : Levelled text none tokens o := by
    rw [Outline.ofText, lexed] at outlined
    exact levelled_of_outlineLevel outlined
  obtain ⟨entries, carriers, own⟩ := level.entries
  have distinct := layout.nodup (Nat.zero_le _) row
  have named : item.name = some name := by
    obtain ⟨entry, _, here⟩ := exists_of_forall₂ own listed
    exact (here.declared row declares).2.1
  obtain ⟨entry, here, found⟩ := arity?_of_entries own distinct listed single
  obtain ⟨word, _, rfl⟩ := here.declared row declares
  refine ⟨word, named, ?_⟩
  rw [carriers, found, carrierOf]
  simp only [lifetimeArity_plain derived clear, Option.any_some, carries, Bool.true_and]
  by_cases none : g.params.countP GenericParam.isLifetime = 0
  · rw [if_pos none, none]
    rfl
  · rw [if_neg none, if_pos (by simpa using none)]
    simp [Carriers.arity?]

theorem declares_of_head {own : List Token} {keyword : ItemKeyword} {name : String}
    (word : own.head?.any fun word => ItemKeyword.of? word own.tail = some keyword)
    (named : own.tail.head?.any fun token => token.kind = .ident ∧ token.text = name) :
    Declares keyword name (own.drop 2) own := by
  obtain ⟨first, begins, meant⟩ := (Option.any_eq_true _ _).mp word
  obtain ⟨own, rfl⟩ := List.head?_eq_some_iff.mp begins
  obtain ⟨token, next, same⟩ := (Option.any_eq_true _ _).mp named
  obtain ⟨behind, rfl⟩ := List.head?_eq_some_iff.mp next
  obtain ⟨kind, named⟩ := of_decide_eq_true same
  exact .here (of_decide_eq_true meant) kind named

def mixedListText : String :=
  "struct S<'a, T: B<'a, (C, D)> + 'a, #[e] const N: [u8; 3] = 4, 'f>(T); fn g<'h>() \x7b\x7d"

theorem carriers_arity_mixed : ∃ o tokens w rest item g,
    Outline.ofText mixedListText = .ok o ∧ lex mixedListText = .ok tokens ∧ item ∈ o.items ∧
      Declares .record "S" (w ++ rest) (item.tokens tokens) ∧
      (∀ other ∈ o.items, other.name = some "S" → other = item) ∧
      declarations.Derives mixedListText .genericParams w g ∧ Plain w ∧
      g.params.countP GenericParam.isLifetime = 2 ∧ item.keyword = some .record ∧
      item.name = some "S" ∧ o.carriers.arity? "S" = some 2 := by
  have checked : (Outline.ofText mixedListText).toOption.any fun o =>
      (lex mixedListText).toOption.any fun tokens => o.items.head?.any fun item =>
        (declarations.read .genericParams mixedListText
          (((item.tokens tokens).drop 2).take 35)).toOption.any fun g =>
          ((item.tokens tokens).head?.any fun word =>
            ItemKeyword.of? word (item.tokens tokens).tail = some .record) &&
          ((item.tokens tokens).tail.head?.any fun token => token.kind = .ident ∧ token.text = "S") &&
          decide ((∀ other ∈ o.items, other.name = some "S" → other = item) ∧
            Plain (((item.tokens tokens).drop 2).take 35) ∧
            g.params.countP GenericParam.isLifetime = 2) := by
    decide +kernel
  obtain ⟨o, outlined, checked⟩ := (Option.any_eq_true _ _).mp checked
  obtain ⟨tokens, lexed, checked⟩ := (Option.any_eq_true _ _).mp checked
  obtain ⟨item, first, checked⟩ := (Option.any_eq_true _ _).mp checked
  obtain ⟨g, read, checked⟩ := (Option.any_eq_true _ _).mp checked
  simp only [Bool.and_eq_true, decide_eq_true_eq] at checked
  obtain ⟨⟨word, named⟩, single, clear, count⟩ := checked
  have derived := ((read_eq_ok_iff declarations_ranked).mp (toOption_eq_some read)).derives
  have declares := declares_of_head word named
  rw [← List.take_append_drop 35 ((item.tokens tokens).drop 2)] at declares
  have listed := List.mem_of_head? first
  have found := carriers_arity (toOption_eq_some outlined) (toOption_eq_some lexed) listed declares rfl
    single derived clear
  rw [count] at found
  exact ⟨o, tokens, _, _, item, g, toOption_eq_some outlined, toOption_eq_some lexed, listed, declares,
    single, derived, clear, count, found⟩

def attributedText : String := "struct S<#[a] 'a>(&'a u8);"

-- An attribute in front of a lifetime hides it from the counter.
theorem carriers_arity_attributed : ∃ o tokens w rest item g,
    Outline.ofText attributedText = .ok o ∧ lex attributedText = .ok tokens ∧ item ∈ o.items ∧
      Declares .record "S" (w ++ rest) (item.tokens tokens) ∧
      (∀ other ∈ o.items, other.name = some "S" → other = item) ∧
      declarations.Derives attributedText .genericParams w g ∧
      g.params.countP GenericParam.isLifetime = 1 ∧ o.carriers.arity? "S" = none := by
  have checked : (Outline.ofText attributedText).toOption.any fun o =>
      (lex attributedText).toOption.any fun tokens => o.items.head?.any fun item =>
        (declarations.read .genericParams attributedText
          (((item.tokens tokens).drop 2).take 7)).toOption.any fun g =>
          ((item.tokens tokens).head?.any fun word =>
            ItemKeyword.of? word (item.tokens tokens).tail = some .record) &&
          ((item.tokens tokens).tail.head?.any fun token => token.kind = .ident ∧ token.text = "S") &&
          decide ((∀ other ∈ o.items, other.name = some "S" → other = item) ∧
            g.params.countP GenericParam.isLifetime = 1 ∧ o.carriers.arity? "S" = none) := by
    decide +kernel
  obtain ⟨o, outlined, checked⟩ := (Option.any_eq_true _ _).mp checked
  obtain ⟨tokens, lexed, checked⟩ := (Option.any_eq_true _ _).mp checked
  obtain ⟨item, first, checked⟩ := (Option.any_eq_true _ _).mp checked
  obtain ⟨g, read, checked⟩ := (Option.any_eq_true _ _).mp checked
  simp only [Bool.and_eq_true, decide_eq_true_eq] at checked
  obtain ⟨⟨word, named⟩, single, count, missing⟩ := checked
  have derived := ((read_eq_ok_iff declarations_ranked).mp (toOption_eq_some read)).derives
  have declares := declares_of_head word named
  rw [← List.take_append_drop 7 ((item.tokens tokens).drop 2)] at declares
  exact ⟨o, tokens, _, _, item, g, toOption_eq_some outlined, toOption_eq_some lexed,
    List.mem_of_head? first, declares, single, derived, count, missing⟩

end Deasync
