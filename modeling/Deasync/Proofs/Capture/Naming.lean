import Deasync.Capture
import Mathlib.Data.List.Nodup
import Mathlib.Data.List.Perm.Subperm
import Mathlib.Logic.Relation
import Mathlib.Order.Bounds.Basic

namespace Deasync

theorem numberedScope_injective : Function.Injective numberedScope := by
  intro a b same
  have numerals : a.repr = b.repr := (String.append_right_inj callScope).mp same
  -- a numeral can be read back
  have read (n : Nat) : Nat.ofDigitChars 10 n.repr.toList 0 = n := by
    rw [Nat.toList_repr, Nat.ofDigitChars_ten_toDigits]
  rw [← read a, numerals, read b]

-- Of more numbered names than there are taken ones, one is free.
theorem exists_numberedScope_free (taken : List String) (n : Nat) :
    ∃ k ≤ taken.length, numberedScope (n + k) ∉ taken := by
  by_contra none
  have distinct : ((List.range (taken.length + 1)).map fun k => numberedScope (n + k)).Nodup := by
    apply List.Nodup.map _ List.nodup_range
    intro a b same
    exact Nat.add_left_cancel (numberedScope_injective same)
  have among : ((List.range (taken.length + 1)).map fun k => numberedScope (n + k)) ⊆ taken := by
    intro name listed
    obtain ⟨k, less, rfl⟩ := List.mem_map.mp listed
    by_contra free
    exact none ⟨k, Nat.le_of_lt_succ (List.mem_range.mp less), free⟩
  have short := (List.subperm_of_subset distinct among).length_le
  rw [List.length_map, List.length_range] at short
  omega

-- The name with this number is taken, so the next number is tried.
inductive Turn (taken : List String) : Nat → Nat → Prop where
  | next {n : Nat} (used : numberedScope n ∈ taken) : Turn taken n (n + 1)

-- The search from the first number stops at the last one.
structure EndsAt (taken : List String) (first last : Nat) : Prop where
  turns : Relation.ReflTransGen (Turn taken) first last
  free : numberedScope last ∉ taken

variable {taken wider : List String} {first last : Nat}

-- No search passes a free name.
theorem turn_acc {k : Nat} (free : numberedScope (first + k) ∉ taken) :
    Acc (fun later earlier => Turn taken earlier later) first := by
  induction k generalizing first with
  | zero =>
    constructor
    intro later turn
    cases turn with
    | next used => exact absurd used free
  | succ k ih =>
    constructor
    intro later turn
    cases turn with
    | next used =>
      apply ih
      rwa [Nat.add_right_comm]

theorem turn_wellFounded (taken : List String) :
    WellFounded fun later earlier => Turn taken earlier later := by
  constructor
  intro n
  obtain ⟨k, _, free⟩ := exists_numberedScope_free taken n
  exact turn_acc free

-- All numbers on the way have taken names.
theorem turns_passed (turns : Relation.ReflTransGen (Turn taken) first last) :
    first ≤ last ∧ ∀ k, first ≤ k → k < last → numberedScope k ∈ taken := by
  induction turns with
  | refl => exact ⟨Nat.le_refl _, fun k above below => absurd below (Nat.not_lt.mpr above)⟩
  | tail _ turn ih =>
    obtain ⟨ordered, passed⟩ := ih
    cases turn with
    | next used =>
      refine ⟨Nat.le_succ_of_le ordered, ?_⟩
      intro k above below
      rcases Nat.lt_succ_iff_lt_or_eq.mp below with before | rfl
      · exact passed k above before
      · exact used

theorem EndsAt.isLeast (ends : EndsAt taken first last) :
    IsLeast {n | first ≤ n ∧ numberedScope n ∉ taken} last := by
  obtain ⟨ordered, passed⟩ := turns_passed ends.turns
  refine ⟨⟨ordered, ends.free⟩, ?_⟩
  rintro n ⟨above, free⟩
  by_contra below
  exact free (passed n above (Nat.lt_of_not_le below))

-- A free name within reach of the bound is enough: then the bound plays no part.
theorem freshNumbered_endsAt {k bound : Nat} (free : numberedScope (first + k) ∉ taken) (within : k ≤ bound) :
    ∃ last, EndsAt taken first last ∧ freshNumbered taken first bound = numberedScope last := by
  induction bound generalizing first k with
  | zero =>
    obtain rfl := Nat.le_zero.mp within
    exact ⟨first, ⟨.refl, free⟩, rfl⟩
  | succ bound ih =>
    rw [freshNumbered]
    split
    · rename_i listed
      have used := List.contains_iff_mem.mp listed
      cases k with
      | zero => exact absurd used free
      | succ k =>
        rw [← Nat.add_assoc, Nat.add_right_comm] at free
        obtain ⟨last, ends, same⟩ := ih free (Nat.le_of_succ_le_succ within)
        exact ⟨last, ⟨.head (.next used) ends.turns, ends.free⟩, same⟩
    · rename_i unlisted
      exact ⟨first, ⟨.refl, fun used => unlisted (List.contains_iff_mem.mpr used)⟩, rfl⟩

theorem freshScope_cases (taken : List String) :
    (callScope ∉ taken ∧ freshScope taken = callScope) ∨
      (callScope ∈ taken ∧ ∃ last, EndsAt taken 1 last ∧ freshScope taken = numberedScope last) := by
  rw [freshScope]
  split
  · rename_i listed
    obtain ⟨k, within, free⟩ := exists_numberedScope_free taken 1
    exact .inr ⟨List.contains_iff_mem.mp listed, freshNumbered_endsAt free within⟩
  · rename_i unlisted
    exact .inl ⟨fun used => unlisted (List.contains_iff_mem.mpr used), rfl⟩

theorem freshScope_not_mem (taken : List String) : freshScope taken ∉ taken := by
  rcases freshScope_cases taken with ⟨free, same⟩ | ⟨_, last, ends, same⟩
  · rwa [same]
  · rw [same]
    exact ends.free

-- The plain name, or one with a number.
theorem freshScope_form (taken : List String) :
    freshScope taken = callScope ∨ ∃ n, freshScope taken = numberedScope n := by
  rcases freshScope_cases taken with ⟨_, same⟩ | ⟨_, last, _, same⟩
  · exact .inl same
  · exact .inr ⟨last, same⟩

theorem freshScope_extended (within : taken ⊆ wider) (free : freshScope taken ∉ wider) :
    freshScope wider = freshScope taken := by
  rcases freshScope_cases taken with ⟨_, same⟩ | ⟨used, last, ends, same⟩
  · rcases freshScope_cases wider with ⟨_, again⟩ | ⟨blocked, _⟩
    · rw [again, same]
    · rw [same] at free
      exact absurd blocked free
  · rcases freshScope_cases wider with ⟨unblocked, _⟩ | ⟨_, other, stops, again⟩
    · exact absurd (within used) unblocked
    · rw [same] at free
      have sooner : other ≤ last := stops.isLeast.2 ⟨ends.isLeast.1.1, free⟩
      have later : last ≤ other := ends.isLeast.2 ⟨stops.isLeast.1.1, fun held => stops.free (within held)⟩
      rw [again, same, Nat.le_antisymm sooner later]

-- The search ends, from whichever number it begins, and finds the least name that is free.
theorem freshScope_least (taken : List String) :
    WellFounded (fun later earlier => Turn taken earlier later) ∧
      freshScope taken ∉ taken ∧
      ("'async_trait" ∉ taken → freshScope taken = "'async_trait") ∧
      ("'async_trait" ∈ taken → ∃ n, EndsAt taken 1 n ∧
        IsLeast {n | 1 ≤ n ∧ "'async_trait" ++ toString n ∉ taken} n ∧
        freshScope taken = "'async_trait" ++ toString n) ∧
      ∀ wider, taken ⊆ wider → freshScope taken ∉ wider → freshScope wider = freshScope taken := by
  refine ⟨turn_wellFounded taken, freshScope_not_mem taken, ?_, ?_, ?_⟩
  · intro free
    rcases freshScope_cases taken with ⟨_, same⟩ | ⟨used, _⟩
    · exact same
    · exact absurd used free
  · intro used
    rcases freshScope_cases taken with ⟨free, _⟩ | ⟨_, last, ends, same⟩
    · exact absurd used free
    · exact ⟨last, ends, ends.isLeast, same⟩
  · intro wider within free
    exact freshScope_extended within free

def gappedNames : List String := ["'async_trait2", "'a", "'async_trait", "'async_trait4", "'async_trait1"]

-- Number 3 is the first gap, also when higher numbers are taken as well.
theorem freshScope_least_gap :
    "'async_trait" ∈ gappedNames ∧ freshScope gappedNames = "'async_trait3" ∧
      IsLeast {n | 1 ≤ n ∧ "'async_trait" ++ toString n ∉ gappedNames} 3 ∧
      freshScope ("'async_trait5" :: gappedNames) = "'async_trait3" := by
  obtain ⟨_, _, _, numbered, extended⟩ := freshScope_least gappedNames
  have used : "'async_trait" ∈ gappedNames := by decide
  have found : freshScope gappedNames = "'async_trait3" := by decide
  obtain ⟨n, _, least, same⟩ := numbered used
  have third : n = 3 := numberedScope_injective (same.symm.trans found)
  have free : freshScope gappedNames ∉ "'async_trait5" :: gappedNames := by
    rw [found]
    decide
  refine ⟨used, found, third ▸ least, ?_⟩
  rw [extended _ (List.subset_cons_self _ _) free, found]

end Deasync
