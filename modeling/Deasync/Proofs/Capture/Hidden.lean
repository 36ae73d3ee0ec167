import Deasync.Proofs.Capture.Scope

namespace Deasync

-- The arguments of a segment, unless it is in closure notation.
def Segment.arguments? : Segment → Option (List GenericArg)
  | plain _ => some []
  | angled _ _ arguments => some arguments
  | call .. => none

-- The segment names a declaration that takes `arity` lifetimes, and gives it none of them.
structure Segment.Hides (carriers : Carriers) (s : Segment) (name : String) (arity : Nat) : Prop where
  named : s.name = name
  carrier : carriers.arity? name = some arity
  positive : arity ≠ 0
  bare : ∃ arguments, s.arguments? = some arguments ∧ ∀ l, GenericArg.lifetime l ∉ arguments

-- The node is a path whose last segment hides a borrow.
def Node.Hides (carriers : Carriers) (n : Node) (name : String) (arity : Nat) : Prop :=
  ∃ p, n = .path p ∧ p.last.Hides carriers name arity

theorem named_eq_some_iff {carriers : Carriers} {name other : String} {arity : Nat} :
    Segment.bare?.named carriers other = some (name, arity) ↔
      other = name ∧ carriers.arity? name = some arity ∧ arity ≠ 0 := by
  unfold Segment.bare?.named
  split
  · rename_i least found
    constructor
    · rintro ⟨⟩
      exact ⟨rfl, found, Nat.succ_ne_zero least⟩
    · rintro ⟨rfl, carrier, _⟩
      cases found.symm.trans carrier
      rfl
  · rename_i unlike
    refine ⟨fun found => (by cases found), ?_⟩
    rintro ⟨rfl, carrier, positive⟩
    obtain ⟨least, rfl⟩ := Nat.exists_eq_succ_of_ne_zero positive
    exact absurd carrier (unlike least)

theorem any_isLifetime {arguments : List GenericArg} :
    arguments.any GenericArg.isLifetime = false ↔ ∀ l, GenericArg.lifetime l ∉ arguments := by
  rw [List.any_eq_false]
  constructor
  · intro none l listed
    exact none _ listed rfl
  · intro none a listed
    cases a with
    | lifetime l => exact absurd listed (none l)
    | _ => exact Bool.false_ne_true

theorem bare?_eq_some_iff {carriers : Carriers} {s : Segment} {name : String} {arity : Nat} :
    s.bare? carriers = some (name, arity) ↔ s.Hides carriers name arity := by
  cases s with
  | plain own =>
    rw [Segment.bare?, named_eq_some_iff]
    constructor
    · rintro ⟨named, carrier, positive⟩
      exact ⟨named, carrier, positive, [], rfl, fun l => List.not_mem_nil⟩
    · rintro ⟨named, carrier, positive, _⟩
      exact ⟨named, carrier, positive⟩
  | angled own turbofish arguments =>
    rw [Segment.bare?]
    constructor
    · intro found
      split at found
      · cases found
      · rename_i none
        obtain ⟨named, carrier, positive⟩ := named_eq_some_iff.mp found
        exact ⟨named, carrier, positive, arguments, rfl, any_isLifetime.mp (eq_false_of_ne_true none)⟩
    · rintro ⟨named, carrier, positive, _, ⟨⟩, none⟩
      rw [any_isLifetime.mpr none]
      exact named_eq_some_iff.mpr ⟨named, carrier, positive⟩
  | call own inputs output =>
    constructor
    · intro found
      cases found
    · rintro ⟨_, _, _, _, ⟨⟩, _⟩

namespace Node

variable {carriers : Carriers}

theorem bare?_eq_some_iff {n : Node} {name : String} {arity : Nat} :
    n.bare? carriers = some (name, arity) ↔ n.Hides carriers name arity := by
  cases n with
  | path p =>
    rw [bare?, Deasync.bare?_eq_some_iff]
    constructor
    · intro hides
      exact ⟨p, rfl, hides⟩
    · rintro ⟨_, ⟨⟩, hides⟩
      exact hides
  | _ =>
    constructor
    · intro found
      cases found
    · rintro ⟨_, ⟨⟩, _⟩

theorem bare?_eq_none_iff {n : Node} :
    n.bare? carriers = none ↔ ∀ name arity, ¬n.Hides carriers name arity := by
  rw [Option.eq_none_iff_forall_ne_some, Prod.forall]
  exact forall₂_congr fun name arity => not_congr bare?_eq_some_iff

theorem hidden?_eq_none_iff {n : Node} : n.hidden? carriers = none ↔
    ∀ m, Within .tied m n → ∀ name arity, ¬m.Hides carriers name arity := by
  induction n using Node.induction .tied with
  | step n ih =>
    rw [hidden?_step, Option.or_eq_none_iff, bare?_eq_none_iff, List.findSome?_eq_none_iff]
    constructor
    · rintro ⟨here, parts⟩ m within
      cases within with
      | self => exact here
      | part part inner => exact (ih _ part).mp (parts _ part) m inner
    · intro none
      refine ⟨none n .self, fun m part => (ih m part).mpr fun inner within => ?_⟩
      exact none inner (.part part within)

-- Routes are compared from the left, so that a route comes before those that lead further and before
-- those that turn off later: this is the order in which a walk enters a node before its parts.
structure FirstHidden (carriers : Carriers) (outer : Node) (name : String) (arity : Nat)
    (route : List Nat) : Prop where
  found : ∃ inner, outer.follow .tied route = some inner ∧ inner.Hides carriers name arity
  first : ∀ earlier < route, ∀ m, outer.follow .tied earlier = some m →
    ∀ other count, ¬m.Hides carriers other count

theorem exists_firstHidden {n : Node} {name : String} {arity : Nat}
    (hidden : n.hidden? carriers = some (name, arity)) :
    ∃ route, FirstHidden carriers n name arity route := by
  induction n using Node.induction .tied with
  | step n ih =>
    rw [hidden?_step] at hidden
    rcases Option.or_eq_some_iff.mp hidden with here | ⟨bare, inside⟩
    · exact ⟨[], ⟨n, rfl, bare?_eq_some_iff.mp here⟩,
        fun earlier less => absurd less (List.not_lt_nil _)⟩
    · obtain ⟨front, part, behind, split, found, clear⟩ := List.findSome?_eq_some_iff.mp inside
      have listed : part ∈ n.parts .tied := split ▸ List.mem_append_right front (.head _)
      obtain ⟨route, ⟨inner, followed, hides⟩, first⟩ := ih part listed found
      have turn : (n.parts .tied)[front.length]? = some part := by simp [split]
      refine ⟨front.length :: route, ⟨inner, ?_, hides⟩, ?_⟩
      · rw [follow, turn]
        exact followed
      · intro earlier less m reached
        cases earlier with
        | nil =>
          cases reached
          exact bare?_eq_none_iff.mp bare
        | cons i rest =>
          obtain ⟨next, taken, onward⟩ := Option.bind_eq_some_iff.mp reached
          rcases List.cons_lt_cons_iff.mp less with before | ⟨rfl, before⟩
          · have early : next ∈ front := by
              rw [split, List.getElem?_append_left before] at taken
              exact List.mem_of_getElem? taken
            exact hidden?_eq_none_iff.mp (clear next early) m (within_of_follow onward)
          · cases turn.symm.trans taken
            exact first rest before m onward

theorem FirstHidden.unique {n : Node} {name other : String} {arity count : Nat}
    {route path : List Nat} (one : FirstHidden carriers n name arity route)
    (two : FirstHidden carriers n other count path) : name = other ∧ arity = count := by
  obtain ⟨a, reached, hides⟩ := one.found
  obtain ⟨b, also, again⟩ := two.found
  by_cases before : route < path
  · exact absurd hides (two.first route before a reached name arity)
  · by_cases behind : path < route
    · exact absurd again (one.first path behind b also other count)
    · obtain rfl := List.le_antisymm (List.not_lt.mp behind) (List.not_lt.mp before)
      cases reached.symm.trans also
      have same := (bare?_eq_some_iff.mpr hides).symm.trans (bare?_eq_some_iff.mpr again)
      exact Prod.mk.inj (Option.some.inj same)

theorem hidden?_eq_some_iff {n : Node} {name : String} {arity : Nat} :
    n.hidden? carriers = some (name, arity) ↔ ∃ route, FirstHidden carriers n name arity route := by
  refine ⟨exists_firstHidden, ?_⟩
  rintro ⟨route, first⟩
  obtain ⟨inner, reached, hides⟩ := first.found
  cases hidden : n.hidden? carriers with
  | none =>
    exact absurd hides (hidden?_eq_none_iff.mp hidden inner (within_of_follow reached) name arity)
  | some pair =>
    obtain ⟨path, also⟩ := exists_firstHidden hidden
    obtain ⟨rfl, rfl⟩ := first.unique also
    rfl

end Node

namespace Signature

-- The types of a signature, in order, each with the part of the signature it stands in.
def sites (s : Signature) : List (Extent × Ty) :=
  (s.receiver.toList.filterMap fun r => r.form.ty?.map (r.extent, ·)) ++
    s.params.map (fun p => (p.extent, p.ty)) ++ s.output.toList.map fun ty => (ty.extent, ty)

-- The fault of a hidden borrow in one of the types.
def siteFault? (carriers : Carriers) (site : Extent × Ty) : Option Fault :=
  (site.2.hidden? carriers).map fun (name, arity) => ⟨.hiddenBorrow name arity, .ofExtent site.1⟩

theorem hiddenFault?_eq (s : Signature) (carriers : Carriers) :
    s.hiddenFault? carriers = s.sites.findSome? (siteFault? carriers) := by
  rw [hiddenFault?, hiddenAt, sites]
  simp only [List.findSome?_append, List.findSome?_map, Function.comp_def, siteFault?]
  congr 2
  cases s.receiver with
  | none => rfl
  | some r => cases form : r.form <;> simp [form, ReceiverForm.hidden?, ReceiverForm.ty?, siteFault?]

theorem siteFault?_eq_none_iff {carriers : Carriers} {site : Extent × Ty} :
    siteFault? carriers site = none ↔ ∀ m, Node.Within .tied m (.ty site.2) →
      ∀ name arity, ¬m.Hides carriers name arity := by
  rw [siteFault?, Option.map_eq_none_iff]
  exact Node.hidden?_eq_none_iff (n := .ty site.2)

theorem siteFault?_eq_some_iff {carriers : Carriers} {site : Extent × Ty} {fault : Fault} :
    siteFault? carriers site = some fault ↔ ∃ name arity route,
      Node.FirstHidden carriers (.ty site.2) name arity route ∧
      fault = ⟨.hiddenBorrow name arity, .ofExtent site.1⟩ := by
  rw [siteFault?, Option.map_eq_some_iff]
  constructor
  · rintro ⟨⟨name, arity⟩, hidden, rfl⟩
    obtain ⟨route, first⟩ := Node.exists_firstHidden (n := .ty site.2) hidden
    exact ⟨name, arity, route, first, rfl⟩
  · rintro ⟨name, arity, route, first, rfl⟩
    exact ⟨(name, arity), Node.hidden?_eq_some_iff.mpr ⟨route, first⟩, rfl⟩

theorem capture_eq_error_iff {s : Signature} {around : Surroundings} {fault : Fault} :
    s.capture around = .error fault ↔
      s.sites.findSome? (siteFault? around.carriers) = some fault := by
  rw [← hiddenFault?_eq, capture]
  cases s.hiddenFault? around.carriers with
  | none =>
    constructor
    · intro refused
      cases refused
    · intro found
      cases found
  | some found => rw [Except.error.injEq, Option.some.injEq]

end Signature

-- A signature is refused exactly when a borrow is hidden within reach, and the fault is that of the
-- first one in the first part that has one.
theorem capture_refusal (s : Signature) (around : Surroundings) :
    ((∃ fault, s.capture around = .error fault) ↔ ∃ site ∈ s.sites, ∃ m name arity,
      Node.Within .tied m (.ty site.2) ∧ m.Hides around.carriers name arity) ∧
    ∀ fault, s.capture around = .error fault ↔ ∃ before site after name arity route,
      s.sites = before ++ site :: after ∧
      (∀ earlier ∈ before, ∀ m, Node.Within .tied m (.ty earlier.2) →
        ∀ other count, ¬m.Hides around.carriers other count) ∧
      Node.FirstHidden around.carriers (.ty site.2) name arity route ∧
      fault = ⟨.hiddenBorrow name arity, .ofExtent site.1⟩ := by
  constructor
  · constructor
    · rintro ⟨fault, refused⟩
      obtain ⟨site, listed, found⟩ :=
        List.exists_of_findSome?_eq_some (Signature.capture_eq_error_iff.mp refused)
      obtain ⟨name, arity, route, first, _⟩ := Signature.siteFault?_eq_some_iff.mp found
      obtain ⟨m, reached, hides⟩ := first.found
      exact ⟨site, listed, m, name, arity, Node.within_of_follow reached, hides⟩
    · rintro ⟨site, listed, m, name, arity, within, hides⟩
      cases found : s.sites.findSome? (Signature.siteFault? around.carriers) with
      | none =>
        have clear := List.findSome?_eq_none_iff.mp found site listed
        exact absurd hides (Signature.siteFault?_eq_none_iff.mp clear m within name arity)
      | some fault => exact ⟨fault, Signature.capture_eq_error_iff.mpr found⟩
  · intro fault
    rw [Signature.capture_eq_error_iff, List.findSome?_eq_some_iff]
    constructor
    · rintro ⟨before, site, after, split, found, clear⟩
      obtain ⟨name, arity, route, first, rfl⟩ := Signature.siteFault?_eq_some_iff.mp found
      refine ⟨before, site, after, name, arity, route, split, fun earlier listed => ?_, first, rfl⟩
      exact Signature.siteFault?_eq_none_iff.mp (clear earlier listed)
    · rintro ⟨before, site, after, name, arity, route, split, clear, first, rfl⟩
      refine ⟨before, site, after, split, ?_, fun earlier listed => ?_⟩
      · exact Signature.siteFault?_eq_some_iff.mpr ⟨name, arity, route, first, rfl⟩
      · exact Signature.siteFault?_eq_none_iff.mpr (clear earlier listed)

end Deasync
