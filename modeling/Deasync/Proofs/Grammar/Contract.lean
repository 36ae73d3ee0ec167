import Deasync.Proofs.Grammar.Preference

namespace Deasync

-- What a state does with a kind: go on, wait for `closer` and come back, or close what is waited for.
inductive Move (F : Type) where
  | stay (next : F)
  | enter (closer : Kind) (inner back : F)
  | leave
  | stop

abbrev Place (F : Type) := F × List (Kind × F)

section

variable {F : Type} (move : F → Kind → Move F)

def walkStep (place : Place F) (k : Kind) : Option (Place F) :=
  match move place.1 k with
  | .stay next => some (next, place.2)
  | .enter closer inner back => some (inner, (closer, back) :: place.2)
  | .leave =>
    match place.2 with
    | (closer, back) :: rest => if closer = k then some (back, rest) else none
    | [] => none
  | .stop => none

def walk (place : Place F) : List Kind → Option (Place F)
  | [] => some place
  | k :: ks => (walkStep move place k).bind (walk · ks)

variable {move}

theorem walk_append {place : Place F} {ks ls : List Kind} :
    walk move place (ks ++ ls) = (walk move place ks).bind (walk move · ls) := by
  induction ks generalizing place with
  | nil => rfl
  | cons k ks ih =>
    rw [List.cons_append, walk, walk, Option.bind_assoc]
    congr 1
    funext next
    exact ih

theorem walkStep_deeper {place next : Place F} {k : Kind}
    (stepped : walkStep move place k = some next) (more : List (Kind × F)) :
    walkStep move (place.1, place.2 ++ more) k = some (next.1, next.2 ++ more) := by
  obtain ⟨f, stack⟩ := place
  unfold walkStep at stepped ⊢
  dsimp only at stepped ⊢
  split at stepped
  · cases stepped; rfl
  · cases stepped; rfl
  · cases stack with
    | nil => cases stepped
    | cons frame rest =>
      dsimp only [List.cons_append] at stepped ⊢
      split at stepped
      · rename_i same
        cases stepped
        rw [if_pos same]
      · cases stepped
  · cases stepped

-- A walk does not see what is below the places it was at.
theorem walk_deeper {place next : Place F} {ks : List Kind} (walked : walk move place ks = some next)
    (more : List (Kind × F)) :
    walk move (place.1, place.2 ++ more) ks = some (next.1, next.2 ++ more) := by
  induction ks generalizing place with
  | nil => cases walked; rfl
  | cons k ks ih =>
    obtain ⟨middle, stepped, rest⟩ := Option.bind_eq_some_iff.mp walked
    rw [walk, walkStep_deeper stepped more]
    exact ih rest

end

-- `depth` is how many frames of the stack a nonterminal is told about.
structure Contract (N F : Type) where
  depth : N → Nat
  entries : N → List (Place F)
  exits : N → Place F → List (Place F)

namespace Contract

variable {N F : Type} [DecidableEq F] (c : Contract N F) (move : F → Kind → Move F)

def throughSym : Sym N → Place F → Option (List (Place F))
  | .tok kinds, place => kinds.mapM (walkStep move place)
  | .ref n, (f, stack) =>
    let entry := (f, stack.take (c.depth n))
    if entry ∈ c.entries n then
      some ((c.exits n entry).map fun (f, top) => (f, top ++ stack.drop (c.depth n)))
    else none
  | .maybe s, place => (throughSym s place).map (place :: ·)

def through : List (Sym N) → Place F → Option (List (Place F))
  | [], place => some [place]
  | s :: rest, place =>
    (c.throughSym move s place).bind fun next => (next.mapM (through rest)).map List.flatten

-- Symbols lead from a place to some of the given ones.
def leads (rhs : List (Sym N)) (place : Place F) (ends : List (Place F)) : Bool :=
  (c.through move rhs place).any fun found => found.all (· ∈ ends)

-- The productions of a nonterminal keep its contract, given that the nonterminals in them do.
def checks (G : Grammar N) (n : N) : Bool :=
  (G.productions n).all fun p => (c.entries n).all fun entry =>
    c.leads move p.rhs entry (c.exits n entry)

theorem mem_of_mapM {α β : Type} {f : α → Option β} {xs : List α} {ys : List β} {x : α}
    (mapped : xs.mapM f = some ys) (listed : x ∈ xs) : ∃ y ∈ ys, f x = some y := by
  induction xs generalizing ys with
  | nil => cases listed
  | cons head xs ih =>
    rw [List.mapM_cons] at mapped
    obtain ⟨y, first, rest⟩ := Option.bind_eq_some_iff.mp mapped
    obtain ⟨others, later, same⟩ := Option.bind_eq_some_iff.mp rest
    cases same
    rcases List.mem_cons.mp listed with rfl | listed
    · exact ⟨y, .head _, first⟩
    · obtain ⟨z, found, same⟩ := ih later listed
      exact ⟨z, .tail _ found, same⟩

variable {c move} {G : Grammar N}

mutual

theorem walks (kept : ∀ n, c.checks move G n) {n : N} {ks : List Kind} :
    G.Spells n ks → ∀ entry ∈ c.entries n, ∃ place ∈ c.exits n entry, walk move entry ks = some place
  | .production listed all => by
    intro entry accepted
    have checked := List.all_eq_true.mp (List.all_eq_true.mp (kept n) _ listed) entry accepted
    obtain ⟨ends, through, within⟩ := (Option.any_eq_true _ _).mp checked
    obtain ⟨place, found, walked⟩ := walksAll kept all entry ends through
    exact ⟨place, of_decide_eq_true (List.all_eq_true.mp within place found), walked⟩

theorem walksSym (kept : ∀ n, c.checks move G n) {s : Sym N} {ks : List Kind} :
    G.SpellsSym s ks → ∀ place ends, c.throughSym move s place = some ends →
      ∃ next ∈ ends, walk move place ks = some next
  | .tok fits => by
    intro place ends through
    obtain ⟨next, found, stepped⟩ := mem_of_mapM through fits
    exact ⟨next, found, by rw [walk, stepped]; rfl⟩
  | .ref (n := n) inner => by
    intro place ends through
    simp only [throughSym] at through
    split at through
    · rename_i accepted
      cases through
      obtain ⟨next, found, walked⟩ := walks kept inner _ accepted
      refine ⟨_, List.mem_map.mpr ⟨next, found, rfl⟩, ?_⟩
      have deeper := walk_deeper walked (place.2.drop (c.depth n))
      rwa [List.take_append_drop] at deeper
    · cases through
  | .absent => by
    intro place ends through
    obtain ⟨others, _, rfl⟩ := Option.map_eq_some_iff.mp through
    exact ⟨place, .head _, rfl⟩
  | .present inner => by
    intro place ends through
    obtain ⟨others, inside, rfl⟩ := Option.map_eq_some_iff.mp through
    obtain ⟨next, found, walked⟩ := walksSym kept inner place others inside
    exact ⟨next, .tail _ found, walked⟩

theorem walksAll (kept : ∀ n, c.checks move G n) {rhs : List (Sym N)} {ks : List Kind} :
    G.SpellsAll rhs ks → ∀ place ends, c.through move rhs place = some ends →
      ∃ next ∈ ends, walk move place ks = some next
  | .nil => by
    intro place ends through
    cases through
    exact ⟨place, .head _, rfl⟩
  | .cons first rest => by
    intro place ends through
    obtain ⟨middle, one, others⟩ := Option.bind_eq_some_iff.mp through
    obtain ⟨lists, mapped, rfl⟩ := Option.map_eq_some_iff.mp others
    obtain ⟨next, found, walked⟩ := walksSym kept first place middle one
    obtain ⟨list, listed, onward⟩ := mem_of_mapM mapped found
    obtain ⟨last, inside, finished⟩ := walksAll kept rest next list onward
    refine ⟨last, List.mem_flatten.mpr ⟨list, listed, inside⟩, ?_⟩
    rw [walk_append, walked]
    exact finished

end

theorem walks_of_leads (kept : ∀ n, c.checks move G n) {rhs : List (Sym N)} {ks : List Kind}
    {place : Place F} {ends : List (Place F)} (led : c.leads move rhs place ends)
    (spelled : G.SpellsAll rhs ks) : ∃ next ∈ ends, walk move place ks = some next := by
  obtain ⟨found, through, within⟩ := (Option.any_eq_true _ _).mp led
  obtain ⟨next, listed, walked⟩ := walksAll kept spelled place found through
  exact ⟨next, of_decide_eq_true (List.all_eq_true.mp within next listed), walked⟩

end Contract

end Deasync
