import Deasync.Expansion.Lift
import Deasync.Proofs.Elements

namespace Deasync

namespace Node

-- The parts that are looked into.
def opened : Node → List Node
  | ty (.path p) => [path p]
  | ty (.reference _ _ inner _) | ty (.pointer _ inner _) | ty (.paren inner _)
  | ty (.slice inner _) | ty (.array inner _ _) => [ty inner]
  | ty (.tuple elements _) => elements.map ty
  | path (.mk _ head tail _) => (head :: tail).map segment
  | segment (.angled _ _ arguments) => arguments.map argument
  | argument (.type inner) => [ty inner]
  | _ => []

-- The parts that are kept as they are.
def closed : Node → List Node
  | ty (.traitObject bounds _) | ty (.implTrait bounds _) => bounds.map bound
  | path (.mk root _ _ _) => root.parts
  | segment (.call _ inputs output) => (inputs ++ output.toList).map ty
  | argument (.binding _ arguments inner) => parts.associated .everywhere arguments ++ [ty inner]
  | argument (.constraint _ arguments bounds) =>
    parts.associated .everywhere arguments ++ bounds.map bound
  | bound (.trait _ _ _ p) => [path p]
  | _ => []

-- Of the parts of a node, those that are kept stand in front.
theorem parts_everywhere (n : Node) : n.parts .everywhere = n.closed ++ n.opened := by
  cases n with
  | ty t => cases t <;> simp [parts, closed, opened]
  | path p => cases p; simp [parts, closed, opened]
  | segment s => cases s <;> simp [parts, closed, opened, Reach.everywhere]
  | argument a => cases a <;> simp [parts, closed, opened]
  | bound b =>
    cases b with
    | lifetime name => rfl
    | trait maybe binder paren p => cases binder <;> simp [parts, closed, opened, Reach.everywhere]

def isImpl : Node → Bool
  | ty (.implTrait ..) => true
  | _ => false

theorem isImpl_iff {n : Node} : n.isImpl ↔ ∃ bounds e, n = .ty (.implTrait bounds e) := by
  constructor
  · intro impl
    cases n with
    | ty t =>
      cases t with
      | implTrait bounds e => exact ⟨bounds, e, rfl⟩
      | _ => cases impl
    | _ => cases impl
  · rintro ⟨bounds, e, rfl⟩
    rfl

-- `inner` is `outer`, or it is reached through parts that are looked into.
inductive Reached (inner : Node) : Node → Prop where
  | self : Reached inner inner
  | part {outer m : Node} : m ∈ outer.opened → Reached inner m → Reached inner outer

-- `inner` stands inside a part that is kept.
inductive Sheltered (inner : Node) : Node → Prop where
  | kept {outer m : Node} : m ∈ outer.closed → Within .everywhere inner m → Sheltered inner outer
  | part {outer m : Node} : m ∈ outer.opened → Sheltered inner m → Sheltered inner outer

theorem within_everywhere_iff {inner outer : Node} :
    Within .everywhere inner outer ↔ Reached inner outer ∨ Sheltered inner outer := by
  constructor
  · intro within
    induction within with
    | self => exact .inl .self
    | part listed within ih =>
      rw [parts_everywhere, List.mem_append] at listed
      rcases listed with kept | open'
      · exact .inr (.kept kept within)
      · exact ih.imp (.part open') (.part open')
  · rintro (reached | sheltered)
    · induction reached with
      | self => exact .self
      | part listed _ ih => exact .part (parts_everywhere _ ▸ List.mem_append_right _ listed) ih
    · induction sheltered with
      | kept listed within =>
        exact .part (parts_everywhere _ ▸ List.mem_append_left _ listed) within
      | part listed _ ih => exact .part (parts_everywhere _ ▸ List.mem_append_right _ listed) ih

def lift (first : Nat) : Node → Node × List Lifted
  | ty t => ((t.lift first).map ty id)
  | path p => ((p.lift first).map path id)
  | segment s => ((s.lift first).map segment id)
  | argument a => ((a.lift first).map argument id)
  | bound b => (bound b, [])

def liftEach (first : Nat) : List Node → List Node × List Lifted
  | [] => ([], [])
  | n :: rest =>
    let later := liftEach (first + (n.lift first).2.length) rest
    ((n.lift first).1 :: later.1, (n.lift first).2 ++ later.2)

-- A node without its parts.
def bare : Node → Node
  | ty (.path _) => ty (.path default)
  | ty (.reference lifetime mutable _ e) => ty (.reference lifetime mutable default e)
  | ty (.pointer mutable _ e) => ty (.pointer mutable default e)
  | ty (.tuple elements e) => ty (.tuple (elements.map fun _ => default) e)
  | ty (.paren _ e) => ty (.paren default e)
  | ty (.slice _ e) => ty (.slice default e)
  | ty (.array _ length e) => ty (.array default length e)
  | ty (.traitObject bounds e) => ty (.traitObject (bounds.map fun _ => default) e)
  | ty (.implTrait bounds e) => ty (.implTrait (bounds.map fun _ => default) e)
  | ty (.never e) => ty (.never e)
  | ty (.infer e) => ty (.infer e)
  | ty (.functionPointer text e) => ty (.functionPointer text e)
  | ty (.macroCall text e) => ty (.macroCall text e)
  | path (.mk root _ tail e) => path (.mk (bareRoot root) default (tail.map fun _ => default) e)
  | segment (.plain name) => segment (.plain name)
  | segment (.angled name turbofish arguments) =>
    segment (.angled name turbofish (arguments.map fun _ => default))
  | segment (.call name inputs output) =>
    segment (.call name (inputs.map fun _ => default) (output.map fun _ => default))
  | argument (.lifetime name) => argument (.lifetime name)
  | argument (.type _) => argument (.type default)
  | argument (.binding name arguments _) =>
    argument (.binding name (arguments.map fun list => list.map fun _ => default) default)
  | argument (.constraint name arguments bounds) =>
    argument (.constraint name (arguments.map fun list => list.map fun _ => default)
      (bounds.map fun _ => default))
  | argument (.const text) => argument (.const text)
  | bound (.lifetime name) => bound (.lifetime name)
  | bound (.trait maybe binder paren _) => bound (.trait maybe binder paren default)
where
  bareRoot : Root → Root
    | .relative => .relative
    | .global => .global
    | .qualified _ asTrait => .qualified default (asTrait.map fun _ => default)

section

variable {α : Type} {one : Nat → α → α × List Lifted} {each : Nat → List α → List α × List Lifted}

-- A list that is lifted element by element is lifted as the nodes of its elements are.
theorem liftEach_map (wrap : α → Node) (nil : ∀ k, each k [] = ([], []))
    (cons : ∀ k a rest, each k (a :: rest) =
      ((one k a).1 :: (each (k + (one k a).2.length) rest).1,
        (one k a).2 ++ (each (k + (one k a).2.length) rest).2))
    (same : ∀ k a, (wrap a).lift k = ((one k a).map wrap id)) (first : Nat) (list : List α) :
    liftEach first (list.map wrap) = ((each first list).map (List.map wrap) id) := by
  induction list generalizing first with
  | nil => simp [liftEach, nil]
  | cons a rest ih => simp [liftEach, cons, same, ih]

end

theorem liftEach_types (first : Nat) (types : List Ty) :
    liftEach first (types.map ty) = ((Ty.liftEach first types).map (List.map ty) id) :=
  liftEach_map ty (fun _ => rfl) (fun _ _ _ => rfl) (fun _ _ => rfl) first types

theorem liftEach_segments (first : Nat) (segments : List Segment) :
    liftEach first (segments.map segment) =
      ((Segment.liftEach first segments).map (List.map segment) id) :=
  liftEach_map segment (fun _ => rfl) (fun _ _ _ => rfl) (fun _ _ => rfl) first segments

theorem liftEach_arguments (first : Nat) (arguments : List GenericArg) :
    liftEach first (arguments.map argument) =
      ((GenericArg.liftEach first arguments).map (List.map argument) id) :=
  liftEach_map argument (fun _ => rfl) (fun _ _ _ => rfl) (fun _ _ => rfl) first arguments

theorem length_liftEach (first : Nat) (nodes : List Node) :
    (liftEach first nodes).1.length = nodes.length := by
  induction nodes generalizing first with
  | nil => rfl
  | cons n rest ih => rw [liftEach, List.length_cons, List.length_cons, ih]

theorem count_of_liftEach {α : Type} {wrap : α → Node} {first : Nat} {list : List α}
    {pair : List α × List Lifted}
    (whole : liftEach first (list.map wrap) = pair.map (List.map wrap) id) :
    pair.1.length = list.length := by
  have count := congrArg (fun result => result.1.length) whole
  simpa [length_liftEach] using count.symm

-- What lifting does at a node that is no `impl` type: it goes on inside what is looked into.
structure LiftedAt (first : Nat) (n : Node) : Prop where
  bare : (n.lift first).1.bare = n.bare
  closed : (n.lift first).1.closed = n.closed
  opened : (n.lift first).1.opened = (liftEach first n.opened).1
  lifted : (n.lift first).2 = (liftEach first n.opened).2

theorem liftedAt {n : Node} (plain : ¬n.isImpl) (first : Nat) : n.LiftedAt first := by
  cases n with
  | ty t =>
    cases t with
    | implTrait bounds e => exact absurd rfl plain
    | tuple elements e =>
      have whole := liftEach_types first elements
      have count := count_of_liftEach whole
      refine ⟨?_, rfl, ?_, ?_⟩
      · simp [bare, lift, Ty.lift, List.map_const', count]
      · simp [opened, lift, Ty.lift, whole]
      · simp [opened, lift, Ty.lift, whole]
    | _ => constructor <;> simp [bare, closed, opened, lift, Ty.lift, liftEach]
  | path p =>
    obtain ⟨root, head, tail, e⟩ := p
    have whole := liftEach_segments (first + (head.lift first).2.length) tail
    have count := count_of_liftEach whole
    refine ⟨?_, rfl, ?_, ?_⟩
    · simp [bare, lift, Path.lift, List.map_const', count]
    · simp [opened, lift, Path.lift, liftEach, whole]
    · simp [opened, lift, Path.lift, liftEach, whole]
  | segment s =>
    cases s with
    | angled name turbofish arguments =>
      have whole := liftEach_arguments first arguments
      have count := count_of_liftEach whole
      refine ⟨?_, rfl, ?_, ?_⟩
      · simp [bare, lift, Segment.lift, List.map_const', count]
      · simp [opened, lift, Segment.lift, whole]
      · simp [opened, lift, Segment.lift, whole]
    | _ => exact ⟨rfl, rfl, rfl, rfl⟩
  | argument a =>
    cases a with
    | type inner => constructor <;> simp [bare, closed, opened, lift, GenericArg.lift, liftEach]
    | _ => exact ⟨rfl, rfl, rfl, rfl⟩
  | bound b => cases b <;> exact ⟨rfl, rfl, rfl, rfl⟩

theorem isImpl_bare (n : Node) : n.bare.isImpl = n.isImpl := by
  cases n with
  | ty t => cases t <;> rfl
  | path p => cases p; rfl
  | segment s => cases s <;> rfl
  | argument a => cases a <;> rfl
  | bound b => cases b <;> rfl

theorem LiftedAt.not_impl {first : Nat} {n : Node} (lifts : n.LiftedAt first) (plain : ¬n.isImpl) :
    ¬(n.lift first).1.isImpl := by
  rwa [← isImpl_bare, lifts.bare, isImpl_bare]

-- The name that an `impl` type is lifted to.
def lifted (number : Nat) (e : Extent) : Node :=
  ty (.path (.mk .relative (.plain (liftedName number)) [] e))

theorem lift_impl (first : Nat) (bounds : List Bound) (e : Extent) :
    (ty (.implTrait bounds e)).lift first = (lifted first e, [⟨bounds, e⟩]) := rfl

-- No `impl` type stands anywhere inside.
def FreeOfImpl (n : Node) : Prop := ∀ m, Within .everywhere m n → ¬m.isImpl

theorem freeOfImpl_iff {n : Node} : n.FreeOfImpl ↔
    ¬n.isImpl ∧ (∀ m ∈ n.closed, m.FreeOfImpl) ∧ ∀ m ∈ n.opened, m.FreeOfImpl := by
  rw [← List.forall_mem_append, ← parts_everywhere]
  constructor
  · intro free
    exact ⟨free n .self, fun m part inner within => free inner (.part part within)⟩
  · rintro ⟨here, parts⟩ m within
    cases within with
    | self => exact here
    | part part within => exact parts _ part m within

theorem free_lifted (number : Nat) (e : Extent) : (lifted number e).FreeOfImpl := by
  have segment : (Node.segment (.plain (liftedName number))).FreeOfImpl :=
    freeOfImpl_iff.mpr ⟨Bool.false_ne_true, List.forall_mem_nil _, List.forall_mem_nil _⟩
  have path : (Node.path (.mk .relative (.plain (liftedName number)) [] e)).FreeOfImpl :=
    freeOfImpl_iff.mpr ⟨Bool.false_ne_true, List.forall_mem_nil _, List.forall_mem_singleton.mpr segment⟩
  exact freeOfImpl_iff.mpr ⟨Bool.false_ne_true, List.forall_mem_nil _, List.forall_mem_singleton.mpr path⟩

-- Nothing in the bounds of what was lifted is an `impl` type.
def AllNamed (result : List Lifted) : Prop :=
  ∀ l ∈ result, ∀ b ∈ l.bounds, (bound b).FreeOfImpl

theorem allNamed_append {a b : List Lifted} : AllNamed (a ++ b) ↔ AllNamed a ∧ AllNamed b :=
  List.forall_mem_append

-- No `impl` type stands inside a part that is kept.
def SheltersNone (n : Node) : Prop := ∀ m, Sheltered m n → ¬m.isImpl

theorem sheltersNone_iff {n : Node} : n.SheltersNone ↔
    (∀ m ∈ n.closed, m.FreeOfImpl) ∧ ∀ m ∈ n.opened, m.SheltersNone := by
  constructor
  · intro none
    exact ⟨fun m kept inner within => none inner (.kept kept within),
      fun m part inner sheltered => none inner (.part part sheltered)⟩
  · rintro ⟨kept, parts⟩ m sheltered
    cases sheltered with
    | kept listed within => exact kept _ listed m within
    | part listed sheltered => exact parts _ listed m sheltered

theorem liftEach_free_iff {nodes : List Node} (each : ∀ n ∈ nodes, ∀ first,
      ((n.lift first).1.FreeOfImpl ∧ AllNamed (n.lift first).2) ↔ n.SheltersNone) (first : Nat) :
    ((∀ m ∈ (liftEach first nodes).1, m.FreeOfImpl) ∧ AllNamed (liftEach first nodes).2) ↔
      ∀ n ∈ nodes, n.SheltersNone := by
  induction nodes generalizing first with
  | nil => simp [liftEach, AllNamed]
  | cons n rest ih =>
    have here := each n (.head _) first
    have later := ih (fun m listed => each m (.tail _ listed)) (first + (n.lift first).2.length)
    rw [liftEach, List.forall_mem_cons, List.forall_mem_cons, allNamed_append, ← here, ← later]
    exact and_and_and_comm

-- `impl` types are left exactly where one is sheltered.
theorem lift_free_iff (n : Node) (first : Nat) :
    ((n.lift first).1.FreeOfImpl ∧ AllNamed (n.lift first).2) ↔ n.SheltersNone := by
  induction n using Node.induction .everywhere generalizing first with
  | step n ih =>
    by_cases impl : n.isImpl
    · obtain ⟨bounds, e, rfl⟩ := isImpl_iff.mp impl
      rw [lift_impl, sheltersNone_iff]
      simp [AllNamed, free_lifted, closed, opened]
    · have lifts := liftedAt impl first
      have inside := liftEach_free_iff (fun m (part : m ∈ n.opened) first =>
        ih m (parts_everywhere n ▸ List.mem_append_right _ part) first) first
      rw [sheltersNone_iff, ← inside, freeOfImpl_iff, lifts.closed, lifts.opened, lifts.lifted,
        and_iff_right (lifts.not_impl impl), and_assoc]

theorem liftEach_reached {nodes : List Node} (each : ∀ n ∈ nodes, ∀ first m,
      Reached m (n.lift first).1 → ¬m.isImpl) (first : Nat) :
    ∀ n ∈ (liftEach first nodes).1, ∀ m, Reached m n → ¬m.isImpl := by
  induction nodes generalizing first with
  | nil => simp [liftEach]
  | cons n rest ih =>
    rw [liftEach, List.forall_mem_cons]
    exact ⟨each n (.head _) first, ih (fun m listed => each m (.tail _ listed)) _⟩

-- Where lifting has looked, no `impl` type is left.
theorem lift_reached (n : Node) (first : Nat) : ∀ m, Reached m (n.lift first).1 → ¬m.isImpl := by
  induction n using Node.induction .everywhere generalizing first with
  | step n ih =>
    by_cases impl : n.isImpl
    · obtain ⟨bounds, e, rfl⟩ := isImpl_iff.mp impl
      exact fun m reached => free_lifted first e m (within_everywhere_iff.mpr (.inl reached))
    · have lifts := liftedAt impl first
      intro m reached
      cases reached with
      | self => exact lifts.not_impl impl
      | part part reached =>
        rw [lifts.opened] at part
        exact liftEach_reached (fun m part first =>
          ih m (parts_everywhere n ▸ List.mem_append_right _ part) first) first _ part m reached

-- The node that a route leads to: the number of a node of the row, and then of a part again and again.
-- Parts are numbered as they are read, from left to right; so increasing routes lead to places in
-- reading order.
def at? (nodes : List Node) : List Nat → Option Node
  | [] => none
  | i :: route => nodes[i]?.bind (follow .everywhere route)

-- Numbers count from a node further on.
def shift (distance : Nat) : List Nat → List Nat
  | [] => []
  | i :: route => (i + distance) :: route

-- The rows are the same except at the routes: there are the `impl` types in `before`, and their names,
-- numbered from `first`, in `after`.
structure Renamed (first : Nat) (before after : List Node) (types : List Lifted)
    (routes : List (List Nat)) : Prop where
  count : routes.length = types.length
  ordered : routes.Pairwise (· < ·)
  named : ∀ (k : Nat) (route : List Nat) (l : Lifted), routes[k]? = some route → types[k]? = some l →
    at? before route = some (.ty l.toTy) ∧ at? after route = some (lifted (first + k) l.extent)
  kept : ∀ route, (∀ r ∈ routes, ¬r <+: route) → (at? before route).map bare = (at? after route).map bare

theorem at?_append_left {xs : List Node} {i : Nat} (inside : i < xs.length) (ys : List Node)
    (route : List Nat) : at? (xs ++ ys) (i :: route) = at? xs (i :: route) := by
  rw [at?, at?, List.getElem?_append_left inside]

theorem at?_append_right (xs ys : List Node) (route : List Nat) :
    at? (xs ++ ys) (shift xs.length route) = at? ys route := by
  cases route with
  | nil => rfl
  | cons i route =>
    rw [shift, at?, at?, List.getElem?_append_right (Nat.le_add_left _ _), Nat.add_sub_cancel]

theorem shift_lt {a b : List Nat} (less : a < b) (distance : Nat) : shift distance a < shift distance b := by
  cases a with
  | nil =>
    cases b with
    | nil => exact absurd less (List.not_lt_nil _)
    | cons j b => exact List.nil_lt_cons _ _
  | cons i a =>
    cases b with
    | nil => exact absurd less (List.not_lt_nil _)
    | cons j b =>
      rcases List.cons_lt_cons_iff.mp less with before | ⟨rfl, before⟩
      · exact List.cons_lt_cons_iff.mpr (.inl (Nat.add_lt_add_right before _))
      · exact List.cons_lt_cons_iff.mpr (.inr ⟨rfl, before⟩)

theorem at?_some {nodes : List Node} {route : List Nat} {n : Node} (found : at? nodes route = some n) :
    ∃ i rest, route = i :: rest ∧ i < nodes.length := by
  cases route with
  | nil => cases found
  | cons i rest =>
    obtain ⟨m, here, _⟩ := Option.bind_eq_some_iff.mp found
    exact ⟨i, rest, rfl, (List.getElem?_eq_some_iff.mp here).1⟩

namespace Renamed

variable {first : Nat} {before after : List Node} {types : List Lifted} {routes : List (List Nat)}

theorem same (first : Nat) (nodes : List Node) : Renamed first nodes nodes [] [] :=
  ⟨rfl, .nil, by simp, fun _ _ => rfl⟩

-- Every route leads to one of the nodes.
theorem starts (renamed : Renamed first before after types routes) {route : List Nat}
    (listed : route ∈ routes) : ∃ i rest, route = i :: rest ∧ i < before.length := by
  obtain ⟨k, found⟩ := List.mem_iff_getElem?.mp listed
  have short : k < types.length := renamed.count ▸ (List.getElem?_eq_some_iff.mp found).1
  exact at?_some (renamed.named k route _ found (List.getElem?_eq_getElem short)).1

theorem append {ys zs : List Node} {more : List Lifted} {others : List (List Nat)}
    (renamed : Renamed first before after types routes) (count : before.length = after.length)
    (later : Renamed (first + types.length) ys zs more others) :
    Renamed first (before ++ ys) (after ++ zs) (types ++ more)
      (routes ++ others.map (shift before.length)) where
  count := by
    rw [List.length_append, List.length_append, List.length_map, renamed.count, later.count]
  ordered := by
    refine List.pairwise_append.mpr ⟨renamed.ordered, ?_, fun a early b late => ?_⟩
    · exact List.pairwise_map.mpr (later.ordered.imp fun less => shift_lt less _)
    · obtain ⟨i, rest, rfl, inside⟩ := renamed.starts early
      obtain ⟨route, listed, rfl⟩ := List.mem_map.mp late
      obtain ⟨j, behind, rfl, _⟩ := later.starts listed
      exact List.cons_lt_cons_iff.mpr (.inl (by omega))
  named := by
    intro k route l found given
    by_cases early : k < routes.length
    · rw [List.getElem?_append_left early] at found
      rw [List.getElem?_append_left (renamed.count ▸ early)] at given
      obtain ⟨old, new⟩ := renamed.named k route l found given
      obtain ⟨i, rest, rfl, inside⟩ := at?_some old
      rw [at?_append_left inside, at?_append_left (count ▸ inside)]
      exact ⟨old, new⟩
    · have late := Nat.not_lt.mp early
      rw [List.getElem?_append_right late, List.getElem?_map, Option.map_eq_some_iff] at found
      rw [List.getElem?_append_right (renamed.count ▸ late), ← renamed.count] at given
      obtain ⟨own, found, rfl⟩ := found
      have both := later.named _ own l found given
      rw [at?_append_right, count, at?_append_right]
      rwa [← renamed.count, Nat.add_assoc, Nat.add_sub_cancel' late] at both
  kept := by
    intro route clear
    cases route with
    | nil => rfl
    | cons i route =>
      by_cases inside : i < before.length
      · rw [at?_append_left inside, at?_append_left (count ▸ inside)]
        exact renamed.kept _ fun r listed => clear r (List.mem_append_left _ listed)
      · have far : i :: route = shift before.length ((i - before.length) :: route) := by
          rw [shift, Nat.sub_add_cancel (Nat.not_lt.mp inside)]
        rw [far] at clear ⊢
        rw [at?_append_right, count, at?_append_right, ← count]
        refine later.kept _ fun r listed leads => ?_
        obtain ⟨j, rest, rfl, _⟩ := later.starts listed
        obtain ⟨rfl, onward⟩ := List.cons_prefix_cons.mp leads
        exact clear _ (List.mem_append_right _ (List.mem_map_of_mem listed))
          (List.cons_prefix_cons.mpr ⟨rfl, onward⟩)

-- What is renamed among the parts of a node is renamed inside the node.
theorem inside {n m : Node} (renamed : Renamed first (n.parts .everywhere) (m.parts .everywhere) types routes)
    (same : m.bare = n.bare) : Renamed first [n] [m] types (routes.map (0 :: ·)) where
  count := by rw [List.length_map, renamed.count]
  ordered := List.pairwise_map.mpr
    (renamed.ordered.imp fun less => List.cons_lt_cons_iff.mpr (.inr ⟨rfl, less⟩))
  named := by
    intro k route l found given
    rw [List.getElem?_map, Option.map_eq_some_iff] at found
    obtain ⟨own, found, rfl⟩ := found
    obtain ⟨old, new⟩ := renamed.named k own l found given
    obtain ⟨i, rest, rfl, _⟩ := at?_some old
    exact ⟨old, new⟩
  kept := by
    intro route clear
    match route with
    | [] => rfl
    | (i + 1) :: route => rfl
    | [0] => exact congrArg some same.symm
    | 0 :: i :: route =>
      refine renamed.kept (i :: route) fun r listed leads => ?_
      exact clear _ (List.mem_map_of_mem listed) (List.cons_prefix_cons.mpr ⟨rfl, leads⟩)

end Renamed

end Node

theorem liftEach_nodes (first : Nat) (types : List Ty) :
    (Ty.liftEach first types).1.map Node.ty = (Node.liftEach first (types.map .ty)).1 ∧
      (Ty.liftEach first types).2 = (Node.liftEach first (types.map .ty)).2 := by
  rw [Node.liftEach_types]
  exact ⟨rfl, rfl⟩

-- Where lifting looks it leaves no `impl` type; so one is left, in a type or in the bounds of one that
-- was lifted, exactly where one stands inside a part that is kept.
theorem lifting_names_impls (first : Nat) (types : List Ty) :
    (∀ ty ∈ (Ty.liftEach first types).1, ∀ m, Node.Reached m (.ty ty) → ¬m.isImpl) ∧
      (((∀ ty ∈ (Ty.liftEach first types).1, (Node.ty ty).FreeOfImpl) ∧
          ∀ l ∈ (Ty.liftEach first types).2, ∀ b ∈ l.bounds, (Node.bound b).FreeOfImpl) ↔
        ∀ ty ∈ types, ∀ m, Node.Sheltered m (.ty ty) → ¬m.isImpl) := by
  obtain ⟨same, also⟩ := liftEach_nodes first types
  have reached := Node.liftEach_reached (fun n (_ : n ∈ types.map Node.ty) => n.lift_reached) first
  have free := Node.liftEach_free_iff (fun n (_ : n ∈ types.map Node.ty) => n.lift_free_iff) first
  rw [← same, List.forall_mem_map] at reached
  rw [← same, ← also, List.forall_mem_map, List.forall_mem_map] at free
  exact ⟨reached, free⟩

def shelteredText : String := "Box<dyn A<B = impl C>>"

-- The value of an associated type is kept.
theorem lifting_leaves_impl : ∃ ty, Ty.read shelteredText = .ok ty ∧
    (Ty.liftEach 0 [ty]).1.map Ty.render = [shelteredText] ∧ (Ty.liftEach 0 [ty]).2.length = 0 ∧
    ¬∀ t ∈ (Ty.liftEach 0 [ty]).1, (Node.ty t).FreeOfImpl := by
  have accepted : (Ty.read shelteredText).toOption.any fun ty =>
      (Ty.liftEach 0 [ty]).1.map Ty.render = [shelteredText] ∧ (Ty.liftEach 0 [ty]).2.length = 0 ∧
        (Ty.liftEach 0 [ty]).1.any fun t =>
          ((Node.ty t).follow .everywhere [0, 0, 0, 0, 0, 0, 0, 0, 0]).any Node.isImpl := by
    decide +kernel
  obtain ⟨ty, found, facts⟩ := (Option.any_eq_true _ _).mp accepted
  obtain ⟨shown, none, left⟩ := of_decide_eq_true facts
  obtain ⟨t, listed, inside⟩ := List.any_eq_true.mp left
  obtain ⟨m, followed, impl⟩ := (Option.any_eq_true _ _).mp inside
  exact ⟨ty, toOption_eq_some found, shown, none, fun free =>
    free t listed m (Node.within_of_follow followed) impl⟩

end Deasync
