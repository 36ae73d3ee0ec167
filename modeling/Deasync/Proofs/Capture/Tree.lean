import Deasync.Capture

namespace Deasync

inductive Node where
  | ty (ty : Ty)
  | path (path : Path)
  | segment (segment : Segment)
  | argument (argument : GenericArg)
  | bound (bound : Bound)

-- What is looked into besides the plain places: the closure notation, the bounds with a `for<..>` of
-- their own, and the arguments of associated types.
structure Reach where
  closures : Bool
  binders : Bool
  associated : Bool

namespace Reach

-- As far as a signature is tied to its call.
def tied : Reach := ⟨false, false, false⟩

-- Everywhere but in the closure notation, which has lifetimes of its own.
def outside : Reach := ⟨false, true, true⟩

-- Into everything that was read.
def everywhere : Reach := ⟨true, true, true⟩

end Reach

def Root.parts : Root → List Node
  | .relative | .global => []
  | .qualified self asTrait => .ty self :: asTrait.toList.map .path

namespace Node

def parts (r : Reach) : Node → List Node
  | ty (.path p) => [path p]
  | ty (.reference _ _ inner _) | ty (.pointer _ inner _) | ty (.paren inner _)
  | ty (.slice inner _) | ty (.array inner _ _) => [ty inner]
  | ty (.tuple elements _) => elements.map ty
  | ty (.traitObject bounds _) | ty (.implTrait bounds _) => bounds.map bound
  | ty (.never _) | ty (.infer _) | ty (.functionPointer ..) | ty (.macroCall ..) => []
  | path (.mk root head tail _) => root.parts ++ (head :: tail).map segment
  | segment (.plain _) => []
  | segment (.angled _ _ arguments) => arguments.map argument
  | segment (.call _ inputs output) => if r.closures then (inputs ++ output.toList).map ty else []
  | argument (.lifetime _) | argument (.const _) => []
  | argument (.type inner) => [ty inner]
  | argument (.binding _ arguments inner) => associated r arguments ++ [ty inner]
  | argument (.constraint _ arguments bounds) => associated r arguments ++ bounds.map bound
  | bound (.lifetime _) => []
  | bound (.trait _ none _ p) => [path p]
  | bound (.trait _ (some _) _ p) => if r.binders then [path p] else []
where
  associated (r : Reach) (arguments : Option (List GenericArg)) : List Node :=
    if r.associated then (arguments.getD []).map argument else []

-- The parts that are not looked into when a signature is tied.
def passedOver (r : Reach) : Node → List Node
  | segment (.call _ inputs output) => if r.closures then (inputs ++ output.toList).map ty else []
  | argument (.binding _ arguments _) | argument (.constraint _ arguments _) =>
    parts.associated r arguments
  | bound (.trait _ (some _) _ p) => if r.binders then [path p] else []
  | _ => []

theorem mem_parts {r : Reach} {n m : Node} :
    m ∈ n.parts r ↔ m ∈ n.passedOver r ∨ m ∈ n.parts .tied := by
  cases n with
  | ty t => cases t <;> simp [parts, passedOver]
  | path p => cases p; simp [parts, passedOver]
  | segment s => cases s <;> simp [parts, passedOver, Reach.tied]
  | argument a => cases a <;> simp [parts, passedOver, parts.associated, Reach.tied]
  | bound b =>
    cases b with
    | lifetime name => simp [parts, passedOver]
    | trait maybe binder paren p => cases binder <;> simp [parts, passedOver, Reach.tied]

-- The lifetime that stands at a node itself, `none` for a reference that has none.
def lifetime? : Node → Option (Option String)
  | ty (.reference lifetime ..) => some lifetime
  | argument (.lifetime name) | bound (.lifetime name) => some (some name)
  | _ => none

-- The name in scope that a path begins with.
def mention? : Node → Option String
  | path (.mk .relative head _ _) => some head.name
  | _ => none

-- `inner` is `outer` or stands somewhere inside it.
inductive Within (r : Reach) (inner : Node) : Node → Prop where
  | self : Within r inner inner
  | part {outer m : Node} : m ∈ outer.parts r → Within r inner m → Within r inner outer

-- `inner` stands inside a place that is passed over.
inductive Overlooked (r : Reach) (inner : Node) : Node → Prop where
  | enters {outer m : Node} : m ∈ outer.passedOver r → Within r inner m → Overlooked r inner outer
  | part {outer m : Node} : m ∈ outer.parts .tied → Overlooked r inner m → Overlooked r inner outer

theorem within_iff {r : Reach} {inner outer : Node} :
    Within r inner outer ↔ Within .tied inner outer ∨ Overlooked r inner outer := by
  constructor
  · intro within
    induction within with
    | self => exact .inl .self
    | part listed within ih =>
      rcases mem_parts.mp listed with passed | part
      · exact .inr (.enters passed within)
      · exact ih.imp (.part part) (.part part)
  · rintro (within | overlooked)
    · induction within with
      | self => exact .self
      | part part _ ih => exact .part (mem_parts.mpr (.inr part)) ih
    · induction overlooked with
      | enters passed within => exact .part (mem_parts.mpr (.inl passed)) within
      | part part _ ih => exact .part (mem_parts.mpr (.inr part)) ih

-- The node that is reached by taking, again and again, the part of a given number.
def follow (r : Reach) : List Nat → Node → Option Node
  | [], n => some n
  | i :: rest, n => ((n.parts r)[i]?).bind (follow r rest)

theorem within_of_follow {r : Reach} {route : List Nat} {outer inner : Node}
    (followed : outer.follow r route = some inner) : Within r inner outer := by
  induction route generalizing outer with
  | nil => cases followed; exact .self
  | cons i route ih =>
    obtain ⟨m, found, rest⟩ := Option.bind_eq_some_iff.mp followed
    exact .part (List.mem_of_getElem? found) (ih rest)

attribute [local grind →] List.sizeOf_lt_of_mem

theorem sizeOf_part {r : Reach} {n m : Node} (part : m ∈ n.parts r) : sizeOf m < sizeOf n := by
  cases n with
  | ty t => cases t <;> grind [parts]
  | path p =>
    obtain ⟨root, head, tail, e⟩ := p
    cases root with
    | qualified self asTrait => cases asTrait <;> grind [parts, Root.parts]
    | _ => grind [parts, Root.parts]
  | segment s =>
    cases s with
    | call name inputs output => cases output <;> grind [parts]
    | _ => grind [parts]
  | argument a =>
    cases a with
    | binding name arguments inner => cases arguments <;> grind [parts, parts.associated]
    | constraint name arguments bounds => cases arguments <;> grind [parts, parts.associated]
    | _ => grind [parts]
  | bound b =>
    cases b with
    | lifetime name => grind [parts]
    | trait maybe binder paren path => cases binder <;> grind [parts]

theorem induction (r : Reach) {motive : Node → Prop}
    (step : ∀ n, (∀ m ∈ n.parts r, motive m) → motive n) (n : Node) : motive n := by
  induction size : sizeOf n using Nat.strongRecOn generalizing n with
  | ind most ih =>
    subst size
    exact step n fun m part => ih (sizeOf m) (sizeOf_part part) m rfl

-- What is collected node by node is what stands at the nodes within.
theorem mem_iff_within {r : Reach} {α : Type} {own : Node → Option α} {all : Node → List α}
    (step : ∀ n, all n = (own n).toList ++ (n.parts r).flatMap all) {n : Node} {a : α} :
    a ∈ all n ↔ ∃ m, Within r m n ∧ own m = some a := by
  constructor
  · intro listed
    induction n using Node.induction r with
    | step n ih =>
      rw [step, List.mem_append, Option.mem_toList, List.mem_flatMap] at listed
      rcases listed with here | ⟨m, part, inside⟩
      · exact ⟨n, .self, here⟩
      · obtain ⟨inner, within, found⟩ := ih m part inside
        exact ⟨inner, .part part within, found⟩
  · rintro ⟨m, within, found⟩
    induction within with
    | self => rw [step, found]; exact List.mem_append_left _ (.head _)
    | part part _ ih =>
      rw [step]
      exact List.mem_append_right _ (List.mem_flatMap.mpr ⟨_, part, ih⟩)

end Node

end Deasync
