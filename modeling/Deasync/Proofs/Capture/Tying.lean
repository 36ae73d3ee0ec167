import Deasync.Proofs.Capture.Tree

namespace Deasync

section

variable {α β : Type}

theorem each_eq_map {each : List α → List β} {f : α → β} (nil : each [] = [])
    (cons : ∀ a rest, each (a :: rest) = f a :: each rest) (list : List α) :
    each list = list.map f := by
  induction list with
  | nil => exact nil
  | cons a rest ih => rw [cons, ih, List.map_cons]

theorem each_eq_flatMap {each : List α → List β} {f : α → List β} (nil : each [] = [])
    (cons : ∀ a rest, each (a :: rest) = f a ++ each rest) (list : List α) :
    each list = list.flatMap f := by
  induction list with
  | nil => exact nil
  | cons a rest ih => rw [cons, ih, List.flatMap_cons]

theorem findSome?_cons_or (f : α → Option β) (a : α) (rest : List α) :
    (a :: rest).findSome? f = (f a).or (rest.findSome? f) := by
  rw [List.findSome?_cons]
  cases f a <;> rfl

theorem each_eq_findSome? {each : List α → Option β} {f : α → Option β} (nil : each [] = none)
    (cons : ∀ a rest, each (a :: rest) = (f a).or (each rest)) (list : List α) :
    each list = list.findSome? f := by
  induction list with
  | nil => exact nil
  | cons a rest ih => rw [cons, ih, findSome?_cons_or]

variable {scope : String} {inArgument : Bool} {carriers : Carriers}

@[simp] theorem Ty.tieEach_eq (list : List Ty) :
    Ty.tieEach scope inArgument list = list.map (Ty.tie scope inArgument) :=
  each_eq_map rfl (fun _ _ => rfl) list

@[simp] theorem Segment.tieEach_eq (list : List Segment) :
    Segment.tieEach scope inArgument list = list.map (Segment.tie scope inArgument) :=
  each_eq_map rfl (fun _ _ => rfl) list

@[simp] theorem GenericArg.tieEach_eq (list : List GenericArg) :
    GenericArg.tieEach scope inArgument list = list.map (GenericArg.tie scope inArgument) :=
  each_eq_map rfl (fun _ _ => rfl) list

@[simp] theorem Bound.tieEach_eq (list : List Bound) :
    Bound.tieEach scope list = list.map (Bound.tie scope) :=
  each_eq_map rfl (fun _ _ => rfl) list

@[simp] theorem Ty.lifetimesEach_eq (list : List Ty) :
    Ty.lifetimesEach list = list.flatMap Ty.lifetimes :=
  each_eq_flatMap rfl (fun _ _ => rfl) list

@[simp] theorem Segment.lifetimesEach_eq (list : List Segment) :
    Segment.lifetimesEach list = list.flatMap Segment.lifetimes :=
  each_eq_flatMap rfl (fun _ _ => rfl) list

@[simp] theorem GenericArg.lifetimesEach_eq (list : List GenericArg) :
    GenericArg.lifetimesEach list = list.flatMap GenericArg.lifetimes :=
  each_eq_flatMap rfl (fun _ _ => rfl) list

@[simp] theorem Bound.lifetimesEach_eq (list : List Bound) :
    Bound.lifetimesEach list = list.flatMap Bound.lifetimes :=
  each_eq_flatMap rfl (fun _ _ => rfl) list

@[simp] theorem Ty.mentionedEach_eq (list : List Ty) :
    Ty.mentionedEach list = list.flatMap Ty.mentioned :=
  each_eq_flatMap rfl (fun _ _ => rfl) list

@[simp] theorem Segment.mentionedEach_eq (list : List Segment) :
    Segment.mentionedEach list = list.flatMap Segment.mentioned :=
  each_eq_flatMap rfl (fun _ _ => rfl) list

@[simp] theorem GenericArg.mentionedEach_eq (list : List GenericArg) :
    GenericArg.mentionedEach list = list.flatMap GenericArg.mentioned :=
  each_eq_flatMap rfl (fun _ _ => rfl) list

@[simp] theorem Bound.mentionedEach_eq (list : List Bound) :
    Bound.mentionedEach list = list.flatMap Bound.mentioned :=
  each_eq_flatMap rfl (fun _ _ => rfl) list

@[simp] theorem Ty.hiddenEach?_eq (list : List Ty) :
    Ty.hiddenEach? carriers list = list.findSome? (Ty.hidden? carriers) :=
  each_eq_findSome? rfl (fun _ _ => rfl) list

@[simp] theorem Segment.hiddenEach?_eq (list : List Segment) :
    Segment.hiddenEach? carriers list = list.findSome? (Segment.hidden? carriers) :=
  each_eq_findSome? rfl (fun _ _ => rfl) list

@[simp] theorem GenericArg.hiddenEach?_eq (list : List GenericArg) :
    GenericArg.hiddenEach? carriers list = list.findSome? (GenericArg.hidden? carriers) :=
  each_eq_findSome? rfl (fun _ _ => rfl) list

@[simp] theorem Bound.hiddenEach?_eq (list : List Bound) :
    Bound.hiddenEach? carriers list = list.findSome? (Bound.hidden? carriers) :=
  each_eq_findSome? rfl (fun _ _ => rfl) list

end

namespace Node

def tie (scope : String) (inArgument : Bool) : Node → Node
  | ty t => ty (t.tie scope inArgument)
  | path p => path (p.tie scope inArgument)
  | segment s => segment (s.tie scope inArgument)
  | argument a => argument (a.tie scope inArgument)
  | bound b => bound (b.tie scope)

def lifetimes : Node → List (Option String)
  | ty t => t.lifetimes
  | path p => p.lifetimes
  | segment s => s.lifetimes
  | argument a => a.lifetimes
  | bound b => b.lifetimes

def mentioned : Node → List String
  | ty t => t.mentioned
  | path p => p.mentioned
  | segment s => s.mentioned
  | argument a => a.mentioned
  | bound b => b.mentioned

def hidden? (carriers : Carriers) : Node → Option (String × Nat)
  | ty t => t.hidden? carriers
  | path p => p.hidden? carriers
  | segment s => s.hidden? carriers
  | argument a => a.hidden? carriers
  | bound b => b.hidden? carriers

theorem lifetimes_step (n : Node) :
    n.lifetimes = n.lifetime?.toList ++ (n.parts .tied).flatMap lifetimes := by
  cases n with
  | ty t => cases t <;> simp [lifetimes, lifetime?, parts, Ty.lifetimes, List.flatMap_map]
  | path p =>
    obtain ⟨root, head, tail, e⟩ := p
    cases root with
    | qualified self asTrait =>
      cases asTrait <;>
        simp [lifetimes, lifetime?, parts, Path.lifetimes, Root.lifetimes, Root.parts,
          List.flatMap_map]
    | _ =>
      simp [lifetimes, lifetime?, parts, Path.lifetimes, Root.lifetimes, Root.parts,
        List.flatMap_map]
  | segment s =>
    cases s <;>
      simp [lifetimes, lifetime?, parts, Segment.lifetimes, Reach.tied, List.flatMap_map]
  | argument a =>
    cases a <;>
      simp [lifetimes, lifetime?, parts, GenericArg.lifetimes, parts.associated, Reach.tied,
        List.flatMap_map]
  | bound b =>
    cases b with
    | lifetime name => rfl
    | trait maybe binder paren path =>
      cases binder <;> simp [lifetimes, lifetime?, parts, Bound.lifetimes, Reach.tied]

theorem mentioned_step (n : Node) :
    n.mentioned = n.mention?.toList ++ (n.parts .tied).flatMap mentioned := by
  cases n with
  | ty t => cases t <;> simp [mentioned, mention?, parts, Ty.mentioned, List.flatMap_map]
  | path p =>
    obtain ⟨root, head, tail, e⟩ := p
    cases root with
    | qualified self asTrait =>
      cases asTrait <;>
        simp [mentioned, mention?, parts, Path.mentioned, Root.mentioned, Root.mentions,
          Root.parts, List.flatMap_map]
    | _ =>
      simp [mentioned, mention?, parts, Path.mentioned, Root.mentioned, Root.mentions, Root.parts,
        List.flatMap_map]
  | segment s =>
    cases s <;>
      simp [mentioned, mention?, parts, Segment.mentioned, Reach.tied, List.flatMap_map]
  | argument a =>
    cases a <;>
      simp [mentioned, mention?, parts, GenericArg.mentioned, parts.associated, Reach.tied,
        List.flatMap_map]
  | bound b =>
    cases b with
    | lifetime name => rfl
    | trait maybe binder paren path =>
      cases binder <;> simp [mentioned, mention?, parts, Bound.mentioned, Reach.tied]

theorem mem_lifetimes {n : Node} {l : Option String} :
    l ∈ n.lifetimes ↔ ∃ m, Within .tied m n ∧ m.lifetime? = some l :=
  mem_iff_within lifetimes_step

theorem mem_mentioned {n : Node} {name : String} :
    name ∈ n.mentioned ↔ ∃ m, Within .tied m n ∧ m.mention? = some name :=
  mem_iff_within mentioned_step

end Node

theorem isImplicit_tieLifetime {scope : String} (named : scope ≠ placeholder) (l : Option String) :
    isImplicit (some (tieLifetime scope l)) = false := by
  cases l with
  | none => simp [tieLifetime, isImplicit, named]
  | some name =>
    by_cases implicit : name = placeholder
    · simp [tieLifetime, isImplicit, implicit, named]
    · simp [tieLifetime, isImplicit, implicit]

-- Parts are tied one by one, and the lifetime of the call may be added among them.
inductive Tied (scope : String) : List Node → List Node → Prop where
  | nil : Tied scope [] []
  | cons {m : Node} (inArgument : Bool) {before after : List Node} : Tied scope before after →
      Tied scope (m :: before) (m.tie scope inArgument :: after)
  | added {before after : List Node} : Tied scope before after →
      Tied scope before (.bound (.lifetime scope) :: after)

namespace Tied

variable {scope : String}

theorem append {before after more still : List Node} (first : Tied scope before after)
    (second : Tied scope more still) : Tied scope (before ++ more) (after ++ still) := by
  induction first with
  | nil => exact second
  | cons inArgument _ ih => exact .cons inArgument ih
  | added _ ih => exact .added ih

theorem map {α : Type} (wrap : α → Node) {change : α → α} (inArgument : Bool)
    (ties : ∀ a, wrap (change a) = (wrap a).tie scope inArgument) (list : List α) :
    Tied scope (list.map wrap) ((list.map change).map wrap) := by
  induction list with
  | nil => exact .nil
  | cons a rest ih =>
    rw [List.map_cons, List.map_cons, List.map_cons, ties]
    exact .cons inArgument ih

theorem cases {before after : List Node} {m : Node} (tied : Tied scope before after)
    (listed : m ∈ after) :
    (∃ n ∈ before, ∃ inArgument, m = n.tie scope inArgument) ∨ m = .bound (.lifetime scope) := by
  induction tied with
  | nil => cases listed
  | @cons n inArgument _ _ _ ih =>
    rcases List.mem_cons.mp listed with rfl | listed
    · exact .inl ⟨n, .head _, inArgument, rfl⟩
    · rcases ih listed with ⟨n, found, again⟩ | same
      · exact .inl ⟨n, .tail _ found, again⟩
      · exact .inr same
  | added _ ih =>
    rcases List.mem_cons.mp listed with rfl | listed
    · exact .inr rfl
    · exact ih listed

theorem mem {before after : List Node} {m : Node} (tied : Tied scope before after)
    (listed : m ∈ before) : ∃ inArgument, m.tie scope inArgument ∈ after := by
  induction tied with
  | nil => cases listed
  | cons inArgument _ ih =>
    rcases List.mem_cons.mp listed with rfl | listed
    · exact ⟨inArgument, .head _⟩
    · obtain ⟨again, found⟩ := ih listed
      exact ⟨again, .tail _ found⟩
  | added _ ih =>
    obtain ⟨inArgument, found⟩ := ih listed
    exact ⟨inArgument, .tail _ found⟩

theorem flatMap {α : Type} {f : Node → List α} {before after : List Node}
    (tied : Tied scope before after) (added : f (.bound (.lifetime scope)) = [])
    (each : ∀ m ∈ before, ∀ inArgument, f (m.tie scope inArgument) = f m) :
    after.flatMap f = before.flatMap f := by
  induction tied with
  | nil => rfl
  | cons inArgument _ ih =>
    rw [List.flatMap_cons, List.flatMap_cons, each _ (.head _),
      ih fun m listed => each m (.tail _ listed)]
  | added _ ih => rw [List.flatMap_cons, added, ih each, List.nil_append]

theorem findSome? {α : Type} {f : Node → Option α} {before after : List Node}
    (tied : Tied scope before after) (added : f (.bound (.lifetime scope)) = none)
    (each : ∀ m ∈ before, ∀ inArgument, f (m.tie scope inArgument) = f m) :
    after.findSome? f = before.findSome? f := by
  induction tied with
  | nil => rfl
  | cons inArgument _ ih =>
    rw [findSome?_cons_or, findSome?_cons_or, each _ (.head _),
      ih fun m listed => each m (.tail _ listed)]
  | added _ ih => rw [findSome?_cons_or, added, ih each, Option.none_or]

theorem bounds (inArgument : Bool) (list : List Bound) :
    Tied scope (list.map .bound) ((list.map (Bound.tie scope)).map .bound) :=
  map .bound inArgument (fun _ => rfl) list

theorem root (inArgument : Bool) (root : Root) :
    Tied scope root.parts (root.tie scope inArgument).parts := by
  cases root with
  | relative => exact .nil
  | global => exact .nil
  | qualified self asTrait =>
    cases asTrait with
    | none => exact .cons inArgument .nil
    | some path => exact .cons inArgument (.cons false .nil)

end Tied

namespace Node

variable {scope : String}

theorem parts_tie (n : Node) (inArgument : Bool) :
    Tied scope (n.parts .tied) ((n.tie scope inArgument).parts .tied) := by
  cases n with
  | ty t =>
    cases t with
    | path | reference | pointer | paren | slice | array => exact .cons inArgument .nil
    | tuple elements e =>
      rw [tie, Ty.tie, Ty.tieEach_eq]
      exact .map ty inArgument (fun _ => rfl) elements
    | traitObject bounds e =>
      rw [tie, Ty.tie, Bound.tieEach_eq]
      exact .bounds inArgument bounds
    | implTrait bounds e =>
      rw [tie, Ty.tie, Bound.tieEach_eq, outliving]
      split
      · simp only [parts, List.map_append]
        rw [← List.append_nil (bounds.map bound)]
        exact (Tied.bounds inArgument bounds).append (.added .nil)
      · exact .bounds inArgument bounds
    | never | infer | functionPointer | macroCall => exact .nil
  | path p =>
    obtain ⟨root, head, tail, e⟩ := p
    rw [tie, Path.tie, Segment.tieEach_eq]
    exact (Tied.root inArgument root).append (.map segment inArgument (fun _ => rfl) (head :: tail))
  | segment s =>
    cases s with
    | plain name => exact .nil
    | angled name turbofish arguments =>
      rw [tie, Segment.tie, GenericArg.tieEach_eq]
      exact .map argument inArgument (fun _ => rfl) arguments
    | call name inputs output => exact .nil
  | argument a =>
    cases a with
    | lifetime name => exact .nil
    | type inner => exact .cons inArgument .nil
    | binding name arguments inner => exact .cons inArgument .nil
    | constraint name arguments bounds =>
      rw [tie, GenericArg.tie, Bound.tieEach_eq]
      exact .bounds inArgument bounds
    | const text => exact .nil
  | bound b =>
    cases b with
    | lifetime name => exact .nil
    | trait maybe binder paren path =>
      cases binder with
      | none => exact .cons false .nil
      | some names => exact .nil

theorem lifetime?_tie (n : Node) (inArgument : Bool) : (n.tie scope inArgument).lifetime? =
    n.lifetime?.map fun l => some (tieLifetime scope l) := by
  cases n with
  | ty t => cases t <;> rfl
  | path p => cases p; rfl
  | segment s => cases s <;> rfl
  | argument a => cases a <;> rfl
  | bound b =>
    cases b with
    | lifetime name => rfl
    | trait maybe binder paren path => cases binder <;> rfl

theorem mention?_tie (n : Node) (inArgument : Bool) :
    (n.tie scope inArgument).mention? = n.mention? := by
  cases n with
  | path p =>
    obtain ⟨root, head, tail, e⟩ := p
    cases root with
    | relative => cases head <;> rfl
    | global => rfl
    | qualified self asTrait => cases asTrait <;> rfl
  | _ => rfl

-- The names that are mentioned are those that were mentioned before.
theorem mentioned_tie (n : Node) (inArgument : Bool) :
    (n.tie scope inArgument).mentioned = n.mentioned := by
  induction n using Node.induction .tied generalizing inArgument with
  | step n ih =>
    rw [mentioned_step, mentioned_step n, mention?_tie, (parts_tie n inArgument).flatMap rfl ih]

theorem explicit_tie (named : scope ≠ placeholder) (n : Node) (inArgument : Bool) :
    ∀ l ∈ (n.tie scope inArgument).lifetimes, isImplicit l = false := by
  induction n using Node.induction .tied generalizing inArgument with
  | step n ih =>
    intro l listed
    rw [lifetimes_step, lifetime?_tie, List.mem_append, List.mem_flatMap] at listed
    rcases listed with own | ⟨m, part, inside⟩
    · obtain ⟨l, _, rfl⟩ := Option.map_eq_some_iff.mp (Option.mem_toList.mp own)
      exact isImplicit_tieLifetime named l
    · rcases (parts_tie n inArgument).cases part with ⟨before, listed, again, rfl⟩ | rfl
      · exact ih before listed again l inside
      · obtain rfl := List.mem_singleton.mp inside
        simpa [isImplicit] using named

-- The lifetime that is named, if it is another one than that of the call.
def otherName (scope : String) : Option String → Option String
  | none => none
  | some name => if name = placeholder ∨ name = scope then none else some name

theorem otherName_tieLifetime (l : Option String) :
    otherName scope (some (tieLifetime scope l)) = otherName scope l := by
  cases l with
  | none => simp [tieLifetime, otherName]
  | some name =>
    by_cases implicit : name = placeholder
    · simp [tieLifetime, otherName, implicit]
    · simp [tieLifetime, implicit]

-- Tying names no lifetime but that of the call.
theorem otherNames_tie (n : Node) (inArgument : Bool) :
    (n.tie scope inArgument).lifetimes.filterMap (otherName scope) =
      n.lifetimes.filterMap (otherName scope) := by
  induction n using Node.induction .tied generalizing inArgument with
  | step n ih =>
    rw [lifetimes_step, lifetimes_step n, lifetime?_tie, List.filterMap_append, List.filterMap_append,
      List.filterMap_flatMap, List.filterMap_flatMap]
    congr 1
    · cases n.lifetime? with
      | none => rfl
      | some l =>
        simp only [Option.map_some, Option.toList_some, List.filterMap_cons, otherName_tieLifetime]
    · exact (parts_tie n inArgument).flatMap (by simp [lifetimes, Bound.lifetimes, otherName]) ih

theorem passedOver_tie {r : Reach} (n : Node) (inArgument : Bool) :
    (n.tie scope inArgument).passedOver r = n.passedOver r := by
  cases n with
  | ty t => cases t <;> rfl
  | path p => rfl
  | segment s => cases s <;> rfl
  | argument a => cases a <;> rfl
  | bound b =>
    cases b with
    | lifetime name => rfl
    | trait maybe binder paren p => cases binder <;> rfl

-- What is passed over stays as it is.
theorem overlooked_tie {r : Reach} {inner : Node} (n : Node) (inArgument : Bool) :
    Overlooked r inner (n.tie scope inArgument) ↔ Overlooked r inner n := by
  induction n using Node.induction .tied generalizing inArgument with
  | step n ih =>
    have tied : Tied scope (n.parts .tied) ((n.tie scope inArgument).parts .tied) :=
      parts_tie n inArgument
    constructor
    · intro overlooked
      cases overlooked with
      | enters passed within => exact .enters (passedOver_tie n inArgument ▸ passed) within
      | part part inside =>
        rcases tied.cases part with ⟨m, listed, again, rfl⟩ | rfl
        · exact .part listed ((ih m listed again).mp inside)
        · cases inside with
          | enters passed _ => cases passed
          | part part _ => cases part
    · intro overlooked
      cases overlooked with
      | enters passed within => exact .enters ((passedOver_tie n inArgument).symm ▸ passed) within
      | part part inside =>
        obtain ⟨again, listed⟩ := tied.mem part
        exact .part listed ((ih _ part again).mpr inside)

-- What a path itself hides.
def bare? (carriers : Carriers) : Node → Option (String × Nat)
  | path p => p.last.bare? carriers
  | _ => none

theorem hidden?_step (carriers : Carriers) (n : Node) :
    n.hidden? carriers = (n.bare? carriers).or ((n.parts .tied).findSome? (hidden? carriers)) := by
  cases n with
  | ty t =>
    cases t <;>
      simp [hidden?, bare?, parts, Ty.hidden?, List.findSome?_map, Function.comp_def]
  | path p =>
    obtain ⟨root, head, tail, e⟩ := p
    cases root with
    | qualified self asTrait =>
      cases asTrait <;>
        simp [hidden?, bare?, parts, Path.hidden?, Root.hidden?, Root.parts, Path.last,
          List.findSome?_map, Function.comp_def, findSome?_cons_or, Option.or_assoc]
    | _ =>
      simp [hidden?, bare?, parts, Path.hidden?, Root.hidden?, Root.parts, Path.last,
        List.findSome?_map, Function.comp_def, findSome?_cons_or]
  | segment s =>
    cases s <;>
      simp [hidden?, bare?, parts, Segment.hidden?, Reach.tied, List.findSome?_map,
        Function.comp_def]
  | argument a =>
    cases a <;>
      simp [hidden?, bare?, parts, GenericArg.hidden?, parts.associated, Reach.tied,
        List.findSome?_map, Function.comp_def]
  | bound b =>
    cases b with
    | lifetime name => rfl
    | trait maybe binder paren path =>
      cases binder <;> simp [hidden?, bare?, parts, Bound.hidden?, Reach.tied]

theorem bare?_tie (carriers : Carriers) (n : Node) (inArgument : Bool) :
    (n.tie scope inArgument).bare? carriers = n.bare? carriers := by
  have lifetimes (a : GenericArg) : (a.tie scope inArgument).isLifetime = a.isLifetime := by
    cases a <;> rfl
  have segment (s : Segment) : (s.tie scope inArgument).bare? carriers = s.bare? carriers := by
    cases s with
    | plain name => rfl
    | angled name turbofish arguments =>
      simp [Segment.tie, Segment.bare?, List.any_map, Function.comp_def, lifetimes]
    | call name inputs output => rfl
  cases n with
  | path p =>
    obtain ⟨root, head, tail, e⟩ := p
    simp only [bare?, tie, Path.tie, Path.last, Segment.tieEach_eq, List.getLast?_map, Option.getD_map]
    exact segment _
  | _ => rfl

theorem hidden?_tie (carriers : Carriers) (n : Node) (inArgument : Bool) :
    (n.tie scope inArgument).hidden? carriers = n.hidden? carriers := by
  induction n using Node.induction .tied generalizing inArgument with
  | step n ih =>
    rw [hidden?_step, hidden?_step carriers n, bare?_tie,
      (parts_tie n inArgument).findSome? rfl ih]

theorem map_twice {α : Type} (wrap : α → Node) {change : α → α} {inArgument : Bool}
    (alone : ∀ a b, wrap a = wrap b → a = b)
    (ties : ∀ a, wrap (change a) = (wrap a).tie scope inArgument) {list : List α}
    (each : ∀ m ∈ list.map wrap, (m.tie scope inArgument).tie scope inArgument =
      m.tie scope inArgument) :
    (list.map change).map change = list.map change := by
  rw [List.map_map]
  refine List.map_congr_left fun a listed => alone _ _ ?_
  rw [Function.comp_apply, ties, ties, each _ (List.mem_map_of_mem listed)]

theorem bounds_twice {bounds : List Bound}
    (each : ∀ m ∈ bounds.map bound, (m.tie scope false).tie scope false = m.tie scope false) :
    (bounds.map (Bound.tie scope)).map (Bound.tie scope) = bounds.map (Bound.tie scope) :=
  map_twice bound (fun _ _ => bound.inj) (fun _ => rfl) each

theorem tieLifetime_twice (l : Option String) :
    tieLifetime scope (some (tieLifetime scope l)) = tieLifetime scope l := by
  cases l with
  | none => exact ite_self scope
  | some name => by_cases implicit : name = placeholder <;> simp [tieLifetime, implicit]

-- The lifetime of the call is not added a second time.
theorem outliving_twice {inArgument : Bool} {bounds : List Bound}
    (same : bounds.map (Bound.tie scope) = bounds) :
    outliving scope inArgument ((outliving scope inArgument bounds).map (Bound.tie scope)) =
      outliving scope inArgument bounds := by
  have call : tieLifetime scope (some scope) = scope := tieLifetime_twice none
  by_cases outlives : inArgument && !bounds.any (Bound.isLifetime scope)
  · simp [outliving, outlives, same, Bound.tie, call, Bound.isLifetime]
  · simp [outliving, outlives, same]

theorem root_twice {root : Root} {inArgument : Bool}
    (each : ∀ m ∈ root.parts, ∀ inside, (m.tie scope inside).tie scope inside = m.tie scope inside) :
    (root.tie scope inArgument).tie scope inArgument = root.tie scope inArgument := by
  cases root with
  | relative => rfl
  | global => rfl
  | qualified self asTrait =>
    have first := ty.inj (each _ (.head _) inArgument)
    cases asTrait with
    | none => simp only [Root.tie, first]
    | some implemented =>
      have second := path.inj (each _ (.tail _ (.head _)) false)
      simp only [Root.tie, first, second]

theorem tie_tie (n : Node) (inArgument : Bool) :
    (n.tie scope inArgument).tie scope inArgument = n.tie scope inArgument := by
  induction n using Node.induction .tied generalizing inArgument with
  | step n ih =>
    cases n with
    | ty t =>
      cases t with
      | path p =>
        have same := path.inj (ih _ (.head _) inArgument)
        simp only [tie, Ty.tie, same]
      | reference lifetime mutable inner e =>
        have same := ty.inj (ih _ (.head _) inArgument)
        simp only [tie, Ty.tie, same, tieLifetime_twice]
      | pointer mutable inner e =>
        have same := ty.inj (ih _ (.head _) inArgument)
        simp only [tie, Ty.tie, same]
      | paren inner e =>
        have same := ty.inj (ih _ (.head _) inArgument)
        simp only [tie, Ty.tie, same]
      | slice inner e =>
        have same := ty.inj (ih _ (.head _) inArgument)
        simp only [tie, Ty.tie, same]
      | array inner length e =>
        have same := ty.inj (ih _ (.head _) inArgument)
        simp only [tie, Ty.tie, same]
      | tuple elements e =>
        have same := map_twice ty (fun _ _ => ty.inj) (fun _ => rfl)
          fun m listed => ih m listed inArgument
        simp only [tie, Ty.tie, Ty.tieEach_eq, same]
      | traitObject bounds e =>
        have same := bounds_twice fun m listed => ih m listed false
        simp only [tie, Ty.tie, Bound.tieEach_eq, same]
      | implTrait bounds e =>
        have same := bounds_twice fun m listed => ih m listed false
        simp only [tie, Ty.tie, Bound.tieEach_eq, outliving_twice same]
      | never | infer | functionPointer | macroCall => rfl
    | path p =>
      obtain ⟨root, head, tail, e⟩ := p
      have first : (root.tie scope inArgument).tie scope inArgument = root.tie scope inArgument :=
        root_twice fun m listed => ih m (List.mem_append_left _ listed)
      have rest := map_twice segment (fun _ _ => segment.inj) (fun _ => rfl)
        fun m listed => ih m (List.mem_append_right root.parts listed) inArgument
      simp only [List.map_cons, List.cons.injEq] at rest
      simp only [tie, Path.tie, Segment.tieEach_eq, first, rest]
    | segment s =>
      cases s with
      | plain name => rfl
      | angled name turbofish arguments =>
        have same := map_twice argument (fun _ _ => argument.inj) (fun _ => rfl)
          fun m listed => ih m listed inArgument
        simp only [tie, Segment.tie, GenericArg.tieEach_eq, same]
      | call name inputs output => rfl
    | argument a =>
      cases a with
      | lifetime name => simp only [tie, GenericArg.tie, tieLifetime_twice]
      | type inner =>
        have same := ty.inj (ih _ (.head _) inArgument)
        simp only [tie, GenericArg.tie, same]
      | binding name arguments inner =>
        have same := ty.inj (ih _ (.head _) inArgument)
        simp only [tie, GenericArg.tie, same]
      | constraint name arguments bounds =>
        have same := bounds_twice fun m listed => ih m listed false
        simp only [tie, GenericArg.tie, Bound.tieEach_eq, same]
      | const text => rfl
    | bound b =>
      cases b with
      | lifetime name => simp only [tie, Bound.tie, tieLifetime_twice]
      | trait maybe binder paren p =>
        cases binder with
        | none =>
          have same := path.inj (ih _ (.head _) false)
          simp only [tie, Bound.tie, same]
        | some names => rfl

end Node

namespace Ty

variable {scope : String} (ty : Ty) (inArgument : Bool)

theorem tie_tie : (ty.tie scope inArgument).tie scope inArgument = ty.tie scope inArgument :=
  Node.ty.inj (Node.tie_tie (.ty ty) inArgument)

theorem hidden?_tie (carriers : Carriers) :
    (ty.tie scope inArgument).hidden? carriers = ty.hidden? carriers :=
  Node.hidden?_tie carriers (.ty ty) inArgument

theorem extent_tie : (ty.tie scope inArgument).extent = ty.extent := by
  cases ty with
  | path p => cases p; rfl
  | _ => rfl

end Ty

end Deasync
