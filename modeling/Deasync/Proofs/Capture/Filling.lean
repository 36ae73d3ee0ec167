import Deasync.Proofs.Capture.Scope

namespace Deasync

-- A lifetime stays as it is, or it was left implicit and is the one of the call now.
def Fills (scope : String) (before after : Option String) : Prop :=
  after = before ∨ isImplicit before ∧ after = some scope

-- How many lifetimes differ: one or none.
def differs (before after : Option String) : Nat := if after = before then 0 else 1

mutual

-- `after` has the form of `before`, and `filled` lifetimes in it are different. What is in argument
-- position is outside all bounds and outside the traits of qualified paths.
inductive Filled (scope : String) : (inArgument : Bool) → (before after : Node) → (filled : Nat) → Prop
    where
  | named {a : Bool} {p q : Path} {n : Nat} : Filled scope a (.path p) (.path q) n →
      Filled scope a (.ty (.path p)) (.ty (.path q)) n
  | reference {a mutable : Bool} {l k : Option String} {t u : Ty} {e : Extent} {n : Nat} :
      Fills scope l k → Filled scope a (.ty t) (.ty u) n →
      Filled scope a (.ty (.reference l mutable t e)) (.ty (.reference k mutable u e)) (differs l k + n)
  | pointer {a mutable : Bool} {t u : Ty} {e : Extent} {n : Nat} : Filled scope a (.ty t) (.ty u) n →
      Filled scope a (.ty (.pointer mutable t e)) (.ty (.pointer mutable u e)) n
  | tuple {a : Bool} {ts us : List Ty} {e : Extent} {n : Nat} :
      FilledEach scope a (ts.map .ty) (us.map .ty) n →
      Filled scope a (.ty (.tuple ts e)) (.ty (.tuple us e)) n
  | paren {a : Bool} {t u : Ty} {e : Extent} {n : Nat} : Filled scope a (.ty t) (.ty u) n →
      Filled scope a (.ty (.paren t e)) (.ty (.paren u e)) n
  | slice {a : Bool} {t u : Ty} {e : Extent} {n : Nat} : Filled scope a (.ty t) (.ty u) n →
      Filled scope a (.ty (.slice t e)) (.ty (.slice u e)) n
  | array {a : Bool} {t u : Ty} {length : String} {e : Extent} {n : Nat} :
      Filled scope a (.ty t) (.ty u) n →
      Filled scope a (.ty (.array t length e)) (.ty (.array u length e)) n
  | never {a : Bool} {e : Extent} : Filled scope a (.ty (.never e)) (.ty (.never e)) 0
  | infer {a : Bool} {e : Extent} : Filled scope a (.ty (.infer e)) (.ty (.infer e)) 0
  | functionPointer {a : Bool} {text : String} {e : Extent} :
      Filled scope a (.ty (.functionPointer text e)) (.ty (.functionPointer text e)) 0
  | macroCall {a : Bool} {text : String} {e : Extent} :
      Filled scope a (.ty (.macroCall text e)) (.ty (.macroCall text e)) 0
  | traitObject {a : Bool} {bs cs : List Bound} {e : Extent} {n : Nat} :
      FilledEach scope false (bs.map .bound) (cs.map .bound) n →
      Filled scope a (.ty (.traitObject bs e)) (.ty (.traitObject cs e)) n
  | implTrait {a : Bool} {bs cs : List Bound} {e : Extent} {n : Nat} :
      FilledEach scope false (bs.map .bound) (cs.map .bound) n → (a → .lifetime scope ∈ cs) →
      Filled scope a (.ty (.implTrait bs e)) (.ty (.implTrait cs e)) n
  | outliving {bs cs : List Bound} {e : Extent} {n : Nat} :
      FilledEach scope false (bs.map .bound) (cs.map .bound) n → .lifetime scope ∉ cs →
      Filled scope true (.ty (.implTrait bs e)) (.ty (.implTrait (cs ++ [.lifetime scope]) e)) n
  | path {a : Bool} {r s : Root} {head first : Segment} {tail rest : List Segment} {e : Extent}
      {m n : Nat} : FilledRoot scope a r s m →
      FilledEach scope a ((head :: tail).map .segment) ((first :: rest).map .segment) n →
      Filled scope a (.path (.mk r head tail e)) (.path (.mk s first rest e)) (m + n)
  | plain {a : Bool} {name : String} :
      Filled scope a (.segment (.plain name)) (.segment (.plain name)) 0
  | angled {a turbofish : Bool} {name : String} {xs ys : List GenericArg} {n : Nat} :
      FilledEach scope a (xs.map .argument) (ys.map .argument) n →
      Filled scope a (.segment (.angled name turbofish xs)) (.segment (.angled name turbofish ys)) n
  | call {a : Bool} {name : String} {inputs : List Ty} {output : Option Ty} :
      Filled scope a (.segment (.call name inputs output)) (.segment (.call name inputs output)) 0
  | lifetimeArgument {a : Bool} {l k : String} : Fills scope (some l) (some k) →
      Filled scope a (.argument (.lifetime l)) (.argument (.lifetime k)) (differs (some l) (some k))
  | type {a : Bool} {t u : Ty} {n : Nat} : Filled scope a (.ty t) (.ty u) n →
      Filled scope a (.argument (.type t)) (.argument (.type u)) n
  | binding {a : Bool} {name : String} {arguments : Option (List GenericArg)} {t u : Ty} {n : Nat} :
      Filled scope a (.ty t) (.ty u) n →
      Filled scope a (.argument (.binding name arguments t)) (.argument (.binding name arguments u)) n
  | constraint {a : Bool} {name : String} {arguments : Option (List GenericArg)} {bs cs : List Bound}
      {n : Nat} : FilledEach scope false (bs.map .bound) (cs.map .bound) n →
      Filled scope a (.argument (.constraint name arguments bs))
        (.argument (.constraint name arguments cs)) n
  | const {a : Bool} {text : String} :
      Filled scope a (.argument (.const text)) (.argument (.const text)) 0
  | lifetimeBound {a : Bool} {l k : String} : Fills scope (some l) (some k) →
      Filled scope a (.bound (.lifetime l)) (.bound (.lifetime k)) (differs (some l) (some k))
  | trait {a maybe paren : Bool} {p q : Path} {n : Nat} : Filled scope false (.path p) (.path q) n →
      Filled scope a (.bound (.trait maybe none paren p)) (.bound (.trait maybe none paren q)) n
  | boundTrait {a maybe paren : Bool} {binder : String} {p : Path} :
      Filled scope a (.bound (.trait maybe (some binder) paren p))
        (.bound (.trait maybe (some binder) paren p)) 0

inductive FilledRoot (scope : String) : Bool → (before after : Root) → Nat → Prop where
  | relative {a : Bool} : FilledRoot scope a .relative .relative 0
  | global {a : Bool} : FilledRoot scope a .global .global 0
  | typed {a : Bool} {t u : Ty} {n : Nat} : Filled scope a (.ty t) (.ty u) n →
      FilledRoot scope a (.qualified t none) (.qualified u none) n
  | qualified {a : Bool} {t u : Ty} {p q : Path} {m n : Nat} : Filled scope a (.ty t) (.ty u) m →
      Filled scope false (.path p) (.path q) n →
      FilledRoot scope a (.qualified t (some p)) (.qualified u (some q)) (m + n)

inductive FilledEach (scope : String) : Bool → (before after : List Node) → Nat → Prop where
  | nil {a : Bool} : FilledEach scope a [] [] 0
  | cons {a : Bool} {x y : Node} {before after : List Node} {m n : Nat} : Filled scope a x y m →
      FilledEach scope a before after n → FilledEach scope a (x :: before) (y :: after) (m + n)

end

section

variable {scope : String}

theorem fills_tieLifetime (l : Option String) : Fills scope l (some (tieLifetime scope l)) := by
  cases l with
  | none => exact .inr ⟨rfl, rfl⟩
  | some name =>
    by_cases implicit : name = placeholder
    · exact .inr ⟨by simp [isImplicit, implicit], by simp [tieLifetime, implicit]⟩
    · exact .inl (by simp [tieLifetime, implicit])

-- The lifetimes that differ are those that were implicit.
theorem differs_tieLifetime (named : scope ≠ placeholder) (l : Option String) :
    differs l (some (tieLifetime scope l)) = [l].countP isImplicit := by
  cases l with
  | none => rfl
  | some name =>
    by_cases implicit : name = placeholder
    · simp [differs, tieLifetime, isImplicit, implicit, named]
    · simp [differs, tieLifetime, isImplicit, implicit]

-- How many lifetimes of a node are filled in.
def Node.implicit (n : Node) : Nat := n.lifetimes.countP isImplicit

theorem Node.implicit_of_none {n : Node} (none : n.lifetime? = none) :
    n.implicit = ((n.parts .tied).flatMap lifetimes).countP isImplicit := by
  rw [implicit, lifetimes_step, none, Option.toList_none, List.nil_append]

theorem Node.implicit_of_some (named : scope ≠ placeholder) {n : Node} {l : Option String}
    (own : n.lifetime? = some l) : n.implicit = differs l (some (tieLifetime scope l)) +
      ((n.parts .tied).flatMap lifetimes).countP isImplicit := by
  rw [implicit, lifetimes_step, own, Option.toList_some, List.countP_append, differs_tieLifetime named]

theorem FilledEach.map {α : Type} (wrap : α → Node) {change : α → α} {a : Bool}
    (ties : ∀ x, wrap (change x) = (wrap x).tie scope a) {list : List α}
    (each : ∀ m ∈ list.map wrap, Filled scope a m (m.tie scope a) m.implicit) :
    FilledEach scope a (list.map wrap) ((list.map change).map wrap)
      (((list.map wrap).flatMap Node.lifetimes).countP isImplicit) := by
  induction list with
  | nil => exact .nil
  | cons x rest ih =>
    rw [List.map_cons, List.map_cons, List.map_cons, ties, List.flatMap_cons, List.countP_append]
    exact .cons (each _ (.head _)) (ih fun m listed => each m (.tail _ listed))

theorem FilledEach.bounds {bounds : List Bound}
    (each : ∀ m ∈ bounds.map .bound, Filled scope false m (m.tie scope false) m.implicit) :
    FilledEach scope false (bounds.map .bound) ((bounds.map (Bound.tie scope)).map .bound)
      (((bounds.map .bound).flatMap Node.lifetimes).countP isImplicit) :=
  .map .bound (fun _ => rfl) each

theorem Filled.outlives {a : Bool} {bs cs : List Bound} {e : Extent} {n : Nat}
    (each : FilledEach scope false (bs.map .bound) (cs.map .bound) n) :
    Filled scope a (.ty (.implTrait bs e)) (.ty (.implTrait (Deasync.outliving scope a cs) e)) n := by
  have listed : cs.any (Bound.isLifetime scope) ↔ .lifetime scope ∈ cs := by
    rw [List.any_eq_true]
    constructor
    · rintro ⟨b, present, same⟩
      cases b with
      | lifetime name => exact of_decide_eq_true same ▸ present
      | trait => cases same
    · intro present
      exact ⟨_, present, decide_eq_true rfl⟩
  cases a with
  | false => exact .implTrait each nofun
  | true =>
    by_cases present : .lifetime scope ∈ cs
    · rw [Deasync.outliving, listed.mpr present]
      exact .implTrait each fun _ => present
    · rw [Deasync.outliving, eq_false_of_ne_true (mt listed.mp present)]
      exact .outliving each present

theorem filledRoot_tie {root : Root} {a : Bool}
    (each : ∀ m ∈ root.parts, ∀ inside, Filled scope inside m (m.tie scope inside) m.implicit) :
    FilledRoot scope a root (root.tie scope a)
      ((root.parts.flatMap Node.lifetimes).countP isImplicit) := by
  cases root with
  | relative => exact .relative
  | global => exact .global
  | qualified self asTrait =>
    have first := each _ (.head _) a
    cases asTrait with
    | none =>
      rw [Root.parts, List.flatMap_cons, List.countP_append]
      exact .typed first
    | some path =>
      have second := each _ (.tail _ (.head _)) false
      simp only [Root.parts, Option.toList_some, List.map_cons, List.map_nil, List.flatMap_cons,
        List.flatMap_nil, List.append_nil, List.countP_append]
      exact .qualified first second

-- What is tied has the form it had, and the implicit lifetimes within reach are filled in.
theorem filled_tie (named : scope ≠ placeholder) (n : Node) (a : Bool) :
    Filled scope a n (n.tie scope a) n.implicit := by
  induction n using Node.induction .tied generalizing a with
  | step n ih =>
    cases n with
    | ty t =>
      cases t with
      | path p => exact .named (ih _ (.head _) a)
      | reference lifetime mutable inner e =>
        rw [Node.implicit_of_some named (l := lifetime) rfl, Node.parts, List.flatMap_singleton]
        exact .reference (fills_tieLifetime lifetime) (ih _ (.head _) a)
      | pointer mutable inner e => exact .pointer (ih _ (.head _) a)
      | tuple elements e =>
        rw [Node.implicit_of_none rfl, Node.tie, Ty.tie, Ty.tieEach_eq]
        exact .tuple (.map .ty (fun _ => rfl) fun m listed => ih m listed a)
      | paren inner e => exact .paren (ih _ (.head _) a)
      | slice inner e => exact .slice (ih _ (.head _) a)
      | array inner length e => exact .array (ih _ (.head _) a)
      | traitObject bounds e =>
        rw [Node.implicit_of_none rfl, Node.tie, Ty.tie, Bound.tieEach_eq]
        exact .traitObject (.bounds fun m listed => ih m listed false)
      | implTrait bounds e =>
        rw [Node.implicit_of_none rfl, Node.tie, Ty.tie, Bound.tieEach_eq]
        exact .outlives (.bounds fun m listed => ih m listed false)
      | never e => exact .never
      | infer e => exact .infer
      | functionPointer text e => exact .functionPointer
      | macroCall text e => exact .macroCall
    | path p =>
      obtain ⟨root, head, tail, e⟩ := p
      have front := filledRoot_tie (a := a) fun m listed => ih m (List.mem_append_left _ listed)
      have ties : ∀ s : Segment, Node.segment (s.tie scope a) = (Node.segment s).tie scope a :=
        fun _ => rfl
      have behind := FilledEach.map .segment ties
        fun m listed => ih m (List.mem_append_right root.parts listed) a
      rw [Node.implicit_of_none rfl, Node.tie, Path.tie, Segment.tieEach_eq, Node.parts,
        List.flatMap_append, List.countP_append]
      exact .path front behind
    | segment s =>
      cases s with
      | plain name => exact .plain
      | angled name turbofish arguments =>
        rw [Node.implicit_of_none rfl, Node.tie, Segment.tie, GenericArg.tieEach_eq]
        exact .angled (.map .argument (fun _ => rfl) fun m listed => ih m listed a)
      | call name inputs output => exact .call
    | argument x =>
      cases x with
      | lifetime name =>
        rw [Node.implicit_of_some named (l := some name) rfl]
        exact .lifetimeArgument (fills_tieLifetime (some name))
      | type inner => exact .type (ih _ (.head _) a)
      | binding name arguments inner => exact .binding (ih _ (.head _) a)
      | constraint name arguments bounds =>
        rw [Node.implicit_of_none rfl, Node.tie, GenericArg.tie, Bound.tieEach_eq]
        exact .constraint (.bounds fun m listed => ih m listed false)
      | const text => exact .const
    | bound b =>
      cases b with
      | lifetime name =>
        rw [Node.implicit_of_some named (l := some name) rfl]
        exact .lifetimeBound (fills_tieLifetime (some name))
      | trait maybe binder paren path =>
        cases binder with
        | none => exact .trait (ih _ (.head _) false)
        | some names => exact .boundTrait

end

-- The form of a receiver.
inductive ReceiverForm.Filled (scope : String) : (before after : ReceiverForm) → Nat → Prop where
  | reference {mutable : Bool} {l k : Option String} : Fills scope l k →
      Filled scope (.reference l mutable) (.reference k mutable) (differs l k)
  | value {mutable : Bool} : Filled scope (.value mutable) (.value mutable) 0
  | typed {mutable : Bool} {t u : Ty} {n : Nat} : Deasync.Filled scope false (.ty t) (.ty u) n →
      Filled scope (.typed mutable t) (.typed mutable u) n

inductive SelfParam.Filled (scope : String) : (before after : Option SelfParam) → Nat → Prop where
  | none : Filled scope none none 0
  | some {form new : ReceiverForm} {attributes : List Attribute} {e : Extent} {n : Nat} :
      form.Filled scope new n →
      Filled scope (some ⟨form, attributes, e⟩) (some ⟨new, attributes, e⟩) n

inductive Param.FilledEach (scope : String) : (before after : List Param) → Nat → Prop where
  | nil : FilledEach scope [] [] 0
  | cons {pattern : String} {t u : Ty} {attributes : List Attribute} {e : Extent}
      {before after : List Param} {m n : Nat} : Deasync.Filled scope true (.ty t) (.ty u) m →
      FilledEach scope before after n → FilledEach scope
        (⟨pattern, t, attributes, e⟩ :: before) (⟨pattern, u, attributes, e⟩ :: after) (m + n)

-- Receiver, parameters and output keep their form; everything else is the same.
structure Signature.Filled (scope : String) (before after : Signature) (filled : Nat) : Prop where
  name : after.name = before.name
  qualifiers : after.qualifiers = before.qualifiers
  generics : after.generics = before.generics
  whereClause : after.whereClause = before.whereClause
  extent : after.extent = before.extent
  parts : ∃ receiver params output, filled = receiver + params + output ∧
    SelfParam.Filled scope before.receiver after.receiver receiver ∧
    Param.FilledEach scope before.params after.params params ∧
    FilledEach scope false (before.output.toList.map .ty) (after.output.toList.map .ty) output

theorem receiver_filled {scope : String} (named : scope ≠ placeholder) (receiver : Option SelfParam) :
    SelfParam.Filled scope receiver (receiver.map fun r => { r with form := r.form.tie scope })
      ((receiver.toList.flatMap fun r => r.form.lifetimes).countP isImplicit) := by
  cases receiver with
  | none => exact .none
  | some r =>
    obtain ⟨form, attributes, e⟩ := r
    refine .some ?_
    rw [Option.toList_some, List.flatMap_singleton]
    cases form with
    | reference lifetime mutable =>
      rw [ReceiverForm.lifetimes, ← differs_tieLifetime named]
      exact .reference (fills_tieLifetime lifetime)
    | value mutable => exact .value
    | typed mutable ty => exact .typed (filled_tie named (.ty ty) false)

theorem params_filled {scope : String} (named : scope ≠ placeholder) (params : List Param) :
    Param.FilledEach scope params (params.map fun p => { p with ty := p.ty.tie scope true })
      ((params.flatMap fun p => p.ty.lifetimes).countP isImplicit) := by
  induction params with
  | nil => exact .nil
  | cons p rest ih =>
    rw [List.flatMap_cons, List.countP_append]
    exact .cons (filled_tie named (.ty p.ty) true) ih

theorem output_filled {scope : String} (named : scope ≠ placeholder) (output : Option Ty) :
    FilledEach scope false (output.toList.map .ty) ((output.map (Ty.tie scope false)).toList.map .ty)
      ((output.toList.flatMap Ty.lifetimes).countP isImplicit) := by
  cases output with
  | none => exact .nil
  | some ty =>
    rw [Option.toList_some, List.flatMap_singleton]
    exact .cons (filled_tie named (.ty ty) false) .nil

theorem capture_keeps_form {s : Signature} {around : Surroundings} {c : Captured}
    (captured : s.capture around = .ok c) : s.Filled c.scope c.signature c.tied := by
  obtain ⟨_, fresh, tied, _, count⟩ := capture_eq_ok_iff.mp captured
  have named : c.scope ≠ placeholder := fresh ▸ freshScope_ne_placeholder _
  rw [tied, count, Signature.usedLifetimes, List.countP_append, List.countP_append]
  exact ⟨rfl, rfl, rfl, rfl, rfl, _, _, _, rfl, receiver_filled named _, params_filled named _,
    output_filled named _⟩

theorem capture_keeps_form_borrowing :
    ∃ c, borrowingSignature.capture borrowingSurroundings = .ok c ∧
      c.signature.params.map (·.ty.render) =
        ["impl Iterator<Item = &'async_trait1 u8> + 'async_trait1"] ∧ c.tied = 3 ∧
      borrowingSignature.Filled c.scope c.signature c.tied := by
  obtain ⟨c, captured, types, tied⟩ : ∃ c, borrowingSignature.capture borrowingSurroundings = .ok c ∧
      c.signature.params.map (·.ty.render) =
        ["impl Iterator<Item = &'async_trait1 u8> + 'async_trait1"] ∧ c.tied = 3 :=
    ⟨_, rfl, by decide +kernel, rfl⟩
  exact ⟨c, captured, types, tied, capture_keeps_form captured⟩

end Deasync
