import Deasync.Proofs.Capture.Naming
import Deasync.Proofs.Capture.Tying
import Deasync.Proofs.Heading

namespace Deasync

theorem numberedScope_ne_placeholder (n : Nat) : numberedScope n ≠ placeholder := by
  intro same
  have length := congrArg String.length same
  rw [numberedScope, String.length_append] at length
  have longer : callScope.length = 12 := by decide
  have shorter : placeholder.length = 2 := by decide
  omega

theorem freshScope_ne_placeholder (taken : List String) : freshScope taken ≠ placeholder := by
  rcases freshScope_form taken with same | ⟨n, same⟩
  · rw [same]
    decide
  · rw [same]
    exact numberedScope_ne_placeholder n

namespace ReceiverForm

def ty? : ReceiverForm → Option Ty
  | typed _ ty => some ty
  | _ => none

-- The lifetime of a receiver `&self`, `none` if it has none.
def lifetime? : ReceiverForm → Option (Option String)
  | reference lifetime _ => some lifetime
  | _ => none

end ReceiverForm

namespace Signature

-- The types of a signature, in order.
def types (s : Signature) : List Ty :=
  (s.receiver.toList.filterMap fun self => self.form.ty?) ++ s.params.map Param.ty ++ s.output.toList

-- A lifetime, or its absence, stands within reach in the receiver, the parameters or the output.
def Holds (s : Signature) (r : Reach) (l : Option String) : Prop :=
  (∃ self ∈ s.receiver, self.form.lifetime? = some l) ∨
    ∃ ty ∈ s.types, ∃ m, Node.Within r m (.ty ty) ∧ m.lifetime? = some l

-- A path that begins with a name stands within reach in the receiver, the parameters or the output.
def Mentions (s : Signature) (r : Reach) (name : String) : Prop :=
  ∃ ty ∈ s.types, ∃ m, Node.Within r m (.ty ty) ∧ m.mention? = some name

-- A lifetime, or its absence, stands where tying passes over.
def Overlooks (s : Signature) (r : Reach) (l : Option String) : Prop :=
  ∃ ty ∈ s.types, ∃ m, Node.Overlooked r m (.ty ty) ∧ m.lifetime? = some l

theorem holds_iff {s : Signature} {r : Reach} {l : Option String} :
    s.Holds r l ↔ s.Holds .tied l ∨ s.Overlooks r l := by
  simp only [Holds, Overlooks, Node.within_iff (r := r), or_and_right, exists_or, and_or_left, or_assoc]

theorem holds_of_follow {s : Signature} {r : Reach} {route : List Nat} {l : Option String}
    (found : (s.types.head?.bind fun ty => ((Node.ty ty).follow r route).bind Node.lifetime?) = some l) :
    s.Holds r l := by
  obtain ⟨ty, listed, rest⟩ := Option.bind_eq_some_iff.mp found
  obtain ⟨m, followed, stands⟩ := Option.bind_eq_some_iff.mp rest
  exact .inr ⟨ty, List.mem_of_head? listed, m, Node.within_of_follow followed, stands⟩

theorem mentions_of_follow {s : Signature} {r : Reach} {route : List Nat} {name : String}
    (found : (s.types.head?.bind fun ty => ((Node.ty ty).follow r route).bind Node.mention?) = some name) :
    s.Mentions r name := by
  obtain ⟨ty, listed, rest⟩ := Option.bind_eq_some_iff.mp found
  obtain ⟨m, followed, stands⟩ := Option.bind_eq_some_iff.mp rest
  exact ⟨ty, List.mem_of_head? listed, m, Node.within_of_follow followed, stands⟩

theorem usedLifetimes_eq (s : Signature) : s.usedLifetimes =
    (s.receiver.toList.filterMap fun self => self.form.lifetime?) ++ s.types.flatMap Ty.lifetimes := by
  cases receiver : s.receiver with
  | none => simp [usedLifetimes, types, receiver, List.flatMap_map]
  | some self =>
    cases form : self.form <;>
      simp [usedLifetimes, types, receiver, form, ReceiverForm.lifetimes, ReceiverForm.ty?,
        ReceiverForm.lifetime?, List.flatMap_map]

theorem mentioned_eq (s : Signature) : s.mentioned = s.types.flatMap Ty.mentioned := by
  cases receiver : s.receiver with
  | none => simp [mentioned, types, receiver, List.flatMap_map]
  | some self =>
    cases form : self.form <;>
      simp [mentioned, types, receiver, form, ReceiverForm.mentioned, ReceiverForm.ty?,
        List.flatMap_map]

theorem mem_usedLifetimes {s : Signature} {l : Option String} :
    l ∈ s.usedLifetimes ↔ s.Holds .tied l := by
  rw [usedLifetimes_eq, List.mem_append, List.mem_filterMap, List.mem_flatMap]
  simp only [Option.mem_toList]
  exact or_congr_right (exists_congr fun ty => and_congr_right fun _ => Node.mem_lifetimes (n := .ty ty))

theorem mem_mentioned {s : Signature} {name : String} :
    name ∈ s.mentioned ↔ s.Mentions .tied name := by
  rw [mentioned_eq, List.mem_flatMap]
  exact exists_congr fun ty => and_congr_right fun _ => Node.mem_mentioned (n := .ty ty)

end Signature

section

variable {scope : String}

namespace ReceiverForm

theorem tie_tie (form : ReceiverForm) : (form.tie scope).tie scope = form.tie scope := by
  cases form with
  | reference lifetime mutable => simp only [tie, Node.tieLifetime_twice]
  | value mutable => rfl
  | typed mutable ty => simp only [tie, Ty.tie_tie]

theorem hidden?_tie (carriers : Carriers) (form : ReceiverForm) :
    (form.tie scope).hidden? carriers = form.hidden? carriers := by
  cases form with
  | typed mutable ty => exact ty.hidden?_tie false carriers
  | _ => rfl

end ReceiverForm

namespace Signature

theorem tie_tie (s : Signature) : (s.tie scope).tie scope = s.tie scope := by
  simp [tie, Function.comp_def, ReceiverForm.tie_tie, Ty.tie_tie]

theorem types_tie (s : Signature) (scope : String) :
    Tied scope (s.types.map .ty) ((s.tie scope).types.map .ty) := by
  have receiver : Tied scope ((s.receiver.toList.filterMap fun self => self.form.ty?).map .ty)
      (((s.tie scope).receiver.toList.filterMap fun self => self.form.ty?).map .ty) := by
    rw [tie]
    cases s.receiver with
    | none => exact .nil
    | some self =>
      obtain ⟨form, attributes, extent⟩ := self
      cases form with
      | reference lifetime mutable => exact .nil
      | value mutable => exact .nil
      | typed mutable ty => exact .cons false .nil
  have params : (s.tie scope).params.map Param.ty =
      (s.params.map Param.ty).map (Ty.tie scope true) := by simp [tie]
  have output : (s.tie scope).output.toList = s.output.toList.map (Ty.tie scope false) := by
    cases own : s.output <;> simp [tie, own]
  simp only [types, List.map_append, output]
  rw [params]
  exact (receiver.append (.map .ty true (fun _ => rfl) _)).append (.map .ty false (fun _ => rfl) _)

-- What is passed over stays as it is.
theorem overlooks_tie (s : Signature) {r : Reach} {l : Option String} :
    (s.tie scope).Overlooks r l ↔ s.Overlooks r l := by
  have tied := s.types_tie scope
  constructor
  · rintro ⟨ty, listed, m, overlooked, stands⟩
    rcases tied.cases (List.mem_map_of_mem listed) with ⟨before, found, inArgument, same⟩ | same
    · obtain ⟨own, mine, rfl⟩ := List.mem_map.mp found
      exact ⟨own, mine, m, (Node.overlooked_tie _ inArgument).mp (same ▸ overlooked), stands⟩
    · cases same
  · rintro ⟨ty, listed, m, overlooked, stands⟩
    obtain ⟨inArgument, found⟩ := tied.mem (List.mem_map_of_mem listed)
    obtain ⟨own, mine, same⟩ := List.mem_map.mp found
    exact ⟨own, mine, m, same ▸ (Node.overlooked_tie _ inArgument).mpr overlooked, stands⟩

theorem receiver_tie (s : Signature) :
    ((s.tie scope).receiver.toList.filterMap fun self => self.form.lifetime?) =
      (s.receiver.toList.filterMap fun self => self.form.lifetime?).map fun l =>
        some (tieLifetime scope l) := by
  rw [tie]
  cases s.receiver with
  | none => rfl
  | some self =>
    obtain ⟨form, attributes, extent⟩ := self
    cases form <;> rfl

theorem explicit_tie (named : scope ≠ placeholder) (s : Signature) :
    ∀ l ∈ (s.tie scope).usedLifetimes, isImplicit l = false := by
  intro l listed
  rw [usedLifetimes_eq, receiver_tie, List.mem_append, List.mem_map, List.mem_flatMap] at listed
  rcases listed with ⟨l, _, rfl⟩ | ⟨ty, found, inside⟩
  · exact isImplicit_tieLifetime named l
  · rcases (s.types_tie scope).cases (List.mem_map_of_mem found) with ⟨m, _, inArgument, same⟩ | same
    · have explicit := Node.explicit_tie named m inArgument
      rw [← same] at explicit
      exact explicit l inside
    · cases same

theorem otherNames_tie (s : Signature) :
    (s.tie scope).usedLifetimes.filterMap (Node.otherName scope) =
      s.usedLifetimes.filterMap (Node.otherName scope) := by
  have typed := (s.types_tie scope).flatMap (f := fun m => m.lifetimes.filterMap (Node.otherName scope))
    (by simp [Node.lifetimes, Bound.lifetimes, Node.otherName]) fun m _ => m.otherNames_tie
  rw [List.flatMap_map, List.flatMap_map] at typed
  rw [usedLifetimes_eq, usedLifetimes_eq, receiver_tie, List.filterMap_append, List.filterMap_append,
    List.filterMap_flatMap, List.filterMap_flatMap, List.filterMap_map]
  congr 1
  exact congrArg (List.filterMap · _) (funext Node.otherName_tieLifetime)

theorem mentioned_tie (s : Signature) : (s.tie scope).mentioned = s.mentioned := by
  have typed := (s.types_tie scope).flatMap (f := Node.mentioned) rfl fun m _ => m.mentioned_tie
  rw [List.flatMap_map, List.flatMap_map] at typed
  rw [mentioned_eq, mentioned_eq]
  exact typed

theorem hiddenAt_tie (carriers : Carriers) (s : Signature) :
    (s.tie scope).hiddenAt carriers = s.hiddenAt carriers := by
  cases receiver : s.receiver <;> cases output : s.output <;>
    simp [hiddenAt, tie, receiver, output, Function.comp_def, ReceiverForm.hidden?_tie,
      Ty.hidden?_tie, Ty.extent_tie]

end Signature

end

-- The lifetimes that a signature names.
def Signature.namedLifetimes (s : Signature) : List String :=
  (s.usedLifetimes.filter fun l => !isImplicit l).filterMap id

-- The type parameters that are in play.
def Signature.typesInPlay (s : Signature) (around : Surroundings) : List String :=
  around.outerTypes.filter s.mentioned.contains ++ s.typeNames

theorem capture_eq_ok_iff {s : Signature} {around : Surroundings} {c : Captured} :
    s.capture around = .ok c ↔ s.hiddenFault? around.carriers = none ∧
      c.scope = freshScope (around.taken ++ s.lifetimes) ∧ c.signature = s.tie c.scope ∧
      c.outlives = outlivesPredicates c.scope (s.lifetimes ++ s.namedLifetimes) (s.typesInPlay around) ∧
      c.tied = s.usedLifetimes.countP isImplicit := by
  rw [Signature.capture]
  cases s.hiddenFault? around.carriers with
  | some fault => simp
  | none =>
    obtain ⟨signature, scope, outlives, tied⟩ := c
    simp only [Except.ok.injEq, Captured.mk.injEq, true_and]
    constructor
    · rintro ⟨rfl, rfl, rfl, rfl⟩
      exact ⟨rfl, rfl, rfl, rfl⟩
    · rintro ⟨rfl, rfl, rfl, rfl⟩
      exact ⟨rfl, rfl, rfl, rfl⟩

-- Of the lifetimes that are named, those that have to outlive the call.
theorem filter_namedLifetimes (s : Signature) (scope : String) :
    s.namedLifetimes.filter (fun name => name != "'static" && name != scope) =
      (s.usedLifetimes.filterMap (Node.otherName scope)).filter fun name => name != "'static" := by
  rw [Signature.namedLifetimes]
  induction s.usedLifetimes with
  | nil => rfl
  | cons l used ih =>
    cases l with
    | none => exact ih
    | some name =>
      have shown (other : String) : isImplicit (some other) = decide (other = placeholder) := rfl
      by_cases implicit : name = placeholder
      · simpa [Node.otherName, shown, implicit] using ih
      · by_cases own : name = scope
        · subst own
          simpa [Node.otherName, shown, implicit] using ih
        · have kept : (!isImplicit (some name)) = true := by simp [shown, implicit]
          have named : Node.otherName scope (some name) = some name := by
            simp [Node.otherName, implicit, own]
          rw [List.filter_cons, if_pos kept, List.filterMap_cons_some (id_eq _),
            List.filterMap_cons_some named, List.filter_cons, List.filter_cons, ih]
          simp [own]

-- The first method in a text, with what it is captured as.
def captureFirst? (text : String) (around : Surroundings) : Option (Signature × Captured) := do
  let d ← (Declaration.read text).toOption
  let m ← d.methods.head?
  let c ← (m.signature.capture around).toOption
  return (m.signature, c)

theorem exists_of_captureFirst? {text : String} {around : Surroundings} {s : Signature} {c : Captured}
    (found : captureFirst? text around = some (s, c)) :
    ∃ d, Declaration.read text = .ok d ∧ ∃ m ∈ d.methods, m.signature = s ∧ s.capture around = .ok c := by
  obtain ⟨d, read, rest⟩ := Option.bind_eq_some_iff.mp found
  obtain ⟨m, first, rest⟩ := Option.bind_eq_some_iff.mp rest
  obtain ⟨e, captured, same⟩ := Option.bind_eq_some_iff.mp rest
  cases same
  exact ⟨d, toOption_eq_some read, m, List.mem_of_head? first, rfl, toOption_eq_some captured⟩

-- Nothing that tying looks at is left implicit; so an implicit lifetime is left exactly where one is
-- passed over.
theorem capture_explicit {s : Signature} {around : Surroundings} {c : Captured}
    (captured : s.capture around = .ok c) :
    (∀ l, c.signature.Holds .tied l → isImplicit l = false) ∧
      ((∀ l, c.signature.Holds .outside l → isImplicit l = false) ↔
        ∀ l, s.Overlooks .outside l → isImplicit l = false) := by
  obtain ⟨_, fresh, tied, _⟩ := capture_eq_ok_iff.mp captured
  have named : c.scope ≠ placeholder := fresh ▸ freshScope_ne_placeholder _
  have reached : ∀ l, c.signature.Holds .tied l → isImplicit l = false := by
    intro l held
    rw [tied, ← Signature.mem_usedLifetimes] at held
    exact Signature.explicit_tie named s l held
  refine ⟨reached, ?_, ?_⟩
  · intro explicit l overlooked
    refine explicit l (Signature.holds_iff.mpr (.inr ?_))
    rw [tied]
    exact s.overlooks_tie.mpr overlooked
  · intro explicit l held
    rcases Signature.holds_iff.mp held with held | overlooked
    · exact reached l held
    · rw [tied] at overlooked
      exact explicit l (s.overlooks_tie.mp overlooked)

-- `fn f<'a>(&self, it: impl Iterator<Item = &u8>) -> Cow<'_, T>`
def borrowingSignature : Signature where
  name := "f"
  qualifiers := ⟨none, none, false, false, false, none⟩
  generics := some ⟨[⟨"'a", .lifetime [], "'a"⟩], default⟩
  receiver := some ⟨.reference none false, [], default⟩
  params := [⟨"it", .implTrait [.trait false none false (.mk .relative (.angled "Iterator" false
    [.binding "Item" none (.reference none false (.path (.mk .relative (.plain "u8") [] default))
      default)]) [] default)] default, [], default⟩]
  output := some (.path (.mk .relative (.angled "Cow" false
    [.lifetime "'_", .type (.path (.mk .relative (.plain "T") [] default))]) [] default))
  whereClause := none
  extent := default

def borrowingSurroundings : Surroundings := ⟨[("Cow", 1)], ["'async_trait"], ["T", "U"]⟩

theorem capture_explicit_borrowing : ∃ c, borrowingSignature.capture borrowingSurroundings = .ok c ∧
    (∀ l, c.signature.Holds .tied l → isImplicit l = false) ∧
      ((∀ l, c.signature.Holds .outside l → isImplicit l = false) ↔
        ∀ l, borrowingSignature.Overlooks .outside l → isImplicit l = false) := by
  obtain ⟨c, captured⟩ : ∃ c, borrowingSignature.capture borrowingSurroundings = .ok c := ⟨_, rfl⟩
  exact ⟨c, captured, capture_explicit captured⟩

def associatedText : String := "trait A \x7b fn f(g: Box<dyn B<C<'_> = u8>>); \x7d"

-- The arguments of an associated type are passed over.
theorem capture_leaves_implicit : ∃ d, Declaration.read associatedText = .ok d ∧ ∃ m ∈ d.methods,
    ∃ c, m.signature.capture ⟨[], [], []⟩ = .ok c ∧ c.signature.Holds .outside (some placeholder) := by
  let lifetime (ty : Ty) :=
    ((Node.ty ty).follow .outside [0, 0, 0, 0, 0, 0, 0, 0, 0]).bind Node.lifetime?
  have found : ((captureFirst? associatedText ⟨[], [], []⟩).bind fun (_, c) =>
      c.signature.types.head?.bind lifetime) = some (some placeholder) := by
    decide +kernel
  obtain ⟨⟨s, c⟩, first, held⟩ := Option.bind_eq_some_iff.mp found
  obtain ⟨d, read, m, listed, rfl, captured⟩ := exists_of_captureFirst? first
  exact ⟨d, read, m, listed, c, captured, Signature.holds_of_follow held⟩

theorem capture_idempotent {s : Signature} {around : Surroundings} {c : Captured}
    (captured : s.capture around = .ok c) : c.signature.capture around = .ok { c with tied := 0 } := by
  obtain ⟨unhidden, fresh, tied, outlives, _⟩ := capture_eq_ok_iff.mp captured
  have named : c.scope ≠ placeholder := fresh ▸ freshScope_ne_placeholder _
  have predicates : outlivesPredicates c.scope (s.lifetimes ++ s.namedLifetimes) (s.typesInPlay around) =
      outlivesPredicates c.scope (s.lifetimes ++ (s.tie c.scope).namedLifetimes)
        ((s.tie c.scope).typesInPlay around) := by
    simp only [outlivesPredicates, List.filter_append, filter_namedLifetimes,
      Signature.otherNames_tie, Signature.typesInPlay, Signature.mentioned_tie]
    rfl
  refine capture_eq_ok_iff.mpr ⟨?_, ?_, ?_, ?_, ?_⟩
  · rw [Signature.hiddenFault?, tied, Signature.hiddenAt_tie]
    exact unhidden
  · rw [tied]
    exact fresh
  · rw [tied]
    exact (Signature.tie_tie s).symm
  · rw [tied]
    exact outlives.trans predicates
  · rw [tied]
    refine (List.countP_eq_zero.mpr fun l listed => ?_).symm
    rw [Signature.explicit_tie named s l listed]
    exact Bool.false_ne_true

theorem capture_idempotent_borrowing : ∃ c, borrowingSignature.capture borrowingSurroundings = .ok c ∧
    c.tied = 3 ∧ c.signature.capture borrowingSurroundings = .ok { c with tied := 0 } := by
  obtain ⟨c, captured, tied⟩ : ∃ c, borrowingSignature.capture borrowingSurroundings = .ok c ∧
      c.tied = 3 := ⟨_, rfl, rfl⟩
  exact ⟨c, captured, tied, capture_idempotent captured⟩

end Deasync
