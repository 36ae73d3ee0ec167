import Deasync.Proofs.InnerFunction

namespace Deasync

inductive Paired {α β : Type} (R : α → β → Prop) : Except Fault α → Except Fault β → Prop where
  | error (fault : Fault) : Paired R (.error fault) (.error fault)
  | ok {a : α} {b : β} : R a b → Paired R (.ok a) (.ok b)

namespace Paired

variable {α β γ δ : Type} {R : α → β → Prop} {S : γ → δ → Prop} {x : Except Fault α} {y : Except Fault β}

theorem bind {f : α → Except Fault γ} {g : β → Except Fault δ} (first : Paired R x y)
    (next : ∀ a b, R a b → Paired S (f a) (g b)) : Paired S (x >>= f) (y >>= g) := by
  cases first with
  | error fault => exact .error fault
  | ok related => exact next _ _ related

theorem map {f : α → γ} {g : β → δ} (first : Paired R x y) (next : ∀ a b, R a b → S (f a) (g b)) :
    Paired S (x.map f) (y.map g) := by
  cases first with
  | error fault => exact .error fault
  | ok related => exact .ok (next _ _ related)

-- Both begin with the same computation.
theorem same {c : Except Fault α} {f : α → Except Fault γ} {g : α → Except Fault δ}
    (next : ∀ a, Paired S (f a) (g a)) : Paired S (c >>= f) (c >>= g) := by
  cases c with
  | error fault => exact .error fault
  | ok a => exact next a

end Paired

-- What is decided for one thread: the same, but no marker is asked for.
def Decision.unmarked (decision : Decision) : Decision := { decision with marker := none }

theorem decideMethod_local (d : Declaration) (carriers : Carriers) (m : Method) :
    Paired (fun here full => here = full.unmarked ∧ full.hasBody = m.hasBody ∧
        full.marker = (Receiver.of m.signature.receiver).marker? m.hasBody false)
      (decideMethod d ⟨true⟩ carriers m) (decideMethod d ⟨false⟩ carriers m) :=
  .same fun _ => .same fun _ => .ok ⟨rfl, rfl, rfl⟩

-- The bound of the future.
def sentBound : String := " + " ++ sendMarker

-- The lines of the outer method's requirement, `where` among them if it is the only one.
def markerLines (decision : Decision) (indent deeper : String) : List String :=
  match decision.marker with
  | some marker =>
    (if (outerRequirements decision.unmarked).isEmpty then [indent ++ "where"] else []) ++
      [deeper ++ "Self: " ++ marker ++ " + " ++ decision.captured.scope ++ ","]
  | none => []

-- What the parameter that stands for `Self` is bounded by in addition, in a trait.
def markerBound (d : Declaration) (decision : Decision) : String :=
  match d.subject, decision.marker with
  | .contract .., some marker => " + " ++ marker ++ " + " ++ decision.captured.scope
  | _, _ => ""

-- Lines behind another one.
def underneath (lines : List String) : String := String.join (lines.map ("\n" ++ ·))

theorem underneath_append (a b : List String) : underneath (a ++ b) = underneath a ++ underneath b := by
  simp [underneath]

theorem intercalate_underneath (first : String) (rest : List String) :
    "\n".intercalate (first :: rest) = first ++ underneath rest := by
  induction rest generalizing first with
  | nil => simp [underneath]
  | cons second rest ih =>
    rw [String.intercalate_cons_cons, ih]
    simp [underneath, String.append_assoc]

-- The header of the outer method, through the output of its future.
def outerFront (decision : Decision) : String :=
  let s := decision.captured.signature
  s.qualifiers.render ++ "fn " ++ s.name ++ outerGenerics s.genericParams decision.captured.scope ++
    "(" ++ ", ".intercalate (outerParams s decision.hasBody) ++
    ") -> " ++ "::core::pin::Pin<::std::boxed::Box<dyn ::core::future::Future<Output = " ++
    (match s.output with
      | some ty => ty.render
      | none => "()") ++ ">"

-- The rest of the header.
def outerBack (decision : Decision) : String := " + " ++ decision.captured.scope ++ ">>"

theorem outerHeader_eq (options : Options) (decision : Decision) : outerHeader options decision =
    outerFront decision ++ (if options.isLocal then "" else sentBound) ++ outerBack decision := by
  unfold outerHeader futureType outerFront outerBack sentBound
  dsimp only
  cases decision.captured.signature.output <;> simp only [String.append_assoc]

-- What stands behind the header of a method without a body.
def bodilessEnding (indent deeper : String) (requirements : List String) : String :=
  match requirements.getLast? with
  | some last => underneath ((indent ++ "where") ::
      requirements.dropLast.map (fun r => deeper ++ r ++ ",") ++ [deeper ++ last ++ ";"])
  | none => ";"

-- An inner function through its last generic parameter, behind its output, and behind that parameter.
def InnerFunction.opening (f : InnerFunction) (indent : String) : String :=
  indent ++ "async " ++ (if f.isUnsafe then "unsafe " else "") ++ "fn " ++ f.name ++ "<" ++
    ", ".intercalate (f.lifetimes ++ f.types.map Passed.declared)

def InnerFunction.remainder (f : InnerFunction) (indent deeper : String) : String :=
  if f.requirements.isEmpty then " " ++ f.body
  else underneath ((indent ++ "where") :: f.requirements.map (fun r => deeper ++ r ++ ",") ++
    [indent ++ f.body])

def InnerFunction.closing (f : InnerFunction) (indent deeper : String) : String :=
  ">(" ++ ", ".intercalate (f.params.map Passed.declared) ++ ")" ++
    (match f.output with
      | some ty => " -> " ++ ty
      | none => "") ++
    f.remainder indent deeper

-- What stands behind the generic parameters of the inner function.
def bodiedEnding (f : InnerFunction) (indent deeper deepest : String) : String :=
  f.closing deeper deepest ++ "\n" ++ deeper ++ "::std::boxed::Box::pin(" ++ f.call ++ ")\n" ++ indent ++
    "\x7d"

theorem InnerFunction.text_eq (f : InnerFunction) (indent deeper : String) :
    f.text indent deeper = f.opening indent ++ f.closing indent deeper := by
  have bracket : ">(" = ">" ++ "(" := rfl
  rw [text, lines_header, closing, remainder]
  cases output : f.output <;> split
  · rw [String.intercalate_singleton]
    simp only [header, opening, bracket, output, String.append_assoc]
  · rw [List.cons_append, List.cons_append, intercalate_underneath]
    simp only [header, opening, bracket, output, String.append_assoc]
    rfl
  · rw [String.intercalate_singleton]
    simp only [header, opening, bracket, output, String.append_assoc]
  · rw [List.cons_append, List.cons_append, intercalate_underneath]
    simp only [header, opening, bracket, output, String.append_assoc]
    rfl

theorem outerRequirements_eq (decision : Decision) : outerRequirements decision =
    outerRequirements decision.unmarked ++ (decision.marker.toList.map fun marker =>
      "Self: " ++ marker ++ " + " ++ decision.captured.scope) := by
  cases marker : decision.marker <;> simp [outerRequirements, Decision.unmarked, marker]

theorem requirementLines_eq (decision : Decision) (indent deeper : String) :
    requirementLines indent deeper (outerRequirements decision) =
      requirementLines indent deeper (outerRequirements decision.unmarked) ++
        markerLines decision indent deeper := by
  rw [outerRequirements_eq, markerLines]
  cases decision.marker with
  | none => simp
  | some marker =>
    simp only [requirementLines]
    cases outerRequirements decision.unmarked <;> simp [String.append_assoc]

theorem selfParameterText_marked (trait : String) (params : List GenericParam)
    (receiver : Option SelfParam) (marker scope : String) :
    selfParameterText trait params receiver (some marker) scope =
      selfParameterText trait params receiver none scope ++ " + " ++ marker ++ " + " ++ scope := by
  simp only [selfParameterText, List.append_nil]
  rw [String.intercalate_append_of_ne_nil (by simp) (by simp)]
  simp [String.append_assoc]

-- The parameter that stands for `Self` is passed in either case, and comes last.
theorem selfParams_eq (d : Declaration) (decision : Decision) :
    (selfParams d decision).map Passed.given = (selfParams d decision.unmarked).map Passed.given ∧
    ∀ others : List String, ", ".intercalate (others ++ (selfParams d decision).map Passed.declared) =
      ", ".intercalate (others ++ (selfParams d decision.unmarked).map Passed.declared) ++
        markerBound d decision := by
  unfold selfParams markerBound
  cases d.subject with
  | implementation selfTy implemented => simp
  | contract name visibility supertraits =>
    refine ⟨rfl, fun others => ?_⟩
    cases marker : decision.marker with
    | none => simp [Decision.unmarked]
    | some marker =>
      rcases List.eq_nil_or_concat others with rfl | ⟨front, last, rfl⟩
      · simp [Decision.unmarked, selfParameterText_marked, String.append_assoc]
      · rw [String.intercalate_append_of_ne_nil (by simp) (by simp),
          String.intercalate_append_of_ne_nil (by simp) (by simp)]
        simp [Decision.unmarked, selfParameterText_marked, String.append_assoc]

theorem innerFunction_local (d : Declaration) (decision : Decision) (body : String) :
    Paired (fun here full => ∃ others, full.types = others ++ selfParams d decision ∧
        here = { full with types := others ++ selfParams d decision.unmarked })
      (innerFunction d decision.unmarked body) (innerFunction d decision body) :=
  .same fun _ => .same fun _ => .same fun _ => .same fun _ => .same fun _ => .same fun _ =>
    .ok ⟨_, rfl, rfl⟩

theorem InnerFunction.opening_local {d : Declaration} {decision : Decision} {f : InnerFunction}
    {others : List Passed} (types : f.types = others ++ selfParams d decision) (indent : String) :
    f.opening indent = { f with types := others ++ selfParams d decision.unmarked }.opening indent ++
      markerBound d decision := by
  simp only [opening, types, List.map_append, ← List.append_assoc]
  rw [(selfParams_eq d decision).2, ← String.append_assoc]

-- The call passes the same.
theorem InnerFunction.call_local {d : Declaration} {decision : Decision} {f : InnerFunction}
    {others : List Passed} (types : f.types = others ++ selfParams d decision) :
    f.call = { f with types := others ++ selfParams d decision.unmarked }.call := by
  have given : f.types.map Passed.given =
      (others ++ selfParams d decision.unmarked).map Passed.given := by
    rw [types, List.map_append, List.map_append, (selfParams_eq d decision).1]
  have empty : f.types.isEmpty = (others ++ selfParams d decision.unmarked).isEmpty := by
    rw [← List.isEmpty_map (f := Passed.given), given, List.isEmpty_map]
  simp only [call, given, empty]

theorem bodiedEnding_local {d : Declaration} {decision : Decision} {f : InnerFunction}
    {others : List Passed} (types : f.types = others ++ selfParams d decision)
    (indent deeper deepest : String) : bodiedEnding f indent deeper deepest =
      bodiedEnding { f with types := others ++ selfParams d decision.unmarked } indent deeper deepest := by
  rw [bodiedEnding, InnerFunction.call_local types]
  rfl

theorem outerRequirements_bodiless {decision : Decision} (none : decision.marker = none) :
    outerRequirements decision = outerRequirements decision.unmarked := by
  rw [outerRequirements_eq, none, Option.toList_none, List.map_nil, List.append_nil]

theorem methodText_bodiless {d : Declaration} {options : Options} {m : Method} {decision : Decision}
    {generated indent deeper : String} (none : m.body = none)
    (outside : indent = indentAt d.source m.signature.extent.start)
    (inside : deeper = indent ++ d.indentUnit)
    (written : methodText d options m decision = .ok generated) :
    generated = outerHeader options decision ++ bodilessEnding indent deeper (outerRequirements decision) := by
  subst outside inside
  simp only [methodText, none] at written
  obtain rfl := Except.ok.inj written
  unfold bodilessLines bodilessEnding
  split
  · rename_i no
    simp [no]
  · rename_i last some
    rw [List.cons_append, List.cons_append, intercalate_underneath, some]
    simp

theorem methodText_opened {d : Declaration} {options : Options} {m : Method} {decision : Decision}
    {b : Block} {generated indent deeper : String} (given : m.body = some b)
    (outside : indent = indentAt d.source m.signature.extent.start)
    (inside : deeper = indent ++ d.indentUnit)
    (written : methodText d options m decision = .ok generated) :
    ∃ f : InnerFunction, innerFunction d decision b.text = .ok f ∧ generated =
      outerHeader options decision ++ underneath (requirementLines indent deeper (outerRequirements decision)) ++
        "\n" ++ indent ++ "\x7b\n" ++ f.opening deeper ++
        bodiedEnding f indent deeper (deeper ++ d.indentUnit) := by
  obtain ⟨f, inner, whole⟩ := methodText_bodied given outside inside written
  refine ⟨f, inner, whole.trans ?_⟩
  rw [List.singleton_append, intercalate_underneath, InnerFunction.text_eq, bodiedEnding]
  simp only [String.append_assoc]

theorem methodText_paired (d : Declaration) (m : Method) (decision : Decision) :
    Paired (fun _ _ => True) (methodText d ⟨true⟩ m decision.unmarked)
      (methodText d ⟨false⟩ m decision) := by
  unfold methodText
  cases m.body with
  | none => exact .ok trivial
  | some body => exact (innerFunction_local d decision body.text).bind fun _ _ _ => .ok trivial

namespace MethodRewrite

def indent (r : MethodRewrite) (d : Declaration) : String :=
  indentAt d.source r.method.signature.extent.start

def deeper (r : MethodRewrite) (d : Declaration) : String := r.indent d ++ d.indentUnit

-- The rewrite of a method for one thread, `here`, beside the other one. Nothing but the marker is decided
-- otherwise, and nothing but what asks for it is missing from the text.
structure Localized (d : Declaration) (here full : MethodRewrite) : Prop where
  method : here.method = full.method
  decision : here.decision = full.decision.unmarked
  marker : full.decision.marker =
    (Receiver.of full.method.signature.receiver).marker? full.method.hasBody false
  bodiless : full.method.body = none →
    full.text = outerFront full.decision ++ sentBound ++ outerBack full.decision ++
      bodilessEnding (full.indent d) (full.deeper d) (outerRequirements here.decision) ∧
    here.text = outerFront full.decision ++ outerBack full.decision ++
      bodilessEnding (full.indent d) (full.deeper d) (outerRequirements here.decision)
  bodied : ∀ b, full.method.body = some b → ∃ (f : InnerFunction) (others : List Passed),
    innerFunction d here.decision b.text = .ok f ∧ f.types = others ++ selfParams d here.decision ∧
    full.text = outerFront full.decision ++ sentBound ++ outerBack full.decision ++
      underneath (requirementLines (full.indent d) (full.deeper d) (outerRequirements here.decision)) ++
      underneath (markerLines full.decision (full.indent d) (full.deeper d)) ++ "\n" ++ full.indent d ++
      "\x7b\n" ++ f.opening (full.deeper d) ++ markerBound d full.decision ++
      bodiedEnding f (full.indent d) (full.deeper d) (full.deeper d ++ d.indentUnit) ∧
    here.text = outerFront full.decision ++ outerBack full.decision ++
      underneath (requirementLines (full.indent d) (full.deeper d) (outerRequirements here.decision)) ++ "\n" ++
      full.indent d ++ "\x7b\n" ++ f.opening (full.deeper d) ++
      bodiedEnding f (full.indent d) (full.deeper d) (full.deeper d ++ d.indentUnit)

end MethodRewrite

theorem methodText_local {d : Declaration} {m : Method} {decision : Decision} {here full : String}
    (marker : decision.marker = (Receiver.of m.signature.receiver).marker? m.hasBody false)
    (first : methodText d ⟨true⟩ m decision.unmarked = .ok here)
    (second : methodText d ⟨false⟩ m decision = .ok full) :
    MethodRewrite.Localized d ⟨m, decision.unmarked, here⟩ ⟨m, decision, full⟩ where
  method := rfl
  decision := rfl
  marker := marker
  bodiless none := by
    have unmarked : decision.marker = Option.none := by
      rw [marker, Method.hasBody, none]
      rfl
    have second := methodText_bodiless none rfl rfl second
    have first := methodText_bodiless none rfl rfl first
    rw [outerHeader_eq, if_neg (by decide), outerRequirements_bodiless unmarked] at second
    rw [outerHeader_eq, if_pos rfl, String.append_empty] at first
    exact ⟨second, first⟩
  bodied b given := by
    obtain ⟨f, inner, whole⟩ := methodText_opened given rfl rfl second
    obtain ⟨f', inner', whole'⟩ := methodText_opened given rfl rfl first
    have paired := innerFunction_local d decision b.text
    rw [inner, inner'] at paired
    obtain ⟨others, types, rfl⟩ : ∃ others, f.types = others ++ selfParams d decision ∧
        f' = { f with types := others ++ selfParams d decision.unmarked } := by
      cases paired with
      | ok related => exact related
    rw [outerHeader_eq, if_neg (by decide), requirementLines_eq, underneath_append,
      InnerFunction.opening_local types, bodiedEnding_local types] at whole
    rw [outerHeader_eq, if_pos rfl, String.append_empty] at whole'
    refine ⟨_, others, inner', rfl, whole.trans ?_, whole'⟩
    simp only [MethodRewrite.deeper, MethodRewrite.indent, String.append_assoc]

theorem attempt_local (d : Declaration) (carriers : Carriers) (methods : List Method) :
    Paired (fun here full => ∃ heres fulls : List MethodRewrite,
        fulls.map MethodRewrite.method = methods ∧ List.Forall₂ (MethodRewrite.Localized d) heres fulls ∧
        (∀ r ∈ fulls, r.Generated d ⟨false⟩ carriers) ∧
        here = heres.map MethodRewrite.patch ∧ full = fulls.map MethodRewrite.patch ∧
        (attempt d ⟨true⟩ carriers methods).decided = heres.map MethodRewrite.decision ∧
        (attempt d ⟨false⟩ carriers methods).decided = fulls.map MethodRewrite.decision)
      (attempt d ⟨true⟩ carriers methods).patches (attempt d ⟨false⟩ carriers methods).patches := by
  induction methods with
  | nil => exact .ok ⟨[], [], rfl, .nil, List.forall_mem_nil _, rfl, rfl, rfl, rfl⟩
  | cons m methods ih =>
    have decided := decideMethod_local d carriers m
    rw [attempt, attempt]
    generalize decideMethod d ⟨true⟩ carriers m = first at decided ⊢
    generalize full : decideMethod d ⟨false⟩ carriers m = second at decided ⊢
    cases decided with
    | error fault => exact .error fault
    | @ok _ decision related =>
      obtain ⟨rfl, _, marker⟩ := related
      have texts := methodText_paired d m decision
      dsimp only
      cases first : methodText d ⟨true⟩ m decision.unmarked with
      | error fault =>
        rw [first] at texts
        generalize methodText d ⟨false⟩ m decision = second at texts ⊢
        cases texts
        exact .error fault
      | ok here =>
        rw [first] at texts
        cases second : methodText d ⟨false⟩ m decision with
        | error fault =>
          rw [second] at texts
          cases texts
        | ok written =>
          dsimp only
          refine ih.map fun a b related => ?_
          obtain ⟨heres, fulls, rfl, localized, generated, rfl, rfl, one, two⟩ := related
          refine ⟨⟨m, decision.unmarked, here⟩ :: heres, ⟨m, decision, written⟩ :: fulls, rfl,
            .cons (methodText_local marker first second) localized,
            List.forall_mem_cons.mpr ⟨⟨full, second⟩, generated⟩, rfl, rfl, ?_, ?_⟩
          · rw [one]
            rfl
          · rw [two]
            rfl

end Deasync
