import Deasync.Expansion.Unit
import Deasync.Proofs.Heading

namespace Deasync

-- A fault found while a text was worked on: it counts from the beginning of that text.
def Fault.Inner (fault : Fault) : Prop :=
  fault.cause.family ≠ .configuration ∧
    ∃ start stop : Nat, ∃ first last, fault.span = .known none start stop first last

-- Whenever there is no result, the fault is of a certain sort.
def Fails (P : Fault → Prop) {α : Type} (result : Except Fault α) : Prop :=
  ∀ fault, result = .error fault → P fault

abbrev FailsInner {α : Type} (result : Except Fault α) : Prop := Fails Fault.Inner result

theorem Fault.inner (family : Cause.Family) {cause : Cause} {start stop : Nat}
    {first last : Position} (own : cause.family = family) (other : family ≠ .configuration) :
    Fault.Inner ⟨cause, .known none start stop first last⟩ :=
  ⟨own ▸ other, start, stop, first, last, rfl⟩

namespace Fails

variable {P : Fault → Prop} {α β : Type}

theorem ok (a : α) : Fails P (.ok a) := by
  intro fault failed
  cases failed

theorem error {fault : Fault} (sort : P fault) : Fails P (.error fault : Except Fault α) := by
  rintro _ ⟨⟩
  exact sort

theorem map {result : Except Fault α} (fails : Fails P result) (change : α → β) :
    Fails P (result.map change) := by
  cases result with
  | error fault => exact .error (fails fault rfl)
  | ok a => exact .ok _

theorem bind {result : Except Fault α} {next : α → Except Fault β} (fails : Fails P result)
    (later : ∀ a, result = .ok a → Fails P (next a)) : Fails P (result >>= next) := by
  cases result with
  | error fault => exact .error (fails fault rfl)
  | ok a => exact later a rfl

theorem mapError {ε : Type} {result : Except ε α} {change : ε → Fault} (sort : ∀ e, P (change e)) :
    Fails P (result.mapError change) := by
  cases result with
  | error e => exact .error (sort e)
  | ok a => exact .ok _

theorem mapM {f : α → Except Fault β} (fails : ∀ a, Fails P (f a)) (as : List α) :
    Fails P (as.mapM f) := by
  induction as with
  | nil => exact .ok _
  | cons a as ih =>
    rw [List.mapM_cons]
    exact (fails a).bind fun b _ => ih.bind fun bs _ => .ok _

end Fails

theorem lex_fails (text : String) : FailsInner (lex text) := by
  unfold lex
  split
  · exact .ok _
  · exact .error (Fault.inner .parse rfl (by decide))

theorem closingFrom_fails (first : Token) (waiting : List Kind) (tokens : List Token) :
    FailsInner (closingFrom first waiting tokens) := by
  fun_induction closingFrom first waiting tokens with
  | case1 => exact .error (Fault.inner .parse rfl (by decide))
  | case2 waiting token later due opens ih => exact ih.map _
  | case3 => exact .error (Fault.inner .parse rfl (by decide))
  | case4 => exact .error (Fault.inner .parse rfl (by decide))
  | case5 => exact .ok _
  | case6 token later opens closes due outer same last ih => exact ih.map _
  | case7 waiting token later opens closes ih => exact ih.map _

theorem targetFault_inner (text : String) (found : Option Token) : (targetFault text found).Inner := by
  cases found with
  | none => exact Fault.inner .target rfl (by decide)
  | some token => exact Fault.inner .target rfl (by decide)

theorem checkTarget_fails (text : String) (tokens : List Token) :
    FailsInner (checkTarget text tokens) := by
  fun_induction checkTarget text tokens with
  | case1 => exact .error (targetFault_inner _ _)
  | case2 token later doc ih => exact ih
  | case3 token later doc ih => exact ih
  | case4 token later word ih => exact ih
  | case5 => exact .ok _
  | case6 => exact .ok _
  | case7 => exact .error (targetFault_inner _ _)
  | case8 token hash second rest square group closed ih => exact ih
  | case9 token hash second rest square fault failed =>
    exact .error (closingFrom_fails _ _ _ fault failed)
  | case10 => exact .error (targetFault_inner _ _)
  | case11 token word ih => exact ih
  | case12 token word second rest round group closed ih => exact ih
  | case13 token word second rest round fault failed =>
    exact .error (closingFrom_fails _ _ _ fault failed)
  | case14 token word second rest round ih => exact ih
  | case15 => exact .error (targetFault_inner _ _)

theorem syntaxFault_inner (text : String) (tokens : List Token) (left : Nat) :
    (syntaxFault text tokens left).Inner := by
  unfold syntaxFault
  split
  · exact Fault.inner .parse rfl (by decide)
  · exact Fault.inner .parse rfl (by decide)

theorem read_fails (text : String) : FailsInner (Declaration.read text) := by
  unfold Declaration.read
  refine (lex_fails text).bind fun tokens _ => (checkTarget_fails text tokens).bind fun _ _ => ?_
  refine (Fails.mapError (syntaxFault_inner text tokens)).bind fun d _ => ?_
  split
  · exact .error (Fault.inner .parse rfl (by decide))
  · exact .ok _

-- A method that is written anew has its texts read again; nothing else fails on the way.
section

variable {P : Fault → Prop} (lexes : ∀ text, Fails P (lex text))

include lexes

theorem substitute_fails (text : String) (replace : Token → List Token → Option String) :
    Fails P (substitute text replace) := (lexes text).map _

theorem selfInSignature_fails (d : Declaration) (text : String) : Fails P (d.selfInSignature text) := by
  unfold Declaration.selfInSignature
  split <;> exact substitute_fails lexes _ _

theorem selfInBody_fails (d : Declaration) (text : String) : Fails P (d.selfInBody text) := by
  unfold Declaration.selfInBody
  split <;> exact substitute_fails lexes _ _

theorem liftedParams_fails (d : Declaration) (n : Nat) (lifted : List Lifted) :
    Fails P (liftedParams d n lifted) := by
  induction lifted generalizing n with
  | nil => exact .ok _
  | cons first rest ih =>
    exact (selfInSignature_fails lexes d _).bind fun text _ => (ih (n + 1)).bind fun others _ => .ok _

theorem forwardedParams_fails (d : Declaration) (forwards : List Forward) (types : List Ty) :
    Fails P (forwardedParams d forwards types) := by
  induction forwards generalizing types with
  | nil => exact .ok _
  | cons first rest ih =>
    cases types with
    | nil => exact .ok _
    | cons ty types =>
      exact (selfInSignature_fails lexes d _).bind fun text _ =>
        (ih types).bind fun others _ => .ok _

theorem receiverParams_fails (d : Declaration) (receiver : Option SelfParam) :
    Fails P (receiverParams d receiver) := by
  cases receiver with
  | none => exact .ok _
  | some r => exact (selfInSignature_fails lexes d _).map _

theorem innerFunction_fails (d : Declaration) (decision : Decision) (body : String) :
    Fails P (innerFunction d decision body) := by
  unfold innerFunction
  refine (liftedParams_fails lexes d 0 _).bind fun _ _ =>
    (receiverParams_fails lexes d _).bind fun _ _ => ?_
  refine (forwardedParams_fails lexes d _ _).bind fun _ _ => Fails.bind ?_ fun _ _ => ?_
  · cases decision.captured.signature.output with
    | none => exact .ok _
    | some ty => exact (selfInSignature_fails lexes d _).bind fun _ _ => .ok _
  · refine Fails.bind ?_ fun _ _ => ?_
    · refine (substitute_fails lexes body _).bind fun renamed _ =>
        (selfInBody_fails lexes d renamed).bind fun _ _ => ?_
      exact (lexes _).map _
    · exact (Fails.mapM (selfInSignature_fails lexes d) _).bind fun _ _ => .ok _

theorem methodText_fails (d : Declaration) (options : Options) (m : Method) (decision : Decision) :
    Fails P (methodText d options m decision) := by
  unfold methodText
  split
  · exact .ok _
  · exact (innerFunction_fails lexes d decision _).bind fun _ _ => .ok _

end

theorem capture_fails (s : Signature) (around : Surroundings) : FailsInner (s.capture around) := by
  unfold Signature.capture
  extract_lets scope
  split
  · rename_i fault found
    obtain ⟨site, _, hidden⟩ := List.exists_of_findSome?_eq_some found
    obtain ⟨⟨name, arity⟩, _, rfl⟩ := Option.map_eq_some_iff.mp hidden
    exact .error (Fault.inner .borrow rfl (by decide))
  · exact .ok _

theorem decideMethod_fails (d : Declaration) (options : Options) (carriers : Carriers) (m : Method) :
    FailsInner (decideMethod d options carriers m) :=
  Fails.bind ((lex_fails _).map _) fun _ _ => (capture_fails _ _).bind fun _ _ => .ok _

-- What goes wrong with an item went wrong with reading it, with deciding about an async method of it
-- or with writing that method anew.
theorem Fails.attempt {P : Fault → Prop} {d : Declaration} {options : Options} {carriers : Carriers}
    {methods : List Method} (decides : ∀ m ∈ methods, Fails P (decideMethod d options carriers m))
    (writes : ∀ m ∈ methods, ∀ decision, decideMethod d options carriers m = .ok decision →
      Fails P (methodText d options m decision)) :
    Fails P (attempt d options carriers methods).patches := by
  fun_induction Deasync.attempt d options carriers methods with
  | case1 => exact .ok _
  | case2 m rest fault failed => exact .error (decides m (.head _) fault failed)
  | case3 m rest decision decided fault failed =>
    exact .error (writes m (.head _) decision decided fault failed)
  | case4 m rest decision decided text generated later ih =>
    exact (ih (fun other listed => decides other (.tail _ listed))
      fun other listed => writes other (.tail _ listed)).map _

theorem Fails.expandItemText {P : Fault → Prop} {options : Options} {text : String}
    {carriers : Carriers} (reads : Fails P (Declaration.read text))
    (decides : ∀ d, Declaration.read text = .ok d → ∀ m ∈ d.asyncMethods,
      Fails P (decideMethod d options carriers m))
    (writes : ∀ d, Declaration.read text = .ok d → ∀ m ∈ d.asyncMethods, ∀ decision,
      decideMethod d options carriers m = .ok decision → Fails P (methodText d options m decision)) :
    Fails P (expandItemText options text carriers).outcome := by
  unfold Deasync.expandItemText
  split
  · rename_i fault failed
    exact .error (reads fault failed)
  · rename_i d read
    exact ((Fails.attempt (decides d read) (writes d read)).map _).map _

theorem expandItemText_fails (options : Options) (text : String) (carriers : Carriers) :
    FailsInner (expandItemText options text carriers).outcome :=
  .expandItemText (read_fails text) (fun _ _ _ _ => decideMethod_fails _ _ _ _)
    fun _ _ _ _ _ _ => methodText_fails lex_fails _ _ _ _

end Deasync
