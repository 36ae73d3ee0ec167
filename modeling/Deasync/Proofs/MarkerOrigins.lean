import Deasync.Proofs.Borrowing
import Deasync.Proofs.InnerBody
import Deasync.Proofs.InnerCall
import Deasync.Proofs.LocalExpansion
import Deasync.Proofs.Rewording

namespace Deasync

open Grammar Lexeme

variable {source : String}

theorem Item.beside_apart {a b : Item} (neighbours : a.beside b) :
    EndsApart a.text.toList ∨ ∀ rest, BeginsApart (b.text.toList ++ rest) := by
  have eager {item : Item} (eager : item.isEager) : EndsApart item.text.toList := by
    cases item with
    | mark kind =>
      have all : [Kind.openSquare, .closeSquare, .openRound, .closeRound, .bang, .semicolon, .comma, .less,
          .greater, .plus, .question, .pathSep, .arrow].all fun kind =>
          kind.spelling.toList.getLast?.all (!isMarkerChar ·) := by decide
      have own := List.all_eq_true.mp all kind (of_decide_eq_true eager)
      simpa [EndsApart, Option.all_eq_true, Item.text] using own
    | blank =>
      rintro _ ⟨⟩
      decide
    | _ => cases eager
  have quiet {item : Item} (quiet : item.isQuiet) (rest : List Char) :
      BeginsApart (item.text.toList ++ rest) := by
    cases item with
    | mark kind =>
      have all : [Kind.comma, .closeRound, .closeSquare, .greater, .semicolon, .colon, .pathSep, .less,
          .openRound].all fun kind => kind.spelling.toList.head?.any (!isMarkerChar ·) := by decide
      have own := List.all_eq_true.mp all kind (of_decide_eq_true quiet)
      obtain ⟨c, begins, other⟩ : ∃ c, kind.spelling.toList.head? = some c ∧ ¬isMarkerChar c := by
        simpa [Option.any_eq_true] using own
      obtain ⟨more, whole⟩ := List.head?_eq_some_iff.mp begins
      rw [Item.text, whole]
      rintro _ ⟨⟩
      exact other
    | blank =>
      rintro _ ⟨⟩
      decide
    | _ => cases quiet
  unfold beside at neighbours
  split at neighbours
  · obtain rfl := of_decide_eq_true neighbours
    exact .inr (quiet rfl)
  · obtain rfl := of_decide_eq_true neighbours
    exact .inr (quiet rfl)
  · obtain rfl := of_decide_eq_true neighbours
    exact .inr (quiet rfl)
  · refine .inl ?_
    rintro _ ⟨⟩
    decide
  · refine .inl ?_
    rintro _ ⟨⟩
    decide
  · rcases Bool.or_eq_true_iff.mp neighbours with own | behind
    · exact .inl (eager own)
    · exact .inr (quiet (Bool.and_eq_true_iff.mp behind).2)

theorem Item.borrows {item : Item} (told : ∀ text ∈ item.text?, Borrows source text) :
    Borrows source item.text := by
  cases item with
  | mark kind => exact .of_no_initial (by cases kind <;> decide)
  | blank => exact .of_no_initial (by decide)
  | length text => exact (Finished.lead (f := " ") (by decide)).then (told text rfl)
  | name text | lifetime text | quote text => exact told text rfl

theorem borrows_written {items : List Item} (tidy : neat items) (told : EachText (Borrows source) items) :
    Borrows source (String.ofList (written items)) := by
  induction items with
  | nil => exact .of_no_initial (by simp)
  | cons a items ih =>
    obtain ⟨first, others⟩ := List.forall_mem_cons.mp told
    have own := Item.borrows first
    rw [written_cons, String.ofList_append, String.ofList_toList]
    cases items with
    | nil =>
      rw [written_nil, String.ofList_nil, String.append_empty]
      exact own
    | cons b items =>
      obtain ⟨beside, behind⟩ := Bool.and_eq_true_iff.mp tidy
      refine own.append (ih behind others) ((Item.beside_apart beside).imp_right fun apart => ?_)
      rw [String.toList_ofList]
      exact apart _

theorem Ty.Told.borrows {t : Ty} (told : t.Told (Borrows source)) : Borrows source t.render := by
  have whole := borrows_written t.neat_items told
  rwa [t.written_items, String.ofList_toList] at whole

theorem Bound.ToldEach.borrows {bounds : List Bound} (told : Bound.ToldEach (Borrows source) bounds) :
    Borrows source (Bound.renderAll bounds) := by
  have whole := borrows_written (neat_summed (Bound.neat_itemsEach bounds)) told
  rwa [written_summed (Bound.written_itemsEach bounds), String.ofList_toList] at whole

theorem eachText_texts {P : String → Prop} {items : List Item} :
    EachText P (texts items) ↔ EachText P items := by
  refine ⟨fun all item listed text own => ?_, fun all item listed => all item (List.mem_filter.mp listed).1⟩
  exact all item (List.mem_filter.mpr ⟨listed, Option.isSome_iff_exists.mpr ⟨text, own⟩⟩) text own

theorem Path.borrows_inExpression {p : Path} (told : EachText (Borrows source) p.items) :
    Borrows source p.renderInExpression := by
  rw [← eachText_texts, ← p.texts_expressed, eachText_texts] at told
  have whole := borrows_written p.neat_itemsInExpression told
  rwa [p.written_itemsInExpression, String.ofList_toList] at whole

theorem borrows_numbered {front : String} (none : 'S' ∉ front.toList) (n : Nat) :
    Borrows source (front ++ toString n) := by
  refine .of_no_initial ?_
  rw [String.toList_append, Nat.toString_eq_ofList_toDigits, String.toList_ofList]
  intro listed
  rcases List.mem_append.mp listed with first | digit
  · exact none first
  · cases Nat.isDigit_of_mem_toDigits (by decide) (by decide) digit

theorem borrows_numberedScope (n : Nat) : Borrows source (numberedScope n) := borrows_numbered (by decide) n

theorem borrows_freshScope (taken : List String) : Borrows source (freshScope taken) := by
  rcases freshScope_form taken with same | ⟨n, same⟩
  · rw [same]
    exact .of_no_initial (by decide)
  · rw [same]
    exact borrows_numberedScope n

theorem infix_bindingName {pattern name : String} (bound : bindingName? pattern = some name) :
    name.toList <:+: pattern.toList := by
  unfold bindingName? at bound
  dsimp only at bound
  obtain ⟨_, same⟩ := Option.ite_none_right_eq_some.mp bound
  rw [← Option.some.inj same, String.toList_ofList]
  split
  · rename_i blank rest chars
    split
    · rw [chars]
      exact ((List.dropWhile_suffix _).trans (List.suffix_append ['m', 'u', 't', blank] rest)).isInfix
    · exact List.infix_rfl
  · exact List.infix_rfl

theorem Forward.borrows_outer {pattern : String} (own : Borrows source pattern) (n : Nat) :
    Borrows source (Forward.of n pattern).outer := by
  rw [Forward.of]
  cases bound : bindingName? pattern with
  | none => exact borrows_numbered (by decide) n
  | some name => exact fun w marker inside => own w marker (inside.trans (infix_bindingName bound))

theorem Borrows.selfReplaced {text plain qualified result : String} (own : Borrows source text)
    (alone : Borrows source plain) (before : Borrows source qualified)
    (read : replaceSelfType text plain qualified = .ok result) : Borrows source result := by
  refine own.substituted (fun t later new given => ?_) (fun t later new given => ?_) read
  · obtain ⟨named, _⟩ := Option.ite_none_right_eq_some.mp given
    rw [of_decide_eq_true (Bool.and_eq_true_iff.mp named).1]
    exact .head _
  · obtain ⟨_, same⟩ := Option.ite_none_right_eq_some.mp given
    rw [← Option.some.inj same]
    split
    · exact before
    · exact alone

theorem borrows_selfParameter : Borrows source selfParameter := .of_no_initial (by decide)

-- A type between angle brackets.
theorem Borrows.bracketed {text : String} (own : Borrows source text) :
    Borrows source ("<" ++ text ++ ">") :=
  ((Finished.lead (by decide)).then own).trail (by decide)

section

variable {d : Declaration} {text result : String} (told : d.HeaderTold (Borrows source))

include told

theorem Declaration.HeaderTold.selfInSignature (own : Borrows source text)
    (read : d.selfInSignature text = .ok result) : Borrows source result := by
  have subject := told.subject
  unfold Declaration.selfInSignature at read
  split at read
  · exact own.selfReplaced borrows_selfParameter borrows_selfParameter read
  · rename_i selfTy shape
    rw [shape] at subject
    exact own.selfReplaced subject.1.borrows subject.1.borrows.bracketed read
  · rename_i selfTy implemented shape
    rw [shape] at subject
    have trait := (subject.2 implemented rfl).borrows
    refine own.selfReplaced subject.1.borrows (Borrows.trail ?_ (by decide)) read
    exact (((Finished.lead (by decide)).then subject.1.borrows).joint (by decide)).then trait

theorem Declaration.HeaderTold.innerBody (own : Borrows source text) (read : d.innerBody text = .ok result) :
    Borrows source result := by
  obtain ⟨renamed, first, rest⟩ := bind_eq_ok_iff.mp read
  obtain ⟨spelled, second, third⟩ := bind_eq_ok_iff.mp rest
  have one : Borrows source renamed := by
    refine own.substituted (fun t later new given => ?_) (fun t later new given => ?_) first
    · obtain ⟨named, _⟩ := Option.ite_none_right_eq_some.mp given
      rw [of_decide_eq_true (Bool.and_eq_true_iff.mp named).1]
      exact .tail _ (.head _)
    · obtain ⟨_, same⟩ := Option.ite_none_right_eq_some.mp given
      rw [← Option.some.inj same]
      exact .of_no_initial (by decide)
  have two : Borrows source spelled := by
    have subject := told.subject
    unfold Declaration.selfInBody at second
    split at second
    · exact one.selfReplaced borrows_selfParameter borrows_selfParameter second
    · rename_i p implemented shape
      rw [shape] at subject
      have path : Borrows source p.render := by
        have whole := subject.1.borrows
        rwa [Ty.render] at whole
      exact one.selfReplaced (Path.borrows_inExpression subject.1) path.bracketed second
    · rename_i selfTy implemented _ shape
      rw [shape] at subject
      exact one.selfReplaced subject.1.borrows subject.1.borrows.bracketed second
  exact two.indented (blank_indentUnit d) third

end

structure Passed.Told (P : String → Prop) (p : Passed) : Prop where
  declared : P p.declared
  given : P p.given

structure InnerFunction.Told (P : String → Prop) (f : InnerFunction) : Prop where
  name : P f.name
  lifetimes : ∀ text ∈ f.lifetimes, P text
  types : ∀ p ∈ f.types, p.Told P
  params : ∀ p ∈ f.params, p.Told P
  output : ∀ text ∈ f.output, P text
  requirements : ∀ text ∈ f.requirements, P text
  body : P f.body

structure Decision.Told (P : String → Prop) (decision : Decision) : Prop where
  name : P decision.name
  signature : decision.captured.signature.Told P
  scope : P decision.captured.scope
  outlives : ∀ text ∈ decision.captured.outlives, P text

-- What is decided about a method is told by the texts of the method and of the declaration.
theorem decideMethod_told {d : Declaration} {options : Options} {carriers : Carriers} {m : Method}
    {decision : Decision} (told : d.HeaderTold (Borrows source)) (own : m.Told (Borrows source))
    (decided : decideMethod d options carriers m = .ok decision) : decision.Told (Borrows source) := by
  obtain ⟨taken, _, rest⟩ := bind_eq_ok_iff.mp decided
  obtain ⟨captured, done, last⟩ := bind_eq_ok_iff.mp rest
  cases last
  obtain ⟨_, fresh, tied, outlives, _⟩ := capture_eq_ok_iff.mp done
  have scope : Borrows source captured.scope := fresh ▸ borrows_freshScope _
  have declared {params : List GenericParam} (all : ∀ p ∈ params, p.Told (Borrows source))
      (sort : GenericParam → Bool) : ∀ name ∈ (params.filter sort).map GenericParam.name,
      Borrows source name :=
    List.forall_mem_map.mpr fun p listed => (all p (List.mem_filter.mp listed).1).name
  refine ⟨own.signature.name, ?_, scope, ?_⟩
  · rw [tied]
    exact own.signature.tie scope
  · intro predicate listed
    rw [outlives, mem_outlivesPredicates] at listed
    have outliving {name : String} (known : Borrows source name) :
        Borrows source (name ++ ": " ++ captured.scope) := (known.joint (by decide)).then scope
    rcases listed with ⟨name, listed, _, _, rfl⟩ | ⟨name, listed, rfl⟩
    · refine outliving ?_
      rcases List.mem_append.mp listed with listed | listed
      · exact declared own.signature.generics _ name listed
      · exact own.signature.holds (mem_namedLifetimes.mp listed).1
    · refine outliving ?_
      rcases mem_typesInPlay.mp listed with listed | ⟨listed, _⟩
      · exact declared own.signature.generics _ name listed
      · exact declared told.generics _ name listed

theorem mem_of_mapM_ok {α β : Type} {f : α → Except Fault β} {xs : List α} {ys : List β} {y : β}
    (mapped : xs.mapM f = .ok ys) (listed : y ∈ ys) : ∃ x ∈ xs, f x = .ok y := by
  induction xs generalizing ys with
  | nil =>
    cases mapped
    cases listed
  | cons x xs ih =>
    rw [List.mapM_cons] at mapped
    obtain ⟨own, first, rest⟩ := bind_eq_ok_iff.mp mapped
    obtain ⟨others, more, last⟩ := bind_eq_ok_iff.mp rest
    cases last
    rcases List.mem_cons.mp listed with rfl | later
    · exact ⟨x, .head _, first⟩
    · obtain ⟨x', present, same⟩ := ih more later
      exact ⟨x', .tail _ present, same⟩

theorem GenericParam.Told.borrows_bare {p : GenericParam} (told : p.Told (Borrows source)) :
    Borrows source p.renderBare := by
  have sort := told.sort
  unfold renderBare
  split
  · rename_i bounds default shape
    rw [shape] at sort
    split
    · rw [String.append_empty]
      exact told.name
    · rw [← String.append_assoc]
      exact (told.name.joint (by decide)).then sort.borrows
  · rename_i ty default shape
    rw [shape] at sort
    exact (((Finished.lead (by decide)).then told.name).joint (by decide)).then sort.borrows
  · exact told.text

theorem borrows_lifetimeTexts {params : List GenericParam} (told : ∀ p ∈ params, p.Told (Borrows source)) :
    ∀ text ∈ lifetimeTexts params, Borrows source text :=
  List.forall_mem_map.mpr fun p listed => (told p (List.mem_filter.mp listed).1).text

theorem told_passedParams {params : List GenericParam} (told : ∀ p ∈ params, p.Told (Borrows source)) :
    ∀ p ∈ passedParams params, p.Told (Borrows source) :=
  List.forall_mem_map.mpr fun p listed =>
    have own := told p (List.mem_filter.mp listed).1
    ⟨own.borrows_bare, own.name⟩

theorem borrows_selfParameterText {trait : String} {params : List GenericParam} (receiver : Option SelfParam)
    (scope : String) (named : Borrows source trait) (told : ∀ p ∈ params, p.Told (Borrows source)) :
    Borrows source (selfParameterText trait params receiver none scope) := by
  have applied : Borrows source (trait ++ if (params.map GenericParam.name).isEmpty then "" else
      "<" ++ ", ".intercalate (params.map GenericParam.name) ++ ">") := by
    split
    · rw [String.append_empty]
      exact named
    · rw [← String.append_assoc, ← String.append_assoc]
      refine ((named.joint (by decide)).then (.intercalate (by decide) ?_)).trail (by decide)
      exact List.forall_mem_map.mpr fun p listed => (told p listed).name
  refine ((Finished.lead (f := selfParameter ++ ": ") (by decide)).then (.intercalate (by decide) ?_))
  intro text listed
  rcases List.mem_append.mp listed with front | none
  · rcases List.mem_append.mp front with sized | only
    · split at sized
      · cases sized
      · rw [List.mem_singleton.mp sized]
        exact .of_no_marker (by decide)
    · rw [List.mem_singleton.mp only]
      exact applied
  · cases none

theorem borrows_innerText {form : ReceiverForm} (told : form.Told (Borrows source)) :
    Borrows source form.innerText := by
  cases form with
  | reference lifetime mutable =>
    have named : Borrows source (lifetime.getD "") := by
      cases lifetime with
      | none => exact .of_no_initial (by decide)
      | some name => exact told name rfl
    have front : Borrows source (innerReceiver ++ ": &" ++ lifetime.getD "") :=
      (Finished.lead (f := innerReceiver ++ ": &") (by decide)).then named
    cases mutable
    · exact ((front.joint (by decide)).append (Finished.lead (f := "") (by decide))).then
        (Finished.lead (by decide)).borrows
    · exact ((front.joint (by decide)).append (Finished.lead (f := "mut ") (by decide))).then
        (Finished.lead (by decide)).borrows
  | typed mutable ty =>
    cases mutable
    · exact (Finished.lead (f := "" ++ innerReceiver ++ ": ") (by decide)).then (Ty.Told.borrows told)
    · exact (Finished.lead (f := "mut " ++ innerReceiver ++ ": ") (by decide)).then (Ty.Told.borrows told)
  | value mutable => cases mutable <;> exact (Finished.lead (by decide)).borrows

section

variable {d : Declaration} (told : d.HeaderTold (Borrows source))

include told

theorem told_liftedParams {n : Nat} {lifted : List Lifted} {passed : List Passed}
    (own : ToldEach (Lifted.Told (Borrows source)) lifted) (done : liftedParams d n lifted = .ok passed) :
    ∀ p ∈ passed, p.Told (Borrows source) := by
  induction lifted generalizing n passed with
  | nil =>
    cases done
    exact List.forall_mem_nil _
  | cons l lifted ih =>
    obtain ⟨text, spelled, rest⟩ := bind_eq_ok_iff.mp done
    obtain ⟨others, more, last⟩ := bind_eq_ok_iff.mp rest
    cases last
    obtain ⟨first, later⟩ := List.forall_mem_cons.mp own
    refine List.forall_mem_cons.mpr ⟨⟨told.selfInSignature ?_ spelled,
      show Borrows source "_" from .of_no_marker (by decide)⟩, ih later more⟩
    exact ((borrows_numbered (by decide) n).joint (by decide)).then (Bound.ToldEach.borrows first)

theorem told_forwardedParams {forwards : List Forward} {types : List Ty} {passed : List Passed}
    (names : ∀ f ∈ forwards, Borrows source f.outer ∧ Borrows source f.inner)
    (own : ∀ ty ∈ types, ty.Told (Borrows source)) (done : forwardedParams d forwards types = .ok passed) :
    ∀ p ∈ passed, p.Told (Borrows source) := by
  induction forwards generalizing types passed with
  | nil =>
    cases done
    exact List.forall_mem_nil _
  | cons forward forwards ih =>
    cases types with
    | nil =>
      cases done
      exact List.forall_mem_nil _
    | cons ty types =>
      obtain ⟨text, spelled, rest⟩ := bind_eq_ok_iff.mp done
      obtain ⟨others, more, last⟩ := bind_eq_ok_iff.mp rest
      cases last
      obtain ⟨⟨outer, inner⟩, names⟩ := List.forall_mem_cons.mp names
      obtain ⟨first, own⟩ := List.forall_mem_cons.mp own
      refine List.forall_mem_cons.mpr ⟨⟨?_, outer⟩, ih names own more⟩
      exact (inner.joint (by decide)).then (told.selfInSignature first.borrows spelled)

theorem told_receiverParams {receiver : Option SelfParam} {passed : List Passed}
    (own : ∀ r ∈ receiver, r.Told (Borrows source)) (done : receiverParams d receiver = .ok passed) :
    ∀ p ∈ passed, p.Told (Borrows source) := by
  cases receiver with
  | none =>
    cases done
    exact List.forall_mem_nil _
  | some r =>
    obtain ⟨text, spelled, rfl⟩ := exists_of_map_ok done
    refine List.forall_mem_singleton.mpr ⟨?_, show Borrows source "self" from .of_no_marker (by decide)⟩
    exact told.selfInSignature (borrows_innerText (own r rfl).form) spelled

theorem told_selfParams {decision : Decision} (unmarked : decision.marker = none) :
    ∀ p ∈ selfParams d decision, p.Told (Borrows source) := by
  intro p listed
  have subject := told.subject
  unfold selfParams at listed
  split at listed
  · rename_i name visibility supertraits shape
    rw [shape] at subject
    obtain rfl := List.mem_singleton.mp listed
    refine ⟨?_, show Borrows source "Self" from .of_no_marker (by decide)⟩
    rw [unmarked]
    exact borrows_selfParameterText _ decision.captured.scope subject told.generics
  · cases listed

theorem innerFunction_told {decision : Decision} {body : String} {f : InnerFunction}
    (unmarked : decision.marker = none) (own : decision.Told (Borrows source)) (given : Borrows source body)
    (done : innerFunction d decision body = .ok f) : f.Told (Borrows source) := by
  obtain ⟨lifted, inferred, rest⟩ := bind_eq_ok_iff.mp done
  obtain ⟨receiver, received, rest⟩ := bind_eq_ok_iff.mp rest
  obtain ⟨params, forwarded, rest⟩ := bind_eq_ok_iff.mp rest
  obtain ⟨output, answered, rest⟩ := bind_eq_ok_iff.mp rest
  obtain ⟨inner, moved, rest⟩ := bind_eq_ok_iff.mp rest
  obtain ⟨requirements, required, last⟩ := bind_eq_ok_iff.mp rest
  cases last
  have signature := own.signature
  have types := Ty.eachText_liftEach (P := Borrows source) (fun k => borrows_numbered (by decide) k) 0
    (decision.captured.signature.params.map Param.ty)
    (eachText_types.mpr (List.forall_mem_map.mpr fun p listed => (signature.params p listed).ty))
  refine ⟨(Finished.lead (by decide)).then own.name, ?_, ?_, ?_, ?_, ?_, told.innerBody given moved⟩
  · refine List.forall_mem_append.mpr ⟨List.forall_mem_append.mpr ⟨borrows_lifetimeTexts told.generics,
      borrows_lifetimeTexts signature.generics⟩, List.forall_mem_singleton.mpr own.scope⟩
  · refine List.forall_mem_append.mpr ⟨List.forall_mem_append.mpr ⟨List.forall_mem_append.mpr
      ⟨told_passedParams told.generics, told_passedParams signature.generics⟩,
      told_liftedParams told types.2 inferred⟩, told_selfParams told unmarked⟩
  · refine List.forall_mem_append.mpr ⟨told_receiverParams told signature.receiver received, ?_⟩
    refine told_forwardedParams told (fun forward listed => ?_) (eachText_types.mp types.1) forwarded
    obtain ⟨n, bound, rfl⟩ := List.mem_mapIdx.mp listed
    have pattern := (signature.params _ (List.getElem_mem bound)).pattern
    exact ⟨Forward.borrows_outer pattern n, pattern⟩
  · rintro text ⟨⟩
    cases shape : decision.captured.signature.output with
    | none =>
      rw [shape] at answered
      cases answered
    | some ty =>
      rw [shape] at answered
      obtain ⟨_, spelled, same⟩ := exists_of_map_ok answered
      cases same
      exact told.selfInSignature (signature.output ty shape).borrows spelled
  · intro text listed
    obtain ⟨plain, present, spelled⟩ := mem_of_mapM_ok required listed
    refine told.selfInSignature ?_ spelled
    rcases List.mem_append.mp present with front | outlives
    · rcases List.mem_append.mp front with outer | inner
      · exact told.requirements plain outer
      · exact signature.requirements plain inner
    · exact own.outlives plain outlives

end

theorem Blank.finished {text : String} (blank : Blank text) : Finished source text where
  borrows := .of_no_initial fun listed => blank_apart (blank 'S' listed) (by decide)
  apart := fun c last => blank_apart (blank c (List.mem_of_getLast? last))

theorem Borrows.underneath {front : String} {lines : List String} (own : Borrows source front)
    (all : ∀ line ∈ lines, Borrows source line) : Borrows source (front ++ underneath lines) := by
  induction lines generalizing front with
  | nil => simpa [Deasync.underneath] using own
  | cons line lines ih =>
    obtain ⟨first, others⟩ := List.forall_mem_cons.mp all
    have more := ih ((own.joint (f := "\n") (by decide)).then first) others
    simpa [Deasync.underneath, String.append_assoc] using more

theorem Finished.join {texts : List String} (all : ∀ text ∈ texts, Finished source text) :
    Finished source (String.join texts) := by
  induction texts with
  | nil => exact .lead (by decide)
  | cons text texts ih =>
    obtain ⟨first, others⟩ := List.forall_mem_cons.mp all
    rw [String.join_cons]
    exact first.append (ih others)

theorem finished_attributePrefix {attributes : List Attribute} (told : ∀ a ∈ attributes, Borrows source a.text) :
    Finished source (attributePrefix attributes) :=
  .join (List.forall_mem_map.mpr fun a listed => (told a listed).joint (by decide))

-- A text that may be missing, with a blank behind it.
theorem finished_optional (text : Option String) : (∀ own ∈ text, Borrows source own) →
    Finished source (match text with | some own => own ++ " " | none => "") := by
  intro told
  cases text with
  | none => exact .lead (f := "") (by decide)
  | some own => exact (told own rfl).joint (by decide)

theorem finished_perhaps (b : Bool) {f : String} (lead : isLead f) :
    Finished source (if b then f else "") := by
  cases b
  · exact .lead (f := "") (by decide)
  · exact .lead lead

theorem Signature.Told.qualifiers {s : Signature} (told : s.Told (Borrows source)) :
    Finished source s.qualifiers.render :=
  (((finished_optional _ told.visibility).append (finished_perhaps _ (f := "default ") (by decide))).append
    (finished_perhaps _ (f := "unsafe ") (by decide))).append (finished_optional _ told.abi)

theorem SelfParam.Told.borrows_outer {r : SelfParam} (told : r.Told (Borrows source)) (hasBody : Bool) :
    Borrows source (r.outerText hasBody) := by
  refine (finished_attributePrefix told.attributes).then ?_
  have form := told.form
  split
  · rename_i lifetime mutable shape
    rw [shape] at form
    have named : Borrows source (lifetime.getD "") := by
      cases lifetime with
      | none => exact .of_no_initial (by decide)
      | some name => exact form name rfl
    exact ((((Finished.lead (by decide)).then named).joint (by decide)).append
      (finished_perhaps mutable (by decide))).then (.of_no_initial (by decide))
  · rename_i mutable ty shape
    rw [shape] at form
    exact ((finished_perhaps (mutable && !hasBody) (by decide)).append (.lead (by decide))).then
      (Ty.Told.borrows form)
  · rename_i mutable _
    exact (finished_perhaps (mutable && !hasBody) (by decide)).then (.of_no_initial (by decide))

theorem Signature.Told.borrows_outerParams {s : Signature} (told : s.Told (Borrows source)) (hasBody : Bool) :
    ∀ text ∈ outerParams s hasBody, Borrows source text := by
  refine List.forall_mem_append.mpr ⟨List.forall_mem_map.mpr fun r listed =>
    (told.receiver r (Option.mem_toList.mp listed)).borrows_outer hasBody, fun text listed => ?_⟩
  obtain ⟨n, bound, rfl⟩ := List.mem_mapIdx.mp listed
  obtain ⟨pattern, ty, attributes⟩ := told.params _ (List.getElem_mem bound)
  have name : Borrows source (if hasBody then (Forward.of n (s.params[n]).pattern).outer else
      (s.params[n]).pattern) := by
    split
    · exact Forward.borrows_outer pattern n
    · exact pattern
  exact (((finished_attributePrefix attributes).then name).joint (by decide)).then ty.borrows

theorem Decision.Told.finished_header {decision : Decision} (told : decision.Told (Borrows source)) :
    Finished source (outerFront decision ++ outerBack decision) := by
  have signature := told.signature
  have generics : Borrows source (", ".intercalate (lifetimeTexts decision.captured.signature.genericParams ++
      [decision.captured.scope] ++ (decision.captured.signature.genericParams.filter
        (!·.isLifetime)).map GenericParam.text)) := by
    refine .intercalate (by decide) (List.forall_mem_append.mpr ⟨List.forall_mem_append.mpr
      ⟨borrows_lifetimeTexts signature.generics, List.forall_mem_singleton.mpr told.scope⟩, ?_⟩)
    exact List.forall_mem_map.mpr fun p listed => (signature.generics p (List.mem_filter.mp listed).1).text
  have back := ((Finished.lead (f := " + ") (by decide)).then told.scope).joint (f := ">>") (by decide)
  have front := ((signature.qualifiers.append (.lead (f := "fn ") (by decide))).then
    signature.name).joint (f := "<") (by decide)
  have params := Borrows.intercalate (f := ", ") (by decide) (signature.borrows_outerParams decision.hasBody)
  have named := ((((front.then generics).joint (f := ">") (by decide)).append
    (.lead (f := "(") (by decide))).then params).joint (f := ") -> ") (by decide)
  refine .append ?_ back
  simp only [outerFront, outerGenerics, ← String.append_assoc] at named ⊢
  refine Borrows.joint (Finished.then (named.append (.lead (by decide +kernel))) ?_) (by decide)
  split
  · rename_i ty shape
    exact (signature.output ty shape).borrows
  · exact .of_no_initial (by decide)

theorem Decision.Told.borrows_requirements {decision : Decision} (told : decision.Told (Borrows source)) :
    ∀ text ∈ outerRequirements decision.unmarked, Borrows source text := by
  refine List.forall_mem_append.mpr ⟨List.forall_mem_append.mpr
    ⟨told.signature.requirements, told.outlives⟩, List.forall_mem_nil _⟩

section

variable {indent deeper : String} (outside : Blank indent) (inside : Blank deeper)

include outside inside

theorem borrows_requirementLines {requirements : List String}
    (told : ∀ text ∈ requirements, Borrows source text) :
    ∀ line ∈ requirementLines indent deeper requirements, Borrows source line := by
  unfold requirementLines
  split
  · exact List.forall_mem_nil _
  · refine List.forall_mem_cons.mpr ⟨outside.finished.then (.of_no_initial (by decide)),
      List.forall_mem_map.mpr fun text listed => ?_⟩
    exact ((inside.finished.then (told text listed)).joint (by decide)).borrows

theorem finished_bodilessEnding {front : String} (own : Finished source front) {requirements : List String}
    (told : ∀ text ∈ requirements, Borrows source text) :
    Finished source (front ++ bodilessEnding indent deeper requirements) := by
  unfold bodilessEnding
  split
  · rename_i last shape
    have lines : Borrows source (front ++ underneath ((indent ++ "where") ::
        requirements.dropLast.map fun text => deeper ++ text ++ ",")) := by
      refine own.borrows.underneath (List.forall_mem_cons.mpr
        ⟨outside.finished.then (.of_no_initial (by decide)), List.forall_mem_map.mpr fun text listed => ?_⟩)
      exact ((inside.finished.then (told text (List.mem_of_mem_dropLast listed))).joint (by decide)).borrows
    have final := (((lines.joint (f := "\n") (by decide)).append inside.finished).then
      (told last (List.mem_of_getLast? shape))).joint (f := ";") (by decide)
    simpa [underneath, String.append_assoc] using final
  · exact own.borrows.joint (by decide)

omit inside in
theorem InnerFunction.Told.borrows_opening {f : InnerFunction} (told : f.Told (Borrows source)) :
    Borrows source (f.opening indent) := by
  have blank : Finished source indent := outside.finished
  have front := (blank.append (.lead (f := "async ") (by decide))).append
    (finished_perhaps f.isUnsafe (f := "unsafe ") (by decide))
  refine (((front.append (.lead (f := "fn ") (by decide))).then told.name).joint (f := "<") (by decide)).then ?_
  exact .intercalate (by decide) (List.forall_mem_append.mpr
    ⟨told.lifetimes, List.forall_mem_map.mpr fun p listed => (told.types p listed).declared⟩)

omit outside in
theorem InnerFunction.Told.borrows_remainder {f : InnerFunction} (told : f.Told (Borrows source))
    {front : String} (own : Borrows source front) {deepest : String} (innermost : Blank deepest) :
    Borrows source (front ++ f.remainder deeper deepest) := by
  unfold remainder
  split
  · rw [← String.append_assoc]
    exact (own.joint (by decide)).then told.body
  · refine own.underneath (List.forall_mem_append.mpr ⟨List.forall_mem_cons.mpr
      ⟨inside.finished.then (.of_no_initial (by decide)), List.forall_mem_map.mpr fun text listed => ?_⟩,
      List.forall_mem_singleton.mpr (inside.finished.then told.body)⟩)
    exact ((innermost.finished.then (told.requirements text listed)).joint (by decide)).borrows

omit outside in
theorem InnerFunction.Told.borrows_closing {f : InnerFunction} (told : f.Told (Borrows source))
    {front : String} (own : Borrows source front) {deepest : String} (innermost : Blank deepest) :
    Borrows source (front ++ f.closing deeper deepest) := by
  have params : Borrows source (", ".intercalate (f.params.map Passed.declared)) :=
    .intercalate (by decide) (List.forall_mem_map.mpr fun p listed => (told.params p listed).declared)
  have head := ((own.joint (f := ">(") (by decide)).then params).joint (f := ")") (by decide)
  simp only [closing, ← String.append_assoc]
  refine told.borrows_remainder inside (head.then ?_) innermost
  split
  · rename_i ty shape
    exact (Finished.lead (by decide)).then (told.output ty shape)
  · exact .of_no_initial (by decide)

end

theorem InnerFunction.Told.borrows_call {f : InnerFunction} (told : f.Told (Borrows source)) :
    Borrows source f.call := by
  have given {list : List Passed} (all : ∀ p ∈ list, p.Told (Borrows source)) :
      Borrows source (", ".intercalate (list.map Passed.given)) :=
    .intercalate (by decide) (List.forall_mem_map.mpr fun p listed => (all p listed).given)
  have turbofish : Borrows source (f.name ++ if f.types.isEmpty then "" else
      "::<" ++ ", ".intercalate (f.types.map Passed.given) ++ ">") := by
    split
    · rw [String.append_empty]
      exact told.name
    · rw [← String.append_assoc, ← String.append_assoc]
      exact ((told.name.joint (by decide)).then (given told.types)).trail (by decide)
  have whole := ((turbofish.joint (f := "(") (by decide)).then (given told.params)).trail (f := ")") (by decide)
  unfold call
  dsimp only
  split
  · exact ((Finished.lead (by decide)).then whole).trail (by decide)
  · exact whole

theorem InnerFunction.Told.finished_ending {f : InnerFunction} (told : f.Told (Borrows source))
    {front indent deeper deepest : String} (own : Borrows source front) (outside : Blank indent)
    (inside : Blank deeper) (innermost : Blank deepest) :
    Finished source (front ++ bodiedEnding f indent deeper deepest) := by
  have declared := told.borrows_closing inside own innermost
  have called := ((((declared.joint (f := "\n") (by decide)).append inside.finished).append
    (.lead (f := "::std::boxed::Box::pin(") (by decide))).then told.borrows_call).joint (f := ")\n") (by decide)
  have whole := (called.append outside.finished).borrows.joint (f := "\x7d") (by decide)
  simpa only [bodiedEnding, ← String.append_assoc] using whole

-- What is written for one thread brings no marker in.
theorem MethodRewrite.Localized.finished {d : Declaration} {here full : MethodRewrite}
    (localized : here.Localized d full) (told : d.HeaderTold (Borrows source))
    (method : full.method.Told (Borrows source)) (decision : full.decision.Told (Borrows source)) :
    Finished source here.text := by
  have outside : Blank (full.indent d) := blank_indentAt _ _
  have inside : Blank (full.deeper d) := outside.append (blank_indentUnit d)
  have requirements : ∀ text ∈ outerRequirements here.decision, Borrows source text := by
    rw [localized.decision]
    exact decision.borrows_requirements
  cases body : full.method.body with
  | none =>
    rw [(localized.bodiless body).2]
    exact finished_bodilessEnding outside inside decision.finished_header requirements
  | some b =>
    obtain ⟨f, others, inner, _, _, written⟩ := localized.bodied b body
    have own : here.decision.Told (Borrows source) := by
      rw [localized.decision]
      exact ⟨decision.name, decision.signature, decision.scope, decision.outlives⟩
    have f' := innerFunction_told told (localized.decision ▸ rfl) own (method.body b body) inner
    have head := decision.finished_header.borrows.underneath
      (borrows_requirementLines outside inside requirements)
    have opened := ((((head.joint (f := "\n") (by decide)).append outside.finished).append
      (.lead (f := "\x7b\n") (by decide))).then (f'.borrows_opening inside))
    rw [written]
    exact f'.finished_ending opened outside inside (inside.append (blank_indentUnit d))

-- No marker begins in front of this place and runs on behind it.
def Unentered (text : String) (offset : Nat) : Prop :=
  ∀ p, 'S' ∈ p → (∀ c ∈ p, isMarkerChar c) → ¬p <:+ text.toList.take offset

theorem Borrows.patched {text : String} {position : Nat} {patches : List Text.Patch}
    (own : Borrows source text) (starts : ∀ patch ∈ patches, Unentered text patch.start)
    (news : ∀ patch ∈ patches, Finished source patch.replacement) :
    Borrows source (Text.patchFrom text position patches) := by
  induction patches generalizing position with
  | nil =>
    intro w marker inside
    rw [Text.patchFrom, Text.toList_sliceFrom] at inside
    exact own w marker (inside.trans (List.drop_suffix _ _).isInfix)
  | cons patch later ih =>
    obtain ⟨start, starts⟩ := List.forall_mem_cons.mp starts
    obtain ⟨new, news⟩ := List.forall_mem_cons.mp news
    intro w marker inside
    rw [Text.patchFrom, String.append_assoc, String.toList_append] at inside
    rcases infix_seam inside with left | right | ⟨p, s, rfl, some, more, ends, _⟩
    · exact own w marker (left.trans (infix_slice text _ _))
    · exact (new.then (ih starts news)) w marker right
    · obtain ⟨initial, letters, _⟩ := marker_seam marker some more
      rw [Text.toList_slice, ← List.drop_take] at ends
      exact absurd (ends.trans (List.drop_suffix _ _)) (start p initial letters)

-- A signature begins with a word.
theorem method_unentered {text : String} {d : Declaration} {m : Method}
    (read : Declaration.read text = .ok d) (listed : m ∈ d.methods) :
    Unentered text m.signature.extent.start := by
  obtain ⟨tokens, lexed, _, found, _⟩ := Declaration.read_eq_ok_iff.mp read
  have derived := ((read_eq_ok_iff declarations_ranked).mp found).derives
  obtain ⟨header, members, rfl, _, shown⟩ := declaration_parts derived
  obtain ⟨front, whole, after, rfl, method⟩ := members_method shown listed
  obtain ⟨own, inside, signature⟩ := method_signature method
  obtain ⟨t, rest, rfl⟩ := List.exists_cons_of_length_pos (spells_length_pos (by decide) signature.spells)
  have kind := Guide.starts_of_spells declarationGuide_right signature.spells t.kind (kindsOf rest) rfl
  have names : ∀ k ∈ signatureStarts, k.Names := by decide
  have place : m.signature.extent.start = t.extent.start := by
    rw [signature_extent signature]
    rfl
  obtain ⟨before, later, same⟩ := List.append_of_mem (a := t) (l := header ++ (front ++ whole ++ after))
    (by simp [inside.subset (.head _)])
  obtain ⟨row, chars, pieces, placed⟩ := lex_eq_ok_iff.mp lexed
  obtain ⟨p, word, q, rfl, _, own, _⟩ := placed_split (placed.trans same)
  obtain ⟨first, behind⟩ := lexed_append.mp pieces
  cases behind with
  | cons filled here _ =>
    have begins := ((names t.kind kind).lexeme here).1
    obtain ⟨c, word, rfl⟩ := List.exists_cons_of_ne_nil filled
    have start : m.signature.extent.start = (joined p).length := by
      rw [place, own]
      exact Nat.zero_add _
    intro letters initial all
    rw [start, ← chars, joined_append, List.take_left]
    exact first.no_beginning ⟨c, rfl, word_begins begins⟩ initial all

theorem map_eq_of_forall₂ {α β γ : Type} {f : α → γ} {g : β → γ} {l : List α} {u : List β}
    (alike : List.Forall₂ (fun a b => f a = g b) l u) : l.map f = u.map g := by
  induction alike with
  | nil => rfl
  | cons same _ ih => rw [List.map_cons, List.map_cons, same, ih]

theorem told_method {P : String → Prop} {d : Declaration} {m : Method} (told : d.Told P)
    (listed : m ∈ d.methods) : m.Told P := by
  obtain ⟨member, present, own⟩ := List.mem_filterMap.mp listed
  have shown := told.members member present
  cases member with
  | method m' =>
    cases own
    exact shown
  | associated a => cases own

-- An item that stays on one thread is refused where it would be refused otherwise. Else the same is decided
-- about every method but for its marker, and each method is rewritten without what asks for a marker and like
-- the other one besides. No marker is mentioned in its new text that is not mentioned in the texts of the method
-- itself and of the header, and none in the whole that the source does not mention.
theorem local_expansion {text : String} {d : Declaration} (read : Declaration.read text = .ok d)
    (carriers : Carriers) :
    (∃ fault, d.expand ⟨true⟩ carriers = .error fault ∧ d.expand ⟨false⟩ carriers = .error fault) ∨
    ∃ here full heres fulls, d.expand ⟨true⟩ carriers = .ok here ∧ d.expand ⟨false⟩ carriers = .ok full ∧
      here.methods = full.methods.map Decision.unmarked ∧
      here.methods = heres.map MethodRewrite.decision ∧ full.methods = fulls.map MethodRewrite.decision ∧
      fulls.map MethodRewrite.method = d.asyncMethods ∧
      List.Forall₂ (MethodRewrite.Localized d) heres fulls ∧
      Text.Spliced 0 text.toList (heres.map MethodRewrite.patch) here.text.toList ∧
      Text.Spliced 0 text.toList (fulls.map MethodRewrite.patch) full.text.toList ∧
      (∀ r ∈ heres, ∀ parts, d.HeaderTold (Borrows parts) → r.method.Told (Borrows parts) →
        Borrows parts r.text) ∧
      Borrows text here.text := by
  have row := read_asyncMethods read
  have source := (read_methods read).1
  have told : d.Told (Borrows text) := told_of_read read fun _ inside => .of_part inside
  have member {m : Method} (listed : m ∈ d.asyncMethods) : m ∈ d.methods := (List.mem_filter.mp listed).1
  have paired := attempt_local d carriers d.asyncMethods
  unfold Declaration.expand Attempt.outcome Declaration.attempt
  generalize heresAt : attempt d ⟨true⟩ carriers d.asyncMethods = first at paired ⊢
  generalize fullsAt : attempt d ⟨false⟩ carriers d.asyncMethods = second at paired ⊢
  obtain ⟨heresDecided, _ | _⟩ := first <;> obtain ⟨fullsDecided, _ | _⟩ := second
  · cases paired
    exact .inl ⟨_, rfl, rfl⟩
  · cases paired
  · cases paired
  · cases paired with
    | ok related =>
      obtain ⟨heres, fulls, methods, localized, generated, rfl, rfl, rfl, rfl⟩ := related
      have same : heres.map MethodRewrite.method = d.asyncMethods := by
        rw [← methods]
        exact map_eq_of_forall₂ (localized.imp fun _ _ alike => alike.method)
      have finished {parts : String} (header : d.HeaderTold (Borrows parts)) : ∀ r ∈ heres,
          r.method.Told (Borrows parts) → Finished parts r.text := by
        intro r listed own
        obtain ⟨r', present, alike⟩ := exists_of_forall₂ localized listed
        rw [alike.method] at own
        exact alike.finished header own (decideMethod_told header own (generated r' present).decided)
      refine .inr ⟨_, _, heres, fulls, rfl, rfl, ?_, rfl, rfl, methods, localized, ?_, ?_,
        fun r listed parts header own => (finished header r listed own).borrows, ?_⟩
      · rw [List.map_map]
        exact map_eq_of_forall₂ (localized.imp fun _ _ alike => alike.decision)
      · rw [source]
        exact rewrites_spliced row same
      · rw [source]
        exact rewrites_spliced row methods
      · rw [source]
        have news : ∀ r ∈ heres, Finished text r.text ∧ Unentered text r.method.signature.extent.start := by
          intro r listed
          have own : r.method ∈ d.methods := member (same ▸ List.mem_map_of_mem listed)
          exact ⟨finished told.header r listed (told_method told own), method_unentered read own⟩
        refine Borrows.patched (.of_part List.infix_rfl) ?_ ?_
        · exact List.forall_mem_map.mpr fun r listed => (news r listed).2
        · exact List.forall_mem_map.mpr fun r listed => (news r listed).1

def borrowedText : String :=
  "trait A \x7b async fn f(&mut self) \x7b\x7d async fn g(&self); \x7d"

theorem local_expansion_borrowed : ∃ d, Declaration.read borrowedText = .ok d ∧
    ∃ here full, d.expand ⟨true⟩ [] = .ok here ∧ d.expand ⟨false⟩ [] = .ok full ∧
      full.methods.map Decision.marker = [some sendMarker, none] ∧
      here.methods = full.methods.map Decision.unmarked ∧ Borrows borrowedText here.text := by
  have accepted : (Declaration.read borrowedText).toOption.any fun d =>
      (d.expand ⟨false⟩ []).toOption.any fun full =>
        full.methods.map Decision.marker = [some sendMarker, none] := by decide +kernel
  obtain ⟨d, found, facts⟩ := (Option.any_eq_true _ _).mp accepted
  obtain ⟨full, done, marked⟩ := (Option.any_eq_true _ _).mp facts
  have read := toOption_eq_some found
  have second := toOption_eq_some done
  refine ⟨d, read, ?_⟩
  rcases local_expansion read [] with
    ⟨fault, _, failed⟩ | ⟨here, full', _, _, first, same, methods, _, _, _, _, _, _, _, borrows⟩
  · rw [second] at failed
    cases failed
  · rw [second] at same
    cases same
    exact ⟨here, full, first, second, of_decide_eq_true marked, methods, borrows⟩

end Deasync
