import Deasync.Proofs.MethodExpansion

namespace Deasync

open Lexeme

theorem intercalate_chars (between first : String) (rest : List String) :
    (between.intercalate (first :: rest)).toList =
      first.toList ++ rest.flatMap fun t => between.toList ++ t.toList := by
  induction rest generalizing first with
  | nil => simp
  | cons second rest ih =>
    rw [String.intercalate_cons_cons, String.toList_append, String.toList_append, ih,
      List.flatMap_cons]
    simp

def InnerFunction.text (f : InnerFunction) (indent deeper : String) : String :=
  "\n".intercalate (f.lines indent deeper)

-- The line that ends with the output.
def InnerFunction.header (f : InnerFunction) (indent : String) : String :=
  indent ++ "async " ++ (if f.isUnsafe then "unsafe " else "") ++ "fn " ++ f.name ++
    ("<" ++ ", ".intercalate (f.lifetimes ++ f.types.map Passed.declared) ++ ">") ++ "(" ++
    ", ".intercalate (f.params.map Passed.declared) ++ ")" ++
    match f.output with
    | some ty => " -> " ++ ty
    | none => ""

theorem InnerFunction.lines_header (f : InnerFunction) (indent deeper : String) :
    f.lines indent deeper = if f.requirements.isEmpty then [f.header indent ++ " " ++ f.body]
      else [f.header indent, indent ++ "where"] ++ f.requirements.map (fun r => deeper ++ r ++ ",") ++
        [indent ++ f.body] := rfl

-- Each requirement on a line of its own, with a comma behind it.
def requirementChars (deeper : String) (texts : List String) : List Char :=
  texts.flatMap fun t => '\n' :: (deeper.toList ++ (t.toList ++ [',']))

-- What stands behind the header: requirements, if there are any, and the body.
def endingChars (indent deeper body : String) : List String → List Char
  | [] => ' ' :: body.toList
  | texts => '\n' :: (indent.toList ++ ('w' :: 'h' :: 'e' :: 'r' :: 'e' ::
      (requirementChars deeper texts ++ '\n' :: (indent.toList ++ body.toList))))

theorem InnerFunction.text_chars (f : InnerFunction) (indent deeper : String) :
    (f.text indent deeper).toList =
      (f.header indent).toList ++ endingChars indent deeper f.body f.requirements := by
  rw [text, lines_header]
  cases f.requirements with
  | nil => simp [endingChars]
  | cons r requirements =>
    rw [List.isEmpty_cons, if_neg (by decide), List.cons_append, List.cons_append, List.cons_append,
      List.cons_append, intercalate_chars]
    simp [endingChars, requirementChars, List.flatMap_map]

def Blank (text : String) : Prop := ∀ c ∈ text.toList, isGapChar c

theorem Blank.append {a b : String} (first : Blank a) (second : Blank b) : Blank (a ++ b) := by
  intro c listed
  rw [String.toList_append] at listed
  exact (List.mem_append.mp listed).elim (first c) (second c)

theorem blank_indentAt (source : String) (offset : Nat) : Blank (indentAt source offset) := by
  intro c listed
  rw [indentAt, String.toList_ofList] at listed
  have blank := List.all_eq_true.mp List.all_takeWhile c listed
  simp only [Bool.or_eq_true, beq_iff_eq] at blank
  rcases blank with rfl | rfl <;> rfl

theorem blank_indentUnit (d : Declaration) : Blank d.indentUnit := by
  unfold Declaration.indentUnit
  split <;> simp [Blank, isGapChar]

theorem intercalate_between {head inner : List String} (first : head ≠ []) (second : inner ≠ [])
    (opener call closer : String) :
    "\n".intercalate (head ++ [opener] ++ inner ++ [call, closer]) = "\n".intercalate head ++ "\n" ++
      opener ++ "\n" ++ "\n".intercalate inner ++ "\n" ++ call ++ "\n" ++ closer := by
  rw [String.intercalate_append_of_ne_nil (by simp [first]) (by simp),
    String.intercalate_append_of_ne_nil (by simp [first]) second,
    String.intercalate_append_of_ne_nil first (by simp)]
  simp [String.append_assoc]

theorem InnerFunction.lines_ne_nil (f : InnerFunction) (indent deeper : String) :
    f.lines indent deeper ≠ [] := by
  rw [lines_header]
  split <;> simp

-- A body between braces: the inner function and the call of it.
theorem methodText_bodied {d : Declaration} {options : Options} {m : Method} {decision : Decision}
    {b : Block} {generated indent deeper : String} (given : m.body = some b)
    (outside : indent = indentAt d.source m.signature.extent.start)
    (inside : deeper = indent ++ d.indentUnit)
    (written : methodText d options m decision = .ok generated) :
    ∃ f : InnerFunction, innerFunction d decision b.text = .ok f ∧
      generated = "\n".intercalate ([outerHeader options decision] ++
          requirementLines indent deeper (outerRequirements decision)) ++ "\n" ++ indent ++ "\x7b\n" ++
        f.text deeper (deeper ++ d.indentUnit) ++ "\n" ++ deeper ++ "::std::boxed::Box::pin(" ++
        f.call ++ ")\n" ++ indent ++ "\x7d" := by
  subst outside inside
  simp only [methodText, given] at written
  obtain ⟨f, inner, last⟩ := bind_eq_ok_iff.mp written
  obtain rfl := Except.ok.inj last
  refine ⟨f, inner, ?_⟩
  rw [intercalate_between (by simp) (f.lines_ne_nil _ _)]
  simp only [InnerFunction.text, String.append_assoc]
  rfl

end Deasync
