import Deasync.Proofs.Grammar.Acceptance
import Deasync.Proofs.Grammar.Reach

namespace Deasync

open Grammar

-- How many productions deep the smallest derivation of a nonterminal is.
def Nonterminal.depth : Nonterminal → Nat
  | .delimited | .constTrees | .scope | .equalsConst | .pathTail | .path | .binder | .plainOutput
  | .functionPointer | .bounds | .boundTail | .type | .genericArgList | .genericParam
  | .wherePredicates | .pattern | .selfParam | .block | .declaration | .associated | .method => 1
  | .asPath | .arrayLength | .qualifiedPath | .typeList | .equalsType | .genericParamList | .param
  | .params | .output | .equalsTrees | .implemented | .member => 2
  | .paramList => 3
  | _ => 0

theorem declarations_grounded : declarations.Grounded Nonterminal.depth where
  descends := by
    intro n
    cases n <;> decide
  solid := by
    intro n
    cases n <;> decide

-- Tokens that a declaration begins with.
def Viable (tokens : List Token) : Prop :=
  ∃ text more d, declarations.Derives text .declaration (tokens ++ more) d

theorem viable_iff {tokens : List Token} :
    Viable tokens ↔ Begins (declarations.Spells .declaration) (kindsOf tokens) := by
  constructor
  · rintro ⟨text, more, d, derived⟩
    have spelled := derived.spells
    rw [kindsOf_append] at spelled
    exact ⟨kindsOf more, spelled⟩
  · rintro ⟨more, spelled⟩
    obtain ⟨rest, rfl⟩ : ∃ rest, kindsOf rest = more :=
      ⟨more.map fun k => ⟨k, "", default⟩, by simp [kindsOf, Function.comp_def]⟩
    rw [← kindsOf_append] at spelled
    exact ⟨"", rest, spells_iff.mp spelled⟩

-- The reader stops at the end of the longest viable part of the tokens.
theorem read_stops {text : String} {tokens : List Token} {left : Nat}
    (failed : declarations.read .declaration text tokens = .error left) :
    ∃ front rest, tokens = front ++ rest ∧ rest.length = left ∧ Viable front ∧
      ∀ token later, rest = token :: later → ¬Viable (front ++ [token]) := by
  have reaches := read_eq_error declarations_ranked declarations_grounded failed
  obtain ⟨front, rest, split, length, begins⟩ := reaches.viable
  refine ⟨front, rest, split, length, viable_iff.mpr begins, ?_⟩
  rintro token later rfl longer
  have least := reaches.furthest (w := front ++ [token]) (u := later) (by simp [split])
    (viable_iff.mp longer)
  dsimp only at least length
  rw [← length, List.length_cons] at least
  exact Nat.not_succ_le_self _ least

theorem read_syntaxFault {text : String} {tokens : List Token} {left : Nat}
    (lexed : lex text = .ok tokens) (checked : checkTarget text tokens = .ok ())
    (failed : declarations.read .declaration text tokens = .error left) :
    Declaration.read text = .error (syntaxFault text tokens left) := by
  rw [Declaration.read, lexed]
  simp only [bind, Except.bind, checked, failed, Except.mapError]

-- A text that lexes and has the head of a declaration, but is none, is refused at the first token that
-- no declaration goes on with, or at its end when every token goes on.
theorem syntax_error_earliest {text : String} {tokens : List Token} (lexed : lex text = .ok tokens)
    (checked : checkTarget text tokens = .ok ())
    (underivable : ¬∃ d, declarations.Derives text .declaration tokens d) :
    ∃ fault, Declaration.read text = .error fault ∧ fault.cause.family = .parse ∧
      ((∃ front token rest, tokens = front ++ token :: rest ∧ Viable front ∧
          ¬Viable (front ++ [token]) ∧
          fault.span = .between text token.extent.start token.extent.stop none) ∨
        Viable tokens ∧ fault.span = .between text text.length text.length none) := by
  cases read : declarations.read .declaration text tokens with
  | ok d =>
    have derived := ((read_eq_ok_iff declarations_ranked).mp read).derives
    exact absurd ⟨d, derived⟩ underivable
  | error left =>
    obtain ⟨front, rest, rfl, rfl, viable, stuck⟩ := read_stops read
    have behind : (front ++ rest).drop ((front ++ rest).length - rest.length) = rest := by
      rw [List.length_append, Nat.add_sub_cancel, List.drop_left]
    refine ⟨_, read_syntaxFault lexed checked read, ?_⟩
    rw [syntaxFault, behind]
    cases rest with
    | nil => exact ⟨rfl, .inr ⟨by rwa [List.append_nil], rfl⟩⟩
    | cons token later => exact ⟨rfl, .inl ⟨front, token, later, rfl, viable, stuck token later rfl, rfl⟩⟩

def brokenText : String := "impl A<'a, B> for (C \x7b fn d(); \x7d"

theorem syntax_error_earliest_broken : ∃ tokens, lex brokenText = .ok tokens ∧
    checkTarget brokenText tokens = .ok () ∧
    (¬∃ d, declarations.Derives brokenText .declaration tokens d) ∧
    ∃ fault, Declaration.read brokenText = .error fault ∧ fault.cause.family = .parse ∧
      ((∃ front token rest, tokens = front ++ token :: rest ∧ Viable front ∧
          ¬Viable (front ++ [token]) ∧
          fault.span = .between brokenText token.extent.start token.extent.stop none) ∨
        Viable tokens ∧ fault.span = .between brokenText brokenText.length brokenText.length none) := by
  have refused : (lex brokenText).toOption.any fun tokens =>
      (checkTarget brokenText tokens).toOption.isSome &&
        (declarations.read .declaration brokenText tokens).toOption.isNone := by
    decide +kernel
  obtain ⟨tokens, lexed, refused⟩ := (Option.any_eq_true _ _).mp refused
  rw [Bool.and_eq_true] at refused
  obtain ⟨checked, failed⟩ := refused
  obtain ⟨⟨⟩, checked⟩ := Option.isSome_iff_exists.mp checked
  have lexed := toOption_eq_some lexed
  have checked := toOption_eq_some checked
  have underivable : ¬∃ d, declarations.Derives brokenText .declaration tokens d := by
    intro derivable
    obtain ⟨d, read⟩ : ∃ d, declarations.read .declaration brokenText tokens = .ok d :=
      (exists_read_iff declarations_ranked).mpr (spells_iff.mpr derivable)
    rw [read] at failed
    cases failed
  exact ⟨tokens, lexed, checked, underivable, syntax_error_earliest lexed checked underivable⟩

end Deasync
