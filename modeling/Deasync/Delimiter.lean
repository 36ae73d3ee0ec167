import Deasync.Fault

namespace Deasync

structure Closing where
  before : List Token
  closer : Token
  after : List Token
  deriving Repr, DecidableEq

def Closing.within (token : Token) (c : Closing) : Closing := { c with before := token :: c.before }

-- Reads on until no delimiter of `waiting`, the closers still due, innermost first, is left. `first` is the token
-- the group is reported by when it never ends.
def closingFrom (first : Token) : List Kind → List Token → Except Fault Closing
  | _, [] => .error ⟨.unclosedOpener first.text, .ofExtent first.extent⟩
  | waiting, token :: later =>
    match token.kind.closer? with
    | some due => (closingFrom first (due :: waiting) later).map (.within token)
    | none =>
      if token.kind.isCloser then
        match waiting with
        | [] => .error ⟨.mismatchedCloser token.text, .ofExtent token.extent⟩
        | due :: outer =>
          if due ≠ token.kind then
            .error ⟨.mismatchedCloser token.text, .ofExtent token.extent⟩
          else if outer.isEmpty then .ok ⟨[], token, later⟩
          else (closingFrom first outer later).map (.within token)
      else (closingFrom first waiting later).map (.within token)

def closing (first : Token) (later : List Token) : Except Fault Closing :=
  closingFrom first [] (first :: later)

theorem Closing.within_split {token : Token} {later : List Token} {result : Except Fault Closing}
    {c : Closing} (split : ∀ d, result = .ok d → later = d.before ++ d.closer :: d.after)
    (mapped : result.map (.within token) = .ok c) :
    token :: later = c.before ++ c.closer :: c.after := by
  cases result with
  | error _ => cases mapped
  | ok d =>
    cases mapped
    simp only [Closing.within, List.cons_append]
    rw [← split d rfl]

theorem closingFrom_split {first : Token} {waiting : List Kind} {tokens : List Token} {c : Closing}
    (closed : closingFrom first waiting tokens = .ok c) :
    tokens = c.before ++ c.closer :: c.after := by
  fun_induction closingFrom first waiting tokens generalizing c with
  | case1 => cases closed
  | case2 waiting token later due opens ih => exact Closing.within_split (fun _ => ih) closed
  | case3 token later closes none => cases closed
  | case4 token later closes none due outer different => cases closed
  | case5 token later closes none due outer same last => cases closed; rfl
  | case6 token later closes none due outer same last ih =>
    exact Closing.within_split (fun _ => ih) closed
  | case7 waiting token later closes none ih => exact Closing.within_split (fun _ => ih) closed

theorem closing_split {first : Token} {later : List Token} {c : Closing}
    (closed : closing first later = .ok c) : first :: later = c.before ++ c.closer :: c.after :=
  closingFrom_split closed

theorem closing_after_length {first : Token} {later : List Token} {c : Closing}
    (closed : closing first later = .ok c) : c.after.length ≤ later.length := by
  have split := congrArg List.length (closing_split closed)
  simp only [List.length_append, List.length_cons] at split
  omega

end Deasync
