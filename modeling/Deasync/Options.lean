import Deasync.Fault
import Deasync.Text.Blank

namespace Deasync

structure Options where
  isLocal : Bool
  deriving Repr, DecidableEq

def Options.ofArgument (argument : Option String) (span : Span) : Except Fault Options :=
  match argument with
  | none => .ok ⟨false⟩
  | some text =>
    let asked := Text.trim text
    if asked.isEmpty then .ok ⟨false⟩
    else if asked = "local" then .ok ⟨true⟩
    else .error ⟨.unsupportedArgument asked, span⟩

end Deasync
