import Deasync.Syntax.Signature

namespace Deasync

inductive Receiver where
  | byValue | byReference | byMutReference | absent
  deriving Repr, DecidableEq

namespace Receiver

def label : Receiver → String
  | byValue => "BY_VALUE"
  | byReference => "BY_REFERENCE"
  | byMutReference => "BY_MUT_REFERENCE"
  | absent => "NONE"

def ofReference (mutable : Bool) : Receiver := if mutable then byMutReference else byReference

-- `&self` and `self: &Self` borrow. Any other type, also one that holds a reference such as `Pin<&mut Self>`, is
-- moved into the call.
def ofForm : ReceiverForm → Receiver
  | .reference _ mutable => ofReference mutable
  | .typed _ (.reference _ mutable inner _) =>
    if inner.bareName? = some "Self" then ofReference mutable else byValue
  | .typed .. => byValue
  | .value _ => byValue

def of (param : Option SelfParam) : Receiver :=
  match param with
  | some p => ofForm p.form
  | none => absent

end Receiver

def sendMarker : String := "::core::marker::Send"

def syncMarker : String := "::core::marker::Sync"

-- The marker trait `Self` has to have for the future of a method to be sent between threads. A body that keeps
-- `&self` needs `Sync`, one that keeps `&mut self` needs `Send`; without a body, without a borrowed `self`, and for
-- items that stay on one thread, nothing is needed.
def Receiver.marker? (receiver : Receiver) (hasBody isLocal : Bool) : Option String :=
  if isLocal || !hasBody then none
  else match receiver with
    | byReference => some syncMarker
    | byMutReference => some sendMarker
    | _ => none

end Deasync
