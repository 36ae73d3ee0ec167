import Deasync.Syntax.Signature

namespace Deasync

structure Block where
  text : String
  extent : Extent
  deriving Repr, DecidableEq

structure Method where
  attributes : List Attribute
  signature : Signature
  body : Option Block
  extent : Extent
  deriving Repr

def Method.hasBody (m : Method) : Bool := m.body.isSome

def Method.isAsync (m : Method) : Bool := m.signature.qualifiers.isAsync

inductive AssociatedSort where
  | type (name : String)
  | const (name : String)
  | macroCall
  deriving Repr, DecidableEq

structure Associated where
  sort : AssociatedSort
  text : String
  extent : Extent
  deriving Repr, DecidableEq

inductive Member where
  | method (m : Method)
  | associated (a : Associated)
  deriving Repr

def Member.method? : Member → Option Method
  | method m => some m
  | associated _ => none

structure Implemented where
  negative : Bool
  ty : Ty
  deriving Repr

inductive Subject where
  | contract (name : String) (visibility : Option String) (supertraits : List Bound)
  | implementation (selfTy : Ty) (implemented : Option Implemented)
  deriving Repr

structure Declaration where
  subject : Subject
  attributes : List Attribute
  isUnsafe : Bool
  generics : Option Generics
  whereClause : Option WhereClause
  members : List Member
  extent : Extent
  source : String
  deriving Repr

namespace Declaration

def methods (d : Declaration) : List Method := d.members.filterMap Member.method?

def genericParams (d : Declaration) : List GenericParam := Generics.paramsOf d.generics

def strayModifier? (d : Declaration) : Option Modifier :=
  (d.methods.filterMap fun m => m.signature.qualifiers.modifier).find? (·.word ≠ "default")

def label (d : Declaration) : String :=
  match d.subject with
  | .contract name _ _ => name
  | .implementation selfTy _ => selfTy.render

end Declaration

end Deasync
