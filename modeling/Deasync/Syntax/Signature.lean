import Deasync.Syntax.Printer

namespace Deasync

structure Attribute where
  text : String
  isDoc : Bool
  extent : Extent
  deriving Repr, DecidableEq

inductive ParamSort where
  | lifetime (bounds : List String)
  | type (bounds : List Bound) (default : Option Ty)
  | const (ty : Ty) (default : Option String)
  deriving Repr

structure GenericParam where
  name : String
  sort : ParamSort
  text : String
  deriving Repr

namespace GenericParam

def isLifetime (p : GenericParam) : Bool :=
  match p.sort with
  | .lifetime _ => true
  | _ => false

def isType (p : GenericParam) : Bool :=
  match p.sort with
  | .type .. => true
  | _ => false

def renderBare (p : GenericParam) : String :=
  match p.sort with
  | .type bounds (some _) =>
    p.name ++ if bounds.isEmpty then "" else ": " ++ Bound.renderAll bounds
  | .const ty (some _) => "const " ++ p.name ++ ": " ++ ty.render
  | _ => p.text

end GenericParam

structure Generics where
  params : List GenericParam
  extent : Extent
  deriving Repr

def Generics.paramsOf (generics : Option Generics) : List GenericParam :=
  match generics with
  | some g => g.params
  | none => []

inductive Requirement where
  | lifetime (name : String) (bounds : List String)
  | type (binder : Option String) (bounded : Ty) (bounds : List Bound)
  deriving Repr

structure WherePredicate where
  requirement : Requirement
  text : String
  extent : Extent
  deriving Repr

structure WhereClause where
  predicates : List WherePredicate
  extent : Extent
  deriving Repr

def WhereClause.textsOf (clause : Option WhereClause) : List String :=
  match clause with
  | some c => c.predicates.map WherePredicate.text
  | none => []

inductive ReceiverForm where
  | reference (lifetime : Option String) (mutable : Bool)
  | value (mutable : Bool)
  | typed (mutable : Bool) (ty : Ty)
  deriving Repr

structure SelfParam where
  form : ReceiverForm
  attributes : List Attribute
  extent : Extent
  deriving Repr

structure Param where
  pattern : String
  ty : Ty
  attributes : List Attribute
  extent : Extent
  deriving Repr

structure Modifier where
  word : String
  extent : Extent
  deriving Repr, DecidableEq

structure Qualifiers where
  visibility : Option String
  modifier : Option Modifier
  isConst : Bool
  isAsync : Bool
  isUnsafe : Bool
  abi : Option String
  deriving Repr, DecidableEq

structure Signature where
  name : String
  qualifiers : Qualifiers
  generics : Option Generics
  receiver : Option SelfParam
  params : List Param
  output : Option Ty
  whereClause : Option WhereClause
  extent : Extent
  deriving Repr

namespace Signature

def genericParams (s : Signature) : List GenericParam := Generics.paramsOf s.generics

def lifetimes (s : Signature) : List String :=
  (s.genericParams.filter GenericParam.isLifetime).map GenericParam.name

def typeNames (s : Signature) : List String :=
  (s.genericParams.filter GenericParam.isType).map GenericParam.name

end Signature

end Deasync
