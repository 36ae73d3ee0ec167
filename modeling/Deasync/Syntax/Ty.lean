import Deasync.Position

namespace Deasync

mutual

inductive Ty where
  | path (path : Path)
  | reference (lifetime : Option String) (mutable : Bool) (inner : Ty) (extent : Extent)
  | pointer (mutable : Bool) (inner : Ty) (extent : Extent)
  | tuple (elements : List Ty) (extent : Extent)
  | paren (inner : Ty) (extent : Extent)
  | slice (inner : Ty) (extent : Extent)
  | array (inner : Ty) (length : String) (extent : Extent)
  | never (extent : Extent)
  | infer (extent : Extent)
  | traitObject (bounds : List Bound) (extent : Extent)
  | implTrait (bounds : List Bound) (extent : Extent)
  | functionPointer (text : String) (extent : Extent)
  | macroCall (text : String) (extent : Extent)

inductive Path where
  | mk (root : Root) (head : Segment) (tail : List Segment) (extent : Extent)

inductive Root where
  | relative
  | global
  | qualified (self : Ty) (asTrait : Option Path)

inductive Segment where
  | plain (name : String)
  | angled (name : String) (turbofish : Bool) (arguments : List GenericArg)
  | call (name : String) (inputs : List Ty) (output : Option Ty)

inductive GenericArg where
  | lifetime (name : String)
  | type (ty : Ty)
  | binding (name : String) (arguments : Option (List GenericArg)) (ty : Ty)
  | constraint (name : String) (arguments : Option (List GenericArg)) (bounds : List Bound)
  | const (text : String)

inductive Bound where
  | lifetime (name : String)
  | trait (maybe : Bool) (binder : Option String) (paren : Bool) (path : Path)

end

deriving instance Repr for Ty, Path, Root, Segment, GenericArg, Bound

instance : Inhabited Ty := ⟨.never default⟩
instance : Inhabited Segment := ⟨.plain ""⟩
instance : Inhabited Path := ⟨.mk .relative default [] default⟩
instance : Inhabited Bound := ⟨.lifetime ""⟩
instance : Inhabited GenericArg := ⟨.lifetime ""⟩

namespace Segment

def name : Segment → String
  | plain name => name
  | angled name _ _ => name
  | call name _ _ => name

end Segment

namespace Path

def root : Path → Root
  | mk root _ _ _ => root

def head : Path → Segment
  | mk _ head _ _ => head

def segments : Path → List Segment
  | mk _ head tail _ => head :: tail

def extent : Path → Extent
  | mk _ _ _ extent => extent

def last : Path → Segment
  | mk _ head tail _ => tail.getLast?.getD head

def bareName? : Path → Option String
  | mk .relative (.plain name) [] _ => some name
  | _ => none

end Path

namespace Ty

def extent : Ty → Extent
  | path p => p.extent
  | reference _ _ _ e | pointer _ _ e | tuple _ e | paren _ e | slice _ e | array _ _ e | never e
  | infer e | traitObject _ e | implTrait _ e | functionPointer _ e | macroCall _ e => e

def bareName? : Ty → Option String
  | path p => p.bareName?
  | _ => none

end Ty

end Deasync
