import Deasync.CommandLine.FileName

namespace Deasync

-- Why a file cannot be read or written.
inductive FileFailure where
  | missing | isDirectory | notDirectory
  deriving Repr, DecidableEq

def FileFailure.message : FileFailure → String
  | missing => "No such file or directory"
  | isDirectory => "Is a directory"
  | notDirectory => "Not a directory"

-- The directories of a system from the root on: where a program works in them, the folders that are known to be
-- there, and the files, all by the parts of their names. A folder is also there if something is below it.
structure Directory where
  working : List String
  folders : List (List String)
  files : List (List String × String)
  deriving Repr, DecidableEq

namespace Directory

def workplace : List String := ["tmp", "workplace"]

-- The files below a place of work where there is nothing else.
def ofFiles (files : List (String × String)) : Directory where
  working := workplace
  folders := []
  files := files.map fun (name, text) => (workplace ++ (FileName.ofText name).parts, text)

-- The files below the place of work.
def toFiles (d : Directory) : List (String × String) :=
  d.files.filterMap fun (parts, text) =>
    if d.working.isPrefixOf parts then some ("/".intercalate (parts.drop d.working.length), text) else none

def contents? (d : Directory) (parts : List String) : Option String := d.files.lookup parts

def isDirectory (d : Directory) (parts : List String) : Bool :=
  parts.isPrefixOf d.working || d.folders.any (fun folder => parts.isPrefixOf folder) ||
    d.files.any fun (other, _) => parts.isPrefixOf other && other ≠ parts

inductive Target where
  | file (parts : List String)
  | directory
  -- A file that could be made.
  | vacant (parts : List String)
  deriving Repr, DecidableEq

-- Follows a name from a folder on. Two dots lead to the folder above, and from the root to the root.
def resolve (d : Directory) : List String → List String → Except FileFailure Target
  | _, [] => .ok .directory
  | above, part :: rest =>
    if part = ".." then resolve d above.dropLast rest
    else
      let parts := above ++ [part]
      if (d.contents? parts).isSome then
        if rest.isEmpty then .ok (.file parts) else .error .notDirectory
      else if d.isDirectory parts then resolve d parts rest
      else if rest.isEmpty then .ok (.vacant parts)
      else .error .missing

def resolveName (d : Directory) (name : FileName) : Except FileFailure Target :=
  d.resolve (if name.root = "" then d.working else []) name.parts

def read (d : Directory) (name : FileName) : Except FileFailure String := do
  match ← d.resolveName name with
  | .file parts =>
    match d.contents? parts with
    | some text => .ok text
    | none => .error .missing
  | .directory => .error .isDirectory
  | .vacant _ => .error .missing

def put (d : Directory) (parts : List String) (text : String) : Directory :=
  if (d.contents? parts).isSome then
    { d with files := d.files.map fun (other, old) => if other = parts then (other, text) else (other, old) }
  else { d with files := d.files ++ [(parts, text)] }

theorem lookup_replaced (files : List (List String × String)) (parts other : List String)
    (text : String) :
    (files.map fun (name, old) => if name = parts then (name, text) else (name, old)).lookup other =
      if other = parts then (files.lookup other).map fun _ => text else files.lookup other := by
  induction files with
  | nil => simp
  | cons file rest step =>
    obtain ⟨name, old⟩ := file
    by_cases here : other = name
    · subst here
      by_cases same : other = parts <;> simp [same]
    · have missed : (other == name) = false := beq_eq_false_iff_ne.mpr here
      by_cases same : name = parts
      · simp [same, List.lookup_cons, step, same ▸ missed]
      · simp [same, List.lookup_cons, step, missed]

theorem contents?_put_self (d : Directory) (parts : List String) (text : String) :
    (d.put parts text).contents? parts = some text := by
  unfold put
  split
  · rename_i known
    obtain ⟨old, found⟩ := Option.isSome_iff_exists.mp known
    simp only [contents?] at found
    simp only [contents?, lookup_replaced, if_true, found, Option.map_some]
  · rename_i unknown
    have missed : d.files.lookup parts = none := Option.not_isSome_iff_eq_none.mp unknown
    simp [contents?, List.lookup_append, missed]

theorem contents?_put_of_ne (d : Directory) (parts other : List String) (text : String)
    (different : other ≠ parts) : (d.put parts text).contents? other = d.contents? other := by
  unfold put
  split
  · simp only [contents?, lookup_replaced, if_neg different]
  · have missed : (other == parts) = false := beq_eq_false_iff_ne.mpr different
    simp [contents?, List.lookup_append, List.lookup_cons, missed]

def write (d : Directory) (name : FileName) (text : String) : Except FileFailure Directory := do
  match ← d.resolveName name with
  | .file parts | .vacant parts => .ok (d.put parts text)
  | .directory => .error .isDirectory

end Directory

end Deasync
