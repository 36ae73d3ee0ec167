import Deasync.CommandLine.Arguments
import Deasync.CommandLine.Json
import Deasync.Expansion.Unit

namespace Deasync

inductive SourceResult where
  | unreadable (name : FileName) (reason : String)
  | expanded (name : FileName) (text : String) (unit : UnitExpansion)
  deriving Repr

def unifyLines : List Char → List Char
  | '\r' :: '\n' :: rest => '\n' :: unifyLines rest
  | '\r' :: rest => '\n' :: unifyLines rest
  | c :: rest => c :: unifyLines rest
  | [] => []

namespace SourceResult

def ofContents (name : FileName) (contents : String) : SourceResult :=
  let text := String.ofList (unifyLines contents.toList)
  expanded name text (expandText text (some name.render))

def name : SourceResult → FileName
  | unreadable name _ => name
  | expanded name _ _ => name

def diagnostics : SourceResult → List Diagnostic
  | unreadable _ reason =>
    [{ message := "cannot read source: " ++ reason
       code := some "E-IO"
       phase := some "driver"
       span := .unknown none
       notes := [] }]
  | expanded _ _ unit => unit.diagnostics

def events : SourceResult → List Event
  | unreadable .. => []
  | expanded _ _ unit => unit.events

def ok (r : SourceResult) : Bool := r.diagnostics.isEmpty

end SourceResult

def truthText (b : Bool) : String := if b then "True" else "False"

def Event.line (file : String) : Event → String
  | annotated count => "asynctrait.driver: " ++ file ++ ": " ++ toString count ++ " annotated item(s)"
  | decided label decision =>
    "asynctrait.expand.expand: expanding " ++ label ++ "::" ++ decision.name ++ " (receiver=" ++
      decision.receiver.label ++ ", body=" ++ truthText decision.hasBody ++ ", bound=" ++
      decision.marker.getD "None" ++ ", scope=" ++ decision.captured.scope ++ ")"
  | expanded offset count isLocal =>
    "asynctrait.driver: expanded item at offset " ++ toString offset ++ " (" ++ toString count ++
      " async method(s), local=" ++ truthText isLocal ++ ")"

structure Site where
  file : String
  position : Option Position
  deriving Repr, DecidableEq

def Diagnostic.site (d : Diagnostic) (file : String) : Site :=
  match d.span with
  | .unknown own => ⟨own.getD file, none⟩
  | .known own _ _ first _ => ⟨own.getD file, some first⟩

def Diagnostic.lines (d : Diagnostic) (file : String) : List String :=
  let site := d.site file
  let place := match site.position with
    | some p => toString p.line ++ ":" ++ toString p.column
    | none => "?:?"
  let code := match d.code with
    | some code => "[" ++ code ++ "] "
    | none => ""
  (site.file ++ ":" ++ place ++ ": " ++ d.severity ++ ": " ++ code ++ d.message) ::
    d.notes.map ("  note: " ++ ·)

def Diagnostic.toJson (d : Diagnostic) (file : String) : JsonValue :=
  let site := d.site file
  .object
    [("phase", .ofOption .text d.phase), ("code", .ofOption .text d.code),
     ("message", .text d.message), ("severity", .text d.severity), ("file", .text site.file),
     ("line", .ofOption (fun p : Position => .number p.line) site.position),
     ("column", .ofOption (fun p : Position => .number p.column) site.position),
     ("notes", .texts d.notes)]

def unlines (lines : List String) : String := String.join (lines.map (· ++ "\n"))

structure Storage where
  target : Option FileName
  text : String
  deriving Repr, DecidableEq

def exitCode (results : List SourceResult) : Nat := if results.all SourceResult.ok then 0 else 1

namespace Invocation

def shows (inv : Invocation) : Bool := inv.destination = .shown

def messages (inv : Invocation) (r : SourceResult) : String :=
  let file := r.name.render
  unlines <|
    (if inv.verbose then r.events.map (Event.line file) else []) ++
      if inv.json then [] else r.diagnostics.flatMap (Diagnostic.lines · file)

def shown (inv : Invocation) : SourceResult → String
  | .expanded _ _ unit => if inv.shows && !inv.json then unit.text else ""
  | .unreadable .. => ""

def storage? (inv : Invocation) : SourceResult → Option Storage
  | .expanded name text unit =>
    match inv.destination with
    | .shown => none
    | .inPlace => if unit.text = text then none else some ⟨some name, unit.text⟩
    | .file target => some ⟨some target, unit.text⟩
    | .nameless => some ⟨none, unit.text⟩
  | .unreadable .. => none

def entry? (inv : Invocation) : SourceResult → Option JsonValue
  | .expanded name _ unit =>
    let methods := unit.expanded.flatMap fun e => e.methods.map Decision.name
    some <| .object <|
      [("file", .text name.render), ("items", .number unit.expanded.length),
       ("methods", .texts methods)] ++
        if inv.shows then [("text", .text unit.text)] else []
  | .unreadable .. => none

def report (inv : Invocation) (results : List SourceResult) : String :=
  if inv.json then
    (JsonValue.object
      [("exit_code", .number (exitCode results)),
       ("diagnostics", .list (results.flatMap fun r =>
          r.diagnostics.map (Diagnostic.toJson · r.name.render))),
       ("files", .list (results.filterMap inv.entry?))]).render ++ "\n"
  else ""

end Invocation

end Deasync
