import Deasync.Expansion.Item
import Deasync.Grammar.Reading

namespace Deasync

inductive Event where
  | annotated (count : Nat)
  | decided (label : String) (decision : Decision)
  | expanded (offset count : Nat) (isLocal : Bool)
  deriving Repr

structure UnitExpansion where
  text : String
  diagnostics : List Diagnostic
  expanded : List Expanded
  events : List Event
  deriving Repr

def UnitExpansion.ok (u : UnitExpansion) : Bool := u.diagnostics.isEmpty

def Cause.phase (c : Cause) : String :=
  match c.family with
  | .parse | .target => "parser"
  | .configuration | .borrow => "expand"

structure ItemResult where
  events : List Event
  outcome : Except Fault (Options × Expanded)

def expandItemText (options : Options) (text : String) (carriers : Carriers) : ItemResult :=
  match Declaration.read text with
  | .error fault => ⟨[], .error fault⟩
  | .ok d =>
    let attempt := d.attempt options carriers
    ⟨attempt.decided.map (.decided d.label), (attempt.outcome d).map (options, ·)⟩

-- Expands the item whose driving attribute is `site`: the text behind the attribute, up to the end of the item.
def expandSite (text : String) (carriers : Carriers) (item : OutlineItem) (site : AttributeSite) :
    ItemResult :=
  let span := match site.argument with
    | some argument => argument.span
    | none => .unknown none
  match Options.ofArgument (site.argument.map Argument.text) span with
  | .error fault => ⟨[], .error fault⟩
  | .ok options => expandItemText options (Text.slice text site.nextStart item.stop) carriers

-- Where a fault of an item is reported in the file. The span of an argument is one of the file already; all others
-- count from the text behind the attribute.
def fileSpan (text : String) (file : Option String) (site : AttributeSite) (fault : Fault) : Span :=
  match fault.cause.family with
  | .configuration => fault.span.withFile file
  | _ => fault.span.rebase text site.nextStart file

structure Progress where
  position : Nat
  patches : List Text.Patch
  diagnostics : List Diagnostic
  expanded : List Expanded
  events : List Event

def Progress.step (text : String) (file : Option String) (carriers : Carriers) (p : Progress)
    (item : OutlineItem) : Progress :=
  match item.driving? with
  | none => p
  | some site =>
    if item.start < p.position then p
    else
      let result := expandSite text carriers item site
      match result.outcome with
      | .error fault =>
        { p with
          diagnostics := p.diagnostics ++
            [fault.diagnose fault.cause.phase (fileSpan text file site fault)]
          events := p.events ++ result.events }
      | .ok (options, expanded) =>
        { position := item.stop
          patches := p.patches ++ [⟨site.start, item.stop, expanded.text⟩]
          diagnostics := p.diagnostics
          expanded := p.expanded ++ [expanded]
          events := p.events ++ result.events ++
            [.expanded item.start expanded.methods.length options.isLocal] }

def Outline.inOrder (o : Outline) : List OutlineItem :=
  o.annotated.mergeSort fun a b => a.start ≤ b.start

def expandText (text : String) (file : Option String) : UnitExpansion :=
  match Outline.ofText text with
  | .error fault =>
    ⟨text, [fault.diagnose "parser" (fault.span.rebase text 0 file)], [], []⟩
  | .ok outline =>
    let items := outline.inOrder
    let start : Progress := ⟨0, [], [], [], [.annotated items.length]⟩
    let p := items.foldl (Progress.step text file outline.carriers) start
    ⟨Text.patched text p.patches, p.diagnostics, p.expanded, p.events⟩

end Deasync
