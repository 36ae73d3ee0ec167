import Deasync.CommandLine.Directory
import Deasync.CommandLine.Report

namespace Deasync

-- How far a run has come: the files as they are now, the results so far, and what was written to the two streams.
structure Session where
  directory : Directory
  results : List SourceResult
  out : String
  err : String
  deriving Repr

inductive Ending where
  | exit (code : Nat)
  | broken (failure : FileFailure)
  | nowhere
  deriving Repr, DecidableEq

structure Outcome where
  ending : Ending
  out : String
  err : String
  directory : Directory
  deriving Repr, DecidableEq

namespace Session

def start (d : Directory) : Session := ⟨d, [], "", ""⟩

def result (s : Session) (name : FileName) : SourceResult :=
  match s.directory.read name with
  | .ok contents => .ofContents name contents
  | .error failure => .unreadable name failure.message

def record (s : Session) (inv : Invocation) (r : SourceResult) : Session :=
  { s with
    results := s.results ++ [r]
    out := s.out ++ inv.shown r
    err := s.err ++ inv.messages r }

def finish (s : Session) (inv : Invocation) : Outcome :=
  ⟨.exit (exitCode s.results), s.out ++ inv.report s.results, s.err, s.directory⟩

def run (inv : Invocation) (s : Session) : List FileName → Outcome
  | [] => s.finish inv
  | name :: rest =>
    let r := s.result name
    let next := s.record inv r
    match inv.storage? r with
    | none => run inv next rest
    | some ⟨none, _⟩ => ⟨.nowhere, next.out, next.err, s.directory⟩
    | some ⟨some target, text⟩ =>
      match s.directory.write target text with
      | .ok directory => run inv { next with directory := directory } rest
      | .error failure => ⟨.broken failure, next.out, next.err, s.directory⟩

end Session

def Invocation.run (inv : Invocation) (d : Directory) : Outcome :=
  (Session.start d).run inv inv.sources

def UsageError.complaint (e : UsageError) : String := "asynctrait: error: " ++ e.message ++ "\n"

def usage : String :=
  "usage: asynctrait [-h] [-o OUTPUT | --in-place] [--json] [-v] source [source ...]"

def runCommand (arguments : List String) (d : Directory) : Outcome :=
  match Request.ofArguments arguments with
  | .error e => ⟨.exit 2, "", e.complaint, d⟩
  | .ok .help => ⟨.exit 0, usage ++ "\n", "", d⟩
  | .ok (.expand inv) => inv.run d

end Deasync
