import Ysh.Json.Tree
import Ysh.Program
import Ysh.Tree.Printer

/-!
# The Command Line

What a run of the command does, as a function of its arguments and of what could
be read. The command parses one source, writes every diagnostic, and then what it
was asked for: the tree as JSON, the printed form, or both. Its status tells
whether there was anything to complain about.

## Main definitions

* `Invocation`, `Invocation.ofArguments?`: What the command is asked for.
* `SourceFault`: Why there is no source.
* `Outcome`: A status and two streams of text.
* `Invocation.run`: The outcome of a run.
-/

namespace Ysh

/-- What the command is asked for. -/
structure Invocation where
  /-- A script on the command line itself. -/
  script : Option String := none
  /-- The path of a script. -/
  file : Option String := none
  /-- Dump the tree and the diagnostics as JSON. -/
  json : Bool := false
  /-- Write the printed form. -/
  print : Bool := false
  /-- Let every diagnostic count as a failure, notices too. -/
  strict : Bool := false
deriving DecidableEq, Repr, Inhabited

/-- The invocation that the arguments ask for, on top of what has been asked for
    already. Arguments that mean nothing ask for nothing that could be run. -/
def Invocation.withArguments? (i : Invocation) : List String → Option Invocation
  | [] => some i
  | "-c" :: script :: rest => withArguments? { i with script := some script } rest
  | "--json" :: rest => withArguments? { i with json := true } rest
  | "--print" :: rest => withArguments? { i with print := true } rest
  | "--strict" :: rest => withArguments? { i with strict := true } rest
  | argument :: rest =>
      if i.file.isSome || argument.startsWith "-" then none
      else withArguments? { i with file := some argument } rest

/-- The invocation that the arguments ask for. -/
def Invocation.ofArguments? (arguments : List String) : Option Invocation :=
  withArguments? {} arguments

/-- Why there is no source. -/
inductive SourceFault where
  | noSuchFile (path : String)
  | unreadableFile (path reason : String)
  | unreadableInput (reason : String)
  /-- Nothing was named, and the standard input is a terminal. -/
  | noScript
deriving DecidableEq, Repr, Inhabited

/-- The wording of the fault. -/
def SourceFault.message : SourceFault → String
  | noSuchFile path =>
      "cannot read script file: " ++ path ++ ": No such file or directory (os error 2)"
  | unreadableFile path reason => "cannot read script file: " ++ path ++ ": " ++ reason
  | unreadableInput reason => "cannot read stdin: " ++ reason
  | noScript =>
      "no script provided. Use -c 'script', provide a script file, or pipe via stdin."

/-- A status and two streams of text. -/
structure Outcome where
  status : Nat
  output : String
  errors : String
deriving DecidableEq, Repr, Inhabited

/-- Lines of text, each with its end. -/
def unlines (lines : List String) : String :=
  String.join (lines.map (· ++ "\n"))

/-- What the outcome is when there is no source. -/
def SourceFault.outcome (fault : SourceFault) : Outcome where
  status := 2
  output := ""
  errors := unlines ["Error: " ++ fault.message]

/-- The dump of a program and its diagnostics. -/
def Parsed.toJson (p : Parsed) : Json :=
  .record [("program", p.program.toJson), ("diagnostics", .array (p.diagnostics.map (·.toJson)))]

/-- The run fails: on errors, and if it is strict on every diagnostic. -/
def Invocation.fails (i : Invocation) (p : Parsed) : Bool :=
  if i.strict then !p.diagnostics.isEmpty else p.hasErrors

/-- The outcome for a source that has been parsed. -/
def Invocation.outcome (i : Invocation) (source : String) (p : Parsed) : Outcome where
  status := if i.fails p then 1 else 0
  output := (if i.json then unlines [p.toJson.pretty] else "")
    ++ (if i.print then p.program.print else "")
  errors := unlines (p.rendered source)

/-- The outcome of a run on what could be read. -/
def Invocation.run (i : Invocation) : Except SourceFault String → Outcome
  | .ok source => i.outcome source (parse {} source)
  | .error fault => fault.outcome

end Ysh
