/-
**Commands.**

A command turns files into a report: what is written to the two streams, and the exit code.  The
settings are read first.  A source text that does not compile is shown with the line in question
before the failure is.  There is no report on a program that does not come to its end.
-/

import BindScript.Binding.Parser
import BindScript.Binding.Session
import BindScript.Code.Source
import BindScript.CommandLine.Arguments
import BindScript.CommandLine.Surroundings
import BindScript.Settings

namespace BindScript.CommandLine

/-- What a command leaves behind. -/
structure Report where
  stdout : String
  stderr : String
  exitCode : Nat
  deriving DecidableEq

/-- What a command writes, and why it fails, if it does. -/
structure Effect where
  stdout : String := ""
  stderr : String := ""
  failure : Option Failure := none

/-- A command that prints a text and succeeds. -/
def Effect.print (text : String) : Effect := { stdout := text }

def Effect.fail (f : Failure) : Effect := { failure := some f }

/-- The report of what a command writes. -/
def Effect.report (e : Effect) : Report :=
  match e.failure with
  | none => ⟨e.stdout, e.stderr, 0⟩
  | some f => ⟨e.stdout, e.stderr ++ "Error: " ++ f.message ++ "\n", 1⟩

/-! ### Reading files -/

/-- The text of a file that is needed. -/
def readText (files : Files) (path : String) : Except Failure String :=
  match (files path).read with
  | .ok text => .ok text
  | .error why => .error (.file s!"{path}: {why}")

/-- The JSON value in a file, in canonical form. -/
def readJson (files : Files) (path : String) : Except Failure Json := do
  let text ← readText files path
  match Json.readCanonical? text with
  | some j => .ok j
  | none => .error .json

def readGlobals : List (String × Json) → Except Failure Globals
  | [] => .ok []
  | (name, j) :: rest =>
    match Value.ofJson? j with
    | some (.int n) => (readGlobals rest).map ((name, .int n) :: ·)
    | some (.float x) => (readGlobals rest).map ((name, .float x) :: ·)
    | some (.string s) => (readGlobals rest).map ((name, .string s) :: ·)
    | some (.bool b) => (readGlobals rest).map ((name, .bool b) :: ·)
    | _ => .error (.invalid s!"global '{name}' must be an int, float, string or bool")

/-- The globals in a file, if one is given. -/
def loadGlobals (files : Files) : Option String → Except Failure Globals
  | none => .ok []
  | some path => do
      match ← readJson files path with
      | .object members => readGlobals members
      | _ => .error (.invalid "globals file must contain a JSON object")

def readSymbols : List (String × Json) → Except Failure (Table String)
  | [] => .ok []
  | (name, .string s) :: rest => (readSymbols rest).map ((name, s) :: ·)
  | _ :: _ => .error .json

/-- The symbols in a file, if one is given. -/
def loadSymbols (files : Files) : Option String → Except Failure (Table String)
  | none => .ok []
  | some path => do
      match ← readJson files path with
      | .object members => readSymbols members
      | _ => .error .json

def loadSnapshot (files : Files) (path : String) : Except Failure Snapshot := do
  let text ← readText files path
  match Snapshot.ofText? text with
  | some s => .ok s
  | none => .error .json

/-! ### Commands -/

/-- Goes on with a value, or fails. -/
def orFail {α : Type} (r : Except Failure α) (next : α → Option Effect) : Option Effect :=
  match r with
  | .ok a => next a
  | .error f => some (.fail f)

/-- Goes on with what a source text compiles to, or shows where it does not. -/
def orShow {α : Type} (source : String) (r : Except CompileError α) (next : α → Option Effect) :
    Option Effect :=
  match r with
  | .ok a => next a
  | .error e => some { stderr := e.withSource source ++ "\n", failure := some (.compile e) }

/-- Shows the program of a source text. -/
def compileCommand (files : Files) (file : String) (globals : Option String) (separator : String) :
    Option Effect :=
  orFail ((checkSeparator separator).mapError .runtime) fun _ =>
  orFail (readText files file) fun source =>
  orFail (loadGlobals files globals) fun globals =>
  orShow source (compileProgram source globals) fun code =>
  some (.print (code.encode separator ++ "\n"))

/-- The last value of a run as a line, unless there is nothing to show. -/
def showResult : Option Value → String
  | none | some .void => ""
  | some v => v.display ++ "\n"

/-- Runs a program, and shows what it wrote and its last value. -/
def runCommand (files : Files) (outside : Surroundings) (file : String) (globals : Option String)
    (settings : Settings) : Option Effect :=
  orFail (readText files file) fun source =>
  orFail (loadGlobals files globals) fun globals =>
  orShow source (compileProgram source globals) fun code => do
  let (_, m) ← Machine.execute Host.plain code (outside.limit settings.timeLimit) outside.fuel
    (Machine.start () ⟨"", outside.draws⟩)
  let written := if settings.echoOutput then m.output else ""
  match m.lastError with
  | some e => some { stdout := written, failure := some (.runtime e) }
  | none => some (.print (written ++ showResult m.lastValue))

/-- The bindings that are run: the one of a kind, or all of them. -/
def runBindings (fuel : Nat) (kind : Option Binding.Kind) (s : Session) :
    Session.Answer (List (Binding.Kind × Binding.Outcome)) :=
  match kind with
  | some kind => s.runKinds fuel [kind]
  | none => s.runAll fuel

/-- The outcomes of bindings and the snapshot after them. -/
def summary (outcomes : List (Binding.Kind × Binding.Outcome)) (snapshot : Snapshot) : Json :=
  Json.canonical (.object [("config", snapshot.toJson),
    ("results", .object (outcomes.map fun (kind, o) => (kind.name, o.toJson)))])

/-- Runs bindings on a snapshot, and shows what they wrote and their outcomes. -/
def bindCommand (files : Files) (outside : Surroundings) (file config : String)
    (symbols : Option String) (kind : Option Binding.Kind) (settings : Settings) : Option Effect :=
  orFail (readText files file) fun source =>
  orShow source (compileBindings source) fun bindings =>
  orFail (loadSnapshot files config) fun snapshot =>
  orFail (loadSymbols files symbols) fun symbols => do
  let s := Session.start bindings symbols settings.timeLimit snapshot outside.draws
    (outside.clocks settings.timeLimit)
  match ← runBindings outside.fuel kind s with
  | (.error e, _) => some (.fail (.runtime e))
  | (.ok outcomes, s) =>
    let written := if settings.echoOutput then s.output else ""
    some (.print (written ++ String.ofList (summary outcomes s.snapshot).indented ++ "\n"))

def checkCommand (files : Files) (file : String) : Option Effect :=
  orFail (readText files file) fun source =>
  orShow source (parseProgram source []) fun _ =>
  some (.print s!"{file}: ok\n")

def describeFunction (b : Builtin) : String :=
  b.describe ++ (if b.needsHost then " (bindings only)" else "") ++ "\n" ++
    "    [" ++ b.category.name ++ "] " ++ b.description ++ "\n"

/-- Shows a function, or all functions, or those of a category. -/
def functionsCommand : Option String → Option String → Effect
  | some name, _ =>
    match Builtin.ofName? name with
    | some b => .print (describeFunction b)
    | none => .fail (.notFound s!"function '{name}'")
  | none, category =>
    let shown := Builtin.all.filter fun b => category.all fun c => b.category.name == c
    .print (String.join (shown.map describeFunction))

def execute (files : Files) (outside : Surroundings) (settings : Settings) : Command → Option Effect
  | .compile file globals separator =>
    compileCommand files file globals (separator.getD settings.separator)
  | .run file globals limit =>
    runCommand files outside file globals
      { settings with timeLimit := limit.getD settings.timeLimit }
  | .bind file config symbols kind => bindCommand files outside file config symbols kind settings
  | .check file => checkCommand files file
  | .functions name category => some (functionsCommand name category)

def invoke (files : Files) (outside : Surroundings) (i : Invocation) : Option Effect :=
  match i.settings with
  | none => execute files outside .standard i.command
  | some path =>
    orFail (Settings.load (files path)) fun settings => execute files outside settings i.command

/-! ### Reports -/

def versionText : String := "signalize-cli 0.1.0\n"

def usageText : String :=
  "Usage: signalize-cli [--settings FILE] [-v] COMMAND\n\n" ++
  "Commands:\n" ++
  "  compile FILE [--globals FILE] [--separator TEXT]\n" ++
  "  run FILE [--globals FILE] [--time-limit-ms N]\n" ++
  "  bind FILE --config FILE [--symbols FILE] [--kind KIND]\n" ++
  "  check FILE\n" ++
  "  functions [NAME] [--category NAME]\n"

/-- The report of what ended the reading of arguments. -/
def Stop.report : Stop → Report
  | .usage => ⟨"", usageText, 2⟩
  | .help => ⟨usageText, "", 0⟩
  | .version => ⟨versionText, "", 0⟩

/-- The report on arguments, given the files, unless a program does not come to its end. -/
def respond (args : List String) (files : Files) (outside : Surroundings) : Option Report :=
  match parse args with
  | .error stop => some stop.report
  | .ok i => (invoke files outside i).map Effect.report

end BindScript.CommandLine
