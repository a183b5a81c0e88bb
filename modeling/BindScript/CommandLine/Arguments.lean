/-
**Arguments of the command line.**

Arguments are taken one after the other.  The first that is not an option names the command, and the
next one its operand.  An option with a value is written `--name value` or `--name=value`; a value
on its own does not begin with a hyphen, unless it is one.  After `--` there are no more options.
No option is given twice, but the settings may be named both before and after the command, and then
the latter counts.
-/

import BindScript.Binding.Kind
import BindScript.Decimal.Reader
import BindScript.Duration

namespace BindScript.CommandLine

/-! ### Words -/

inductive Verb where
  | compile
  | run
  | bind
  | check
  | functions
  deriving DecidableEq

inductive Choice where
  | settings
  | globals
  | separator
  | timeLimit
  | config
  | symbols
  | kind
  | category
  deriving DecidableEq

def Verb.ofWord? : String → Option Verb
  | "compile" => some .compile
  | "run" => some .run
  | "bind" => some .bind
  | "check" => some .check
  | "functions" => some .functions
  | _ => none

def Choice.ofWord? : String → Option Choice
  | "settings" => some .settings
  | "globals" => some .globals
  | "separator" => some .separator
  | "time-limit-ms" => some .timeLimit
  | "config" => some .config
  | "symbols" => some .symbols
  | "kind" => some .kind
  | "category" => some .category
  | _ => none

/-- The options of a command; before the command there is only one. -/
def choices : Option Verb → List Choice
  | none => [.settings]
  | some .compile => [.settings, .globals, .separator]
  | some .run => [.settings, .globals, .timeLimit]
  | some .bind => [.settings, .config, .symbols, .kind]
  | some .check => [.settings]
  | some .functions => [.settings, .category]

/-- A time limit as it is written. -/
def readLimit? (text : String) : Option Duration :=
  (Decimal.readIndex? text.toList).map Duration.mk

/-- Whether a text can be the value of an option. The name of a file is not empty. -/
def Choice.admits (c : Choice) (text : String) : Bool :=
  match c with
  | .settings | .globals | .config | .symbols => !text.isEmpty
  | .separator | .category => true
  | .timeLimit => (readLimit? text).isSome
  | .kind => (Binding.Kind.ofName? text).isSome

/-- Whether a text can be the operand of a command. -/
def Verb.admits (v : Verb) (text : String) : Bool := v = .functions || !text.isEmpty

/-! ### What is asked for -/

/-- A command with all that it was given. -/
inductive Command where
  | compile (file : String) (globals separator : Option String)
  | run (file : String) (globals : Option String) (limit : Option Duration)
  | bind (file config : String) (symbols : Option String) (kind : Option Binding.Kind)
  | check (file : String)
  | functions (name category : Option String)

/-- A command and the file with the settings. -/
structure Invocation where
  settings : Option String
  command : Command

def Invocation.files (i : Invocation) : List String :=
  i.settings.toList ++
    match i.command with
    | .compile file globals _ => file :: globals.toList
    | .run file globals _ => file :: globals.toList
    | .bind file config symbols _ => file :: config :: symbols.toList
    | .check file => [file]
    | .functions _ _ => []

/-- Reasons to stop before the last argument. -/
inductive Stop where
  | usage
  | help
  | version
  deriving DecidableEq

/-! ### Taking arguments -/

/-- What the arguments so far have said. -/
structure Progress where
  verb : Option Verb := none
  /-- Whether help was asked for, as if by a command. -/
  helping : Bool := false
  /-- The operand of the command, or what help was asked for about. -/
  operand : Option String := none
  /-- The settings named before the command. -/
  leading : Option String := none
  values : List (Choice × String) := []
  /-- The option whose value comes next. -/
  pending : Option Choice := none
  /-- Whether there are no more options. -/
  closed : Bool := false

def give (p : Progress) (c : Choice) (text : String) : Except Stop Progress :=
  let p := { p with pending := none }
  if !c.admits text then .error .usage
  else
    match p.verb with
    | none => if p.leading.isSome then .error .usage else .ok { p with leading := some text }
    | some _ =>
      if (p.values.lookup c).isSome then .error .usage
      else .ok { p with values := p.values ++ [(c, text)] }

/-- The progress after a long option, with the value that was attached to it. -/
def takeLong (p : Progress) (word : String) (attached : Option String) : Except Stop Progress :=
  match word, attached with
  | "verbose", none => .ok p
  | "help", none => .error .help
  | "version", none => .error (if p.verb.isNone then .version else .usage)
  | _, _ =>
    match Choice.ofWord? word with
    | none => .error .usage
    | some c =>
      if c ∉ choices p.verb then .error .usage
      else
        match attached with
        | some text => give p c text
        | none => .ok { p with pending := some c }

/-- The progress after short options that were written together. -/
def takeShort (p : Progress) : List Char → Except Stop Progress
  | [] => .ok p
  | 'v' :: rest => takeShort p rest
  | 'h' :: _ => .error .help
  | 'V' :: _ => .error (if p.verb.isNone then .version else .usage)
  | _ :: _ => .error .usage

/-- The progress after a word that is no option. -/
def takeWord (p : Progress) (word : String) : Except Stop Progress :=
  match p.verb with
  | none =>
    if p.closed then .error .usage
    else
      match Verb.ofWord? word with
      | some v => .ok { p with verb := some v }
      | none => if word = "help" then .ok { p with helping := true } else .error .usage
  | some v =>
    if p.operand.isSome || !v.admits word then .error .usage
    else .ok { p with operand := some word }

/-- The progress after what help is asked for about, which is one command or help itself. -/
def takeTopic (p : Progress) (word : String) : Except Stop Progress :=
  if p.operand.isNone && ((Verb.ofWord? word).isSome || word = "help") then
    .ok { p with operand := some word }
  else .error .usage

/-- Whether an argument has the form of an option. -/
def looksLikeOption : List Char → Bool
  | '-' :: _ :: _ => true
  | _ => false

/-- The progress after one more argument. -/
def step (p : Progress) (arg : String) : Except Stop Progress :=
  if p.helping then takeTopic p arg
  else if p.closed then takeWord p arg
  else
    match p.pending, arg.toList with
    | some c, cs => if looksLikeOption cs then .error .usage else give p c arg
    | none, ['-', '-'] => .ok { p with closed := true }
    | none, '-' :: '-' :: cs =>
      match Text.cutAt? '=' cs with
      | some (word, text) => takeLong p (String.ofList word) (some (String.ofList text))
      | none => takeLong p (String.ofList cs) none
    | none, '-' :: c :: cs => takeShort p (c :: cs)
    | none, _ => takeWord p arg

/-- What all arguments together ask for. -/
def finish (p : Progress) : Except Stop Invocation :=
  let value := fun c => p.values.lookup c
  let settings := (value .settings).or p.leading
  if p.helping then .error .help
  else if p.pending.isSome then .error .usage
  else
    match p.verb, p.operand with
    | some .compile, some file => .ok ⟨settings, .compile file (value .globals) (value .separator)⟩
    | some .run, some file =>
      .ok ⟨settings, .run file (value .globals) ((value .timeLimit).bind readLimit?)⟩
    | some .bind, some file =>
      match value .config with
      | none => .error .usage
      | some config =>
        .ok ⟨settings,
          .bind file config (value .symbols) ((value .kind).bind Binding.Kind.ofName?)⟩
    | some .check, some file => .ok ⟨settings, .check file⟩
    | some .functions, name => .ok ⟨settings, .functions name (value .category)⟩
    | _, _ => .error .usage

/-- What arguments ask for. -/
def parse (args : List String) : Except Stop Invocation := do
  let p ← args.foldlM step {}
  finish p

end BindScript.CommandLine
