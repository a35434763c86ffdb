import Schemata.Console.Settings

/-! The command line: options, subcommands and their arguments.

Words are read from the left. An option that takes a value holds it until the next option or the end, and
only then it is settled whether the value is there and the option new; a word that means nothing where it
stands is refused at once. -/
namespace Schemata.Console
open Store

/-- Why a command line is not carried out. -/
inductive UsageFault
  | displayHelp
  | displayVersion
  | displayHelpOnMissing
  | missingSubcommand
  | invalidSubcommand
  | unknownArgument
  | missingArgument
  | invalidValue
  | tooManyValues
  | argumentConflict
  deriving DecidableEq, Repr

def UsageFault.name : UsageFault → String
  | .displayHelp => "DisplayHelp"
  | .displayVersion => "DisplayVersion"
  | .displayHelpOnMissing => "DisplayHelpOnMissingArgumentOrSubcommand"
  | .missingSubcommand => "MissingSubcommand"
  | .invalidSubcommand => "InvalidSubcommand"
  | .unknownArgument => "UnknownArgument"
  | .missingArgument => "MissingRequiredArgument"
  | .invalidValue => "InvalidValue"
  | .tooManyValues => "TooManyValues"
  | .argumentConflict => "ArgumentConflict"

/-- Help and version are what was asked for. -/
def UsageFault.exitCode : UsageFault → Nat
  | .displayHelp | .displayVersion => 0
  | _ => 2

/-! ### Options -/

inductive OptionKind
  | flag
  /-- A flag that may be repeated. -/
  | count
  | word
  /-- A value that is not empty. -/
  | path
  | help
  | version
  deriving DecidableEq

structure CommandOption where
  long : String
  short : Option Char := none
  kind : OptionKind

/-- The options that go with every subcommand, and without one. -/
def globalOptions : List CommandOption :=
  [⟨"config", some 'c', .path⟩, ⟨"verbose", some 'v', .count⟩, ⟨"help", some 'h', .help⟩,
    ⟨"version", some 'V', .version⟩]

def engineOption : CommandOption := ⟨"engine", some 'e', .word⟩

/-- What was given so far. -/
structure Given where
  options : List (String × String) := []
  /-- The option that was read last, with its value if that came. -/
  waiting : Option (CommandOption × Option String) := none
  positional : Option String := none

namespace Given

def value? (g : Given) (long : String) : Option String :=
  (g.options.find? (·.1 == long)).map Prod.snd

def has (g : Given) (long : String) : Bool := (g.value? long).isSome

def accept (g : Given) (o : CommandOption) (value : String) : Except UsageFault Given :=
  match o.kind with
  | .help => .error .displayHelp
  | .version => .error .displayVersion
  | .count => .ok { g with options := (o.long, value) :: g.options }
  | kind =>
    if g.has o.long then .error .argumentConflict
    else if kind = .path && value.isEmpty then .error .invalidValue
    else .ok { g with options := (o.long, value) :: g.options }

/-- Settles the option that was read last. -/
def settle (g : Given) : Except UsageFault Given :=
  match g.waiting with
  | none => .ok g
  | some (_, none) => .error .invalidValue
  | some (o, some value) => ({ g with waiting := none }).accept o value

/-- Whether the next word is the value of the option that was read last. -/
def needsValue (g : Given) : Bool :=
  match g.waiting with
  | some (_, none) => true
  | _ => false

/-- An option, with its value if that stands in the same word. -/
def take (g : Given) (o : CommandOption) (attached : Option String) : Except UsageFault Given := do
  let g ← g.settle
  match o.kind, attached with
  | .word, none | .path, none => return { g with waiting := some (o, none) }
  | _, _ => g.accept o (attached.getD "")

def takesValue (o : CommandOption) : Bool := o.kind == .word || o.kind == .path

/-- An option by its long name. -/
def long (g : Given) (options : List CommandOption) (word : List Char) : Except UsageFault Given :=
  let name := String.ofList (word.takeWhile (· ≠ '='))
  let attached := match word.dropWhile (· ≠ '=') with
    | [] => none
    | _ :: value => some (String.ofList value)
  match options.find? (·.long == name) with
  | none => .error .unknownArgument
  | some o => if attached.isSome && !takesValue o then .error .tooManyValues else g.take o attached

/-- Options by their letters, the value of one being the rest of the word. -/
def shorts (g : Given) (options : List CommandOption) : List Char → Except UsageFault Given
  | [] => .ok g
  | c :: rest =>
    match options.find? (·.short == some c) with
    | none => .error .unknownArgument
    | some o =>
      if takesValue o then
        match rest with
        | [] => g.take o none
        | '=' :: value => g.take o (some (String.ofList value))
        | value => g.take o (some (String.ofList value))
      else do shorts (← g.take o none) options rest

end Given

/-! ### Words -/

/-- Where words are read: without a subcommand or with one. -/
structure Level where
  options : List CommandOption
  subcommands : List String := []
  hasPositional : Bool := false

namespace Level

/-- A word that is neither an option nor the value of one. -/
def place (l : Level) (trailing : Bool) (word : String) (g : Given) : Except UsageFault Given :=
  if l.hasPositional && g.positional.isNone then do
    return { ← g.settle with positional := some word }
  else if l.subcommands.isEmpty || (trailing && l.subcommands.contains word) then
    .error .unknownArgument
  else .error .invalidSubcommand

/-- Reads words up to a subcommand, and gives the subcommand with the words behind it. Behind two dashes
no word is an option. -/
def read (l : Level) (trailing : Bool) (g : Given) :
    List String → Except UsageFault (Given × Option (String × List String))
  | [] => .ok (g, none)
  | word :: rest =>
    if trailing then do read l true (← l.place true word g) rest
    else if !g.needsValue && l.subcommands.contains word then .ok (g, some (word, rest))
    else
      match word.toList with
      | ['-', '-'] => read l true g rest
      | '-' :: '-' :: name => do read l false (← g.long l.options name) rest
      | '-' :: c :: more => do read l false (← g.shorts l.options (c :: more)) rest
      | _ =>
        match g.waiting with
        | some (o, none) => read l false { g with waiting := some (o, some word) } rest
        | _ => do read l false (← l.place false word g) rest

end Level

/-! ### Commands -/

inductive Command
  | make (engine label : Option String) (dryRun allowDestructive : Bool)
  | migrate (engine : Option String) (output : Option Path) (dryRun : Bool)
  | status (engine : Option String) (json : Bool)
  | show (migration : String) (engine : Option String)
  | check (engine : Option String)

/-- A command, and the file of settings that it is to go by. -/
structure Invocation where
  settings : Option Path
  command : Command

/-- The level of a subcommand. -/
def levelOf : String → Level
  | "makemigrations" =>
    { options := globalOptions ++ [engineOption, ⟨"name", some 'n', .word⟩,
        ⟨"dry-run", none, .flag⟩, ⟨"allow-destructive", none, .flag⟩] }
  | "migrate" =>
    { options := globalOptions ++ [engineOption, ⟨"sql-out", none, .path⟩, ⟨"dry-run", none, .flag⟩] }
  | "status" => { options := globalOptions ++ [engineOption, ⟨"json", none, .flag⟩] }
  | "show" => { options := globalOptions ++ [engineOption], hasPositional := true }
  | _ => { options := globalOptions ++ [engineOption] }

def commandNames : List String := ["makemigrations", "migrate", "status", "show", "check"]

def topLevel : Level := { options := globalOptions, subcommands := commandNames ++ ["help"] }

/-- The command of a subcommand with what was given to it. -/
def commandOf (name : String) (g : Given) : Except UsageFault Command :=
  let engine := g.value? "engine"
  match name with
  | "makemigrations" =>
    .ok (.make engine (g.value? "name") (g.has "dry-run") (g.has "allow-destructive"))
  | "migrate" => .ok (.migrate engine (g.value? "sql-out") (g.has "dry-run"))
  | "status" => .ok (.status engine (g.has "json"))
  | "show" =>
    match g.positional with
    | some migration => .ok (.show migration engine)
    | none => .error .missingArgument
  | _ => .ok (.check engine)

/-- What the words behind `help` ask for: help on a subcommand that there is. -/
def helpOn : List String → UsageFault
  | [] => .displayHelp
  | [name] => if topLevel.subcommands.contains name then .displayHelp else .invalidSubcommand
  | _ => .invalidSubcommand

/-- A command line that ends without a subcommand. -/
def withoutCommand (g : Given) : UsageFault :=
  if g.options.isEmpty then .displayHelpOnMissing else .missingSubcommand

def Invocation.parse (words : List String) : Except UsageFault Invocation := do
  let (outer, found) ← topLevel.read false {} words
  match found with
  | none => throw (withoutCommand (← outer.settle))
  | some ("help", rest) => throw (helpOn rest)
  | some (name, rest) =>
    let (inner, _) ← (levelOf name).read false {} rest
    let inner ← inner.settle
    let command ← commandOf name inner
    let outer ← outer.settle
    return ⟨(inner.value? "config").or (outer.value? "config"), command⟩

end Schemata.Console
