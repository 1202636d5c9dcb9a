/-
The arguments of the command line.

Arguments are read one by one. The first that is no option names the command; `--json` and `--theme-attr` may stand on
either side of it, all other options behind it. A value stands behind an equals sign or in the next argument, which
may then not look like an option. Two dashes end the options. What is wrong first in reading order decides. The word
`help` in place of a command asks for help, on one command if its name follows.
-/
import StyleCheck.Audit.Issue

namespace StyleCheck.CommandLine

/-- the commands -/
inductive Verb where
  | merge
  | vars
  | animations
  | integrity
  | coverage
  | audit
  | split
  deriving DecidableEq, Repr

namespace Verb

def all : List Verb := [.merge, .vars, .animations, .integrity, .coverage, .audit, .split]

def name : Verb → Text
  | merge => "merge".toList
  | vars => "vars".toList
  | animations => "animations".toList
  | integrity => "integrity".toList
  | coverage => "coverage".toList
  | audit => "audit".toList
  | split => "split".toList

def ofName? (name : Text) : Option Verb := all.find? (·.name = name)

end Verb

/-- what an option takes -/
inductive Value where
  /-- nothing -/
  | none
  /-- any text -/
  | text
  /-- a text that is not empty -/
  | path
  /-- a number below 2^64 -/
  | count
  | severity
  deriving DecidableEq, Repr

/-- the options -/
inductive Opt where
  | json
  | themeAttr
  | out
  | reference
  | hex
  | minSeverity
  | maxIssues
  | disable
  | outDir
  deriving DecidableEq, Repr

namespace Opt

def name : Opt → Text
  | json => "json".toList
  | themeAttr => "theme-attr".toList
  | out => "out".toList
  | reference => "reference".toList
  | hex => "hex".toList
  | minSeverity => "min-severity".toList
  | maxIssues => "max-issues".toList
  | disable => "disable".toList
  | outDir => "out-dir".toList

def takes : Opt → Value
  | json => .none
  | hex => .none
  | themeAttr => .text
  | disable => .text
  | out => .path
  | reference => .path
  | outDir => .path
  | minSeverity => .severity
  | maxIssues => .count

/-- whether the option may be given several times -/
def repeats : Opt → Bool
  | reference => true
  | disable => true
  | _ => false

/-- options on either side of the command -/
def shared : List Opt := [.json, .themeAttr]

/-- options behind a command, besides the shared ones -/
def ofVerb : Verb → List Opt
  | .merge => [.out]
  | .vars => [.reference, .hex]
  | .animations => []
  | .integrity => [.reference]
  | .coverage => []
  | .audit => [.minSeverity, .maxIssues, .disable]
  | .split => [.outDir]

end Opt

/-- what is wrong with the arguments -/
inductive UsageError where
  | unknownCommand (name : Text)
  | noCommand
  | unknownOption (argument : Text)
  | repeatedOption (o : Opt)
  | missingValue (o : Opt)
  | unexpectedValue (o : Opt)
  | invalidValue (o : Opt) (value : Text)
  | emptyPath
  | noFiles
  | tooManyFiles
  | noReference
  deriving DecidableEq, Repr

def UsageError.message : UsageError → String
  | unknownCommand name => s!"unknown command '{String.ofList name}'"
  | noCommand => "a command is required"
  | unknownOption argument => s!"unknown option '{String.ofList argument}'"
  | repeatedOption o => s!"--{String.ofList o.name} may be given only once"
  | missingValue o => s!"--{String.ofList o.name} needs a value"
  | unexpectedValue o => s!"--{String.ofList o.name} takes no value"
  | invalidValue o value => s!"invalid value '{String.ofList value}' for --{String.ofList o.name}"
  | emptyPath => "a path may not be empty"
  | noFiles => "a file is required"
  | tooManyFiles => "only one file is accepted"
  | noReference => "--reference is required"

/-- why reading the arguments stops before a command is complete -/
inductive Stop where
  | help
  | version
  | usage (e : UsageError)
  deriving DecidableEq, Repr

/-- a number below 2^64 in decimal, possibly behind a plus sign -/
def count? (t : Text) : Option Nat :=
  let digits := (Text.dropFirst? '+' t).getD t
  if digits.isEmpty || !digits.all Char.isDigit then none
  else
    let n := digits.foldl (fun n c => 10 * n + (c.toNat - '0'.toNat)) 0
    if n < 18446744073709551616 then some n else none

/-- whether an option takes this value -/
def Value.accepts (v : Value) (t : Text) : Bool :=
  match v with
  | .none => false
  | .text => true
  | .path => !t.isEmpty
  | .count => (count? t).isSome
  | .severity => (Audit.Severity.ofName? t).isSome

/-- options given so far with their values, in order -/
abbrev Given := List (Opt × Text)

/-- what has been read so far -/
structure St where
  /-- options in front of the command -/
  outer : Given
  verb : Option Verb
  /-- options behind the command -/
  inner : Given
  files : List Text
  /-- an option whose value is the next argument -/
  pending : Option Opt
  /-- options have ended -/
  ended : Bool
  /-- what help was asked on, once it was asked for -/
  topics : Option (List Text)
  deriving DecidableEq, Repr

def start : St := ⟨[], none, [], [], none, false, none⟩

/-- options that may be given next -/
def St.options (s : St) : List Opt := Opt.shared ++ (s.verb.map Opt.ofVerb).getD []

/-- options given on this side of the command -/
def St.given (s : St) : Given := if s.verb.isSome then s.inner else s.outer

/-- give an option a value -/
def give (s : St) (o : Opt) (value : Text) : Except Stop St :=
  if o.takes ≠ .none ∧ !o.takes.accepts value then .error (.usage (.invalidValue o value))
  else if !o.repeats ∧ s.given.any (·.1 = o) then .error (.usage (.repeatedOption o))
  else if s.verb.isSome then .ok { s with inner := s.inner ++ [(o, value)], pending := none }
  else .ok { s with outer := s.outer ++ [(o, value)], pending := none }

/-- an argument that begins with two dashes, without them -/
def long (s : St) (argument : Text) : Except Stop St :=
  let (name, value) := match Text.cut? '=' argument with
    | some (name, value) => (name, some value)
    | none => (argument, none)
  match s.options.find? (·.name = name) with
  | some o => match o.takes, value with
    | .none, none => give s o []
    | .none, some _ => .error (.usage (.unexpectedValue o))
    | _, some value => give s o value
    | _, none => .ok { s with pending := some o }
  | none =>
    if name = "help".toList ∧ value = none then .error .help
    else if name = "version".toList ∧ value = none ∧ s.verb = none then .error .version
    else .error (.usage (.unknownOption argument))

/-- an argument that begins with one dash -/
def short (s : St) (argument : Text) : Except Stop St :=
  match argument with
  | '-' :: 'h' :: _ => .error .help
  | '-' :: 'V' :: _ => .error (if s.verb = none then .version else .usage (.unknownOption argument))
  | _ => .error (.usage (.unknownOption argument))

/-- an argument that is no option -/
def plain (s : St) (argument : Text) : Except Stop St :=
  match s.verb with
  | none =>
    if s.ended then .error (.usage (.unknownCommand argument))
    else match Verb.ofName? argument with
      | some v => .ok { s with verb := some v }
      | none =>
        if argument = "help".toList then .ok { s with topics := some [] }
        else .error (.usage (.unknownCommand argument))
  | some v =>
    if argument.isEmpty then .error (.usage .emptyPath)
    else if v = .split ∧ s.files ≠ [] then .error (.usage .tooManyFiles)
    else .ok { s with files := s.files ++ [argument] }

/-- an argument behind the word `help`: one name of a command, or `help` itself -/
def topic (s : St) (topics : List Text) (argument : Text) : Except Stop St :=
  if topics = [] ∧ (argument = "help".toList ∨ (Verb.ofName? argument).isSome) then
    .ok { s with topics := some [argument] }
  else .error (.usage (.unknownCommand argument))

/-- whether an argument looks like an option; a single dash does not -/
def looksLikeOption : Text → Bool
  | '-' :: _ :: _ => true
  | _ => false

/-- one argument -/
def step (s : St) (argument : Text) : Except Stop St :=
  match s.topics, s.pending with
  | some ts, _ => topic s ts argument
  | none, some o => if looksLikeOption argument then .error (.usage (.missingValue o)) else give s o argument
  | none, none =>
    if s.ended ∨ !looksLikeOption argument then plain s argument
    else match argument with
      | ['-', '-'] => .ok { s with ended := true }
      | '-' :: '-' :: t => long s t
      | _ => short s argument

/-- the values given for an option, in order -/
def values (g : Given) (o : Opt) : List Text := (g.filter (·.1 = o)).map (·.2)

/-- what a command is to do -/
inductive Command where
  | merge (files : List Text) (out : Option Text)
  | vars (references files : List Text) (hex : Bool)
  | animations (files : List Text)
  | integrity (references files : List Text)
  | coverage (files : List Text)
  | audit (files : List Text) (config : Audit.Config)
  | split (file outDir : Text)
  deriving DecidableEq, Repr

/-- a command and how it is run -/
structure Invocation where
  command : Command
  json : Bool
  themeAttribute : Text
  deriving DecidableEq, Repr

/-- the findings that an audit is to report -/
def auditConfig (g : Given) : Audit.Config where
  minSeverity := ((values g .minSeverity).head?.bind Audit.Severity.ofName?).getD .info
  maxIssues := ((values g .maxIssues).head?.bind count?).getD 0
  disabled := (values g .disable).map String.ofList

/-- the files of a command, of which there is at least one -/
def St.someFiles (s : St) : Except Stop (List Text) :=
  if s.files.isEmpty then .error (.usage .noFiles) else .ok s.files

/-- the references of a command, of which there is at least one -/
def St.someReferences (s : St) : Except Stop (List Text) :=
  let references := values s.inner .reference
  if references.isEmpty then .error (.usage .noReference) else .ok references

/-- the command once all arguments are read -/
def St.command (s : St) : Verb → Except Stop Command
  | .merge => do return .merge (← s.someFiles) (values s.inner .out).head?
  | .vars => do return .vars (← s.someReferences) (← s.someFiles) (s.inner.any (·.1 = .hex))
  | .animations => do return .animations (← s.someFiles)
  | .integrity => do return .integrity (← s.someReferences) (← s.someFiles)
  | .coverage => do return .coverage (← s.someFiles)
  | .audit => do return .audit (← s.someFiles) (auditConfig s.inner)
  | .split => match s.files with
    | file :: _ => .ok (.split file ((values s.inner .outDir).head?.getD ['.']))
    | [] => .error (.usage .noFiles)

/-- a shared option behind the command goes before one in front of it -/
def St.finish (s : St) : Except Stop Invocation :=
  match s.topics, s.pending, s.verb with
  | some _, _, _ => .error .help
  | none, some o, _ => .error (.usage (.missingValue o))
  | none, none, none => .error (.usage .noCommand)
  | none, none, some v => do
    let command ← s.command v
    let given := s.inner ++ s.outer
    return {
      command
      json := given.any (·.1 = .json)
      themeAttribute := (values given .themeAttr).head?.getD Selector.defaultThemeAttribute }

/-- read all arguments -/
def parse (arguments : List Text) : Except Stop Invocation := do (← arguments.foldlM step start).finish

end StyleCheck.CommandLine
