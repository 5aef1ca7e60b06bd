import HostBindings.Options
import HostBindings.Path
import HostBindings.Text.Integer

/-!
Arguments of the command line.

An argument that starts with a dash is an option, unless it is a dash alone, a negative number or
holds a blank and is no option's name. Long options may be shortened as long as one option is
meant. A value follows its option, or an equals sign, or directly a short option. Short options
without a value may be written together, also after an equals sign. After two dashes nothing is an
option.
-/

namespace HostBindings.CommandLine

/-- What the user asks for. -/
structure Arguments where
  source : Path
  /-- The destination, unless two dashes stand in its place. -/
  dest : Option Path
  settings : Settings
  /-- Whether two dashes stand in the place of the number of jobs. -/
  lacksJobs : Bool := false
  json : Bool := false
  verbose : Bool := false

/-- The options of the command. -/
inductive Flag
  | help
  | moduleSuffix
  | noCatalogUses
  | jobs
  | json
  | verbose
deriving DecidableEq, Repr

namespace Flag

def takesValue : Flag → Bool
  | moduleSuffix | jobs => true
  | _ => false

end Flag

/-- The names of the options. -/
def flagNames : List (Text × Flag) :=
  [("-h", .help), ("--help", .help), ("--module-suffix", .moduleSuffix),
    ("--no-catalog-uses", .noCatalogUses), ("-j", .jobs), ("--jobs", .jobs), ("--json", .json),
    ("-v", .verbose), ("--verbose", .verbose)]

/-- What an argument is. -/
inductive Word
  | plain
  /-- An option, and what is written in the same argument after it. -/
  | flag (f : Flag) (isShort : Bool) (attached : Option Text)
  | ambiguous
  | unknown
deriving DecidableEq, Repr

/-- A name and what follows the first equals sign, if there is one. -/
def splitEquals (t : Text) : Text × Option Text :=
  let isName (c : CodePoint) : Bool := c != '='
  match t.dropWhile isName with
  | [] => (t, none)
  | _ :: value => (t.takeWhile isName, some value)

/-- Whether a text is a number below zero, with or without a fraction. A line may end after it. -/
def isNegativeNumber (t : Text) : Bool :=
  match (Text.dropEnding? "\n" t).getD t with
  | [] => false
  | c :: rest =>
    let digits := rest.takeWhile Text.DecimalDigit.isDecimal
    match rest.dropWhile Text.DecimalDigit.isDecimal with
    | [] => c = '-' && !digits.isEmpty
    | point :: fraction =>
      c = '-' && point = '.' && !fraction.isEmpty && fraction.all Text.DecimalDigit.isDecimal

/-- The options that an argument may abbreviate or start with. -/
def candidates (t : Text) : List Word :=
  if t.startsWith "--" then
    let (name, attached) := splitEquals t
    (flagNames.filter fun f => f.1.startsWith name).map fun f => .flag f.2 false attached
  else
    (flagNames.filter fun f => f.1 = t.take 2).map fun f => .flag f.2 true (some (t.drop 2))

/-- Whether a name of an option is a short one. -/
def isShort (name : Text) : Bool := !name.startsWith "--"

/-- What an argument before two dashes is. -/
def classify (t : Text) : Word :=
  if !t.startsWith "-" || t.length = 1 then .plain
  else
    match flagNames.lookup t with
    | some f => .flag f (isShort t) none
    | none =>
      let (name, attached) := splitEquals t
      match (if attached.isNone then none else flagNames.lookup name) with
      | some f => .flag f (isShort name) attached
      | none =>
        match candidates t with
        | [word] => word
        | [] => if isNegativeNumber t || t.contains ' ' then .plain else .unknown
        | _ => .ambiguous

/-- How reading ends early. -/
inductive Stop
  | help
  | misuse
deriving DecidableEq, Repr

/-- Two dashes: nothing after the first ones is an option, and in the place of a value they leave
it out. -/
def dashes : Text := "--"

/-- What was read so far. -/
structure Progress where
  /-- The arguments that are no options; one may be left out by two dashes in its place. -/
  positional : List (Option Text) := []
  /-- Whether the last argument was one of these. -/
  afterPositional : Bool := false
  settings : Settings := {}
  /-- Whether the number of jobs was left out by two dashes in its place. -/
  lacksJobs : Bool := false
  json : Bool := false
  verbose : Bool := false
  /-- Whether an argument was not understood, which counts only at the end. -/
  stray : Bool := false

namespace Progress

/-- Takes in an argument that is no option. -/
def add (p : Progress) (t : Text) : Progress :=
  { p with positional := p.positional ++ [some t], afterPositional := true }

/-- Takes in an option without a value. -/
def set (p : Progress) : Flag → Except Stop Progress
  | .help => .error .help
  | .noCatalogUses => .ok { p with settings := { p.settings with emitCatalogUses := false } }
  | .json => .ok { p with json := true }
  | .verbose => .ok { p with verbose := true }
  | .moduleSuffix | .jobs => .error .misuse

/-- Takes in the number of jobs. -/
def setJobs (p : Progress) (value : Text) : Except Stop Progress :=
  if value = dashes then
    .ok { p with settings := { p.settings with jobs := 1 }, lacksJobs := true }
  else
    match Text.Integer.read? value with
    | some jobs => .ok { p with settings := { p.settings with jobs := jobs }, lacksJobs := false }
    | none => .error .misuse

/-- Takes in an option with its value. -/
def setValue (p : Progress) (value : Text) : Flag → Except Stop Progress
  | .moduleSuffix =>
    let suffix := if value = dashes then [] else value
    .ok { p with settings := { p.settings with moduleSuffix := suffix } }
  | .jobs => p.setJobs value
  | _ => .error .misuse

/-- Takes in what follows the first two dashes. They belong to the argument before them or, after
an option, to the one behind them, and have to stand beside one. Another two dashes leave an
argument out, except where the first ones belong to them. -/
def finish (p : Progress) (rest : List Text) : Progress :=
  let given (t : Text) : Option Text := if t = dashes then none else some t
  let more := match rest with
    | [] => []
    | first :: others =>
      (if p.afterPositional then given first else some first) :: others.map given
  { p with
    positional := p.positional ++ more
    stray := p.stray || rest.isEmpty && !p.afterPositional }

end Progress

/-- The short option of a letter. -/
def shortFlag? (letter : CodePoint) : Option Flag := flagNames.lookup ("-" ++ [letter])

/-- The options of one argument: those without a value, and after them one that takes a value,
with the value if it is written in the same argument. -/
structure Group where
  flags : List Flag := []
  last : Option (Flag × Option Text) := none

namespace Group

/-- The options of letters that follow a short option without a value. -/
def ofLetters : Text → Except Stop Group
  | [] => .ok {}
  | c :: rest =>
    match shortFlag? c with
    | none => .error .misuse
    | some f =>
      if f.takesValue then .ok { last := some (f, if rest.isEmpty then none else some rest) }
      else do
        let group ← ofLetters rest
        .ok { group with flags := f :: group.flags }

/-- The options of an argument that starts with one. -/
def ofFlag (f : Flag) (isShort : Bool) (attached : Option Text) : Except Stop Group :=
  if f.takesValue then .ok { last := some (f, attached) }
  else
    match attached with
    | none => .ok { flags := [f] }
    | some letters =>
      if !isShort || letters.isEmpty then .error .misuse
      else do
        let group ← ofLetters letters
        .ok { group with flags := f :: group.flags }

/-- Takes in the options of one argument; `value` is that of the last one. -/
def apply (group : Group) (value : Text) (p : Progress) : Except Stop Progress := do
  let p ← group.flags.foldlM Progress.set { p with afterPositional := false }
  match group.last with
  | none => return p
  | some (f, _) => p.setValue value f

end Group

/-- Reads the arguments. An option that still needs its value takes the next argument, which must
be no option. -/
def read (p : Progress) : List Text → Except Stop Progress
  | [] => .ok p
  | t :: rest =>
    if t = dashes then .ok (p.finish rest)
    else
      match classify t with
      | .plain => read (p.add t) rest
      | .unknown => read { p with stray := true } rest
      | .ambiguous => .error .misuse
      | .flag f isShort attached => do
        let group ← Group.ofFlag f isShort attached
        match group.last with
        | some (_, none) =>
          match rest with
          | [] => .error .misuse
          | value :: rest =>
            if value = dashes || classify value != .plain then .error .misuse
            else read (← group.apply value p) rest
        | some (_, some value) => read (← group.apply value p) rest
        | none => read (← group.apply [] p) rest

/-- Whether some argument before two dashes may mean several options. This is looked at before
anything else, so even a request for help does not excuse it. -/
def hasAmbiguous (argv : List Text) : Bool :=
  (argv.takeWhile fun (t : Text) => t != dashes).any fun t => classify t = .ambiguous

/-- The arguments of the command: a source, a destination and options. -/
def Arguments.parse (argv : List Text) : Except Stop Arguments := do
  if hasAmbiguous argv then throw .misuse
  let p ← read {} argv
  match p.positional with
  | [some source, dest] =>
    if p.stray then .error .misuse
    else
      return { source := Path.ofText source, dest := dest.map Path.ofText
               settings := p.settings, lacksJobs := p.lacksJobs, json := p.json
               verbose := p.verbose }
  | _ => .error .misuse

end HostBindings.CommandLine
