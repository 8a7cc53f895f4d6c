import EventRules.Host.Path

/-!
Arguments of the command line, which are taken to be UTF-8. Options may stand anywhere after the
command, each at most once; a value may be joined to its option or follow it; after two dashes
everything is positional. Paths are never empty. Arguments are read in order: the first fault or
the first request for help decides.
-/
namespace EventRules.CommandLine

structure CompileOptions where
  entryPhase : Option String := none
  runPhase : Option String := none
  publishPhase : Option String := none
  catalog : Option Path := none
  deriving DecidableEq

inductive Command where
  | validate (input : Path) (catalog : Option Path)
  | translate (input : Path) (output : Option Path) (laidOut : Bool)
      (options : CompileOptions)
  | batch (inputs : List Path) (directory : Path) (options : CompileOptions)
  | elements
  | sample
  | help
  deriving DecidableEq

structure Invocation where
  quiet : Bool
  command : Command
  deriving DecidableEq

structure OptionSpec where
  long : String
  short : Option Char := none
  /-- It has a value, which is a path or any text. -/
  value : Option Bool := none
  deriving DecidableEq

def switch (long : String) (short : Option Char) : OptionSpec := { long, short }

def textOption (long : String) : OptionSpec := { long, value := some false }

def pathOption (long : String) (short : Option Char) : OptionSpec :=
  { long, short, value := some true }

/-- What was read of the arguments: options with their values, and positional arguments. -/
structure Reading where
  given : List (String × String) := []
  positional : List String := []

/-- Note an option with its value; none where it was given before or its value may not be empty. -/
def Reading.note (r : Reading) (spec : OptionSpec) (value : String) : Option Reading :=
  if (r.given.lookup spec.long).isSome then none
  else if spec.value = some true ∧ value = "" then none
  else some { r with given := r.given ++ [(spec.long, value)] }

/-- Note a positional argument, a path; none where it is empty or the command takes no more. -/
def Reading.notePositional (limit : Option Nat) (r : Reading) (value : String) :
    Option Reading :=
  if value = "" ∨ limit.any (· ≤ r.positional.length) then none
  else some { r with positional := r.positional ++ [value] }

def isOption (arg : String) : Bool :=
  match arg.toList with
  | '-' :: _ :: _ => true
  | _ => false

inductive Piece where
  | positional (value : String)
  /-- Two dashes alone. -/
  | stop
  /-- A long option, perhaps with a joined value. -/
  | long (name : String) (value : Option String)
  /-- Short options in a row. -/
  | short (letters : List Char)

def Piece.of (arg : String) : Piece :=
  match arg.toList with
  | ['-', '-'] => .stop
  | '-' :: '-' :: rest =>
    let name := rest.takeWhile fun c => c ≠ '='
    match rest.drop name.length with
    | [] => .long (String.ofList name) none
    | _ :: value => .long (String.ofList name) (some (String.ofList value))
  | '-' :: c :: rest => .short (c :: rest)
  | _ => .positional arg

/-- What reading short options in a row leaves over. -/
inductive ShortResult where
  | done (reading : Reading)
  /-- The last option waits for its value. -/
  | waits (spec : OptionSpec) (reading : Reading)
  | help
  | refused

/-- Read short options in a row. The rest of the row after an option with a value is its value. -/
def readShort (specs : List OptionSpec) (r : Reading) : List Char → ShortResult
  | [] => .done r
  | c :: rest =>
    match specs.find? fun spec => spec.short = some c with
    | none => if c = 'h' then .help else .refused
    | some spec =>
      match spec.value, rest with
      | none, _ =>
        match r.note spec "" with
        | some noted => readShort specs noted rest
        | none => .refused
      | some _, [] => .waits spec r
      | some _, d :: others =>
        match r.note spec (String.ofList (if d = '=' then others else rest)) with
        | some noted => .done noted
        | none => .refused

inductive Outcome where
  | read (reading : Reading)
  | help
  | refused

/-- Read arguments, of which at most `limit` are positional; an option that waits for its value
takes the next argument, unless that looks like an option. -/
def readArguments (specs : List OptionSpec) (limit : Option Nat) :
    Option OptionSpec → Reading → List String → Outcome
  | none, r, [] => .read r
  | some _, _, [] => .refused
  | some spec, r, arg :: rest =>
    if isOption arg then .refused
    else
      match r.note spec arg with
      | some noted => readArguments specs limit none noted rest
      | none => .refused
  | none, r, arg :: rest =>
    match Piece.of arg with
    | .positional value =>
      match r.notePositional limit value with
      | some noted => readArguments specs limit none noted rest
      | none => .refused
    | .stop =>
      match rest.foldlM (fun r value => r.notePositional limit value) r with
      | some noted => .read noted
      | none => .refused
    | .long name value =>
      match specs.find? fun spec => spec.long = name with
      | none => if name = "help" ∧ value = none then .help else .refused
      | some spec =>
        match spec.value, value with
        | none, some _ => .refused
        | some _, none => readArguments specs limit (some spec) r rest
        | _, _ =>
          match r.note spec (value.getD "") with
          | some noted => readArguments specs limit none noted rest
          | none => .refused
    | .short letters =>
      match readShort specs r letters with
      | .done noted => readArguments specs limit none noted rest
      | .waits spec noted => readArguments specs limit (some spec) noted rest
      | .help => .help
      | .refused => .refused

def quietSwitch : OptionSpec := switch "quiet" (some 'q')

def compileSpecs : List OptionSpec :=
  [textOption "entry-phase", textOption "run-phase", textOption "publish-phase",
    pathOption "catalog" (some 'c')]

/-- The path that is given with an option. -/
def Reading.path? (r : Reading) (long : String) : Option Path :=
  (r.given.lookup long).map Path.ofText

def Reading.compileOptions (r : Reading) : CompileOptions :=
  { entryPhase := r.given.lookup "entry-phase"
    runPhase := r.given.lookup "run-phase"
    publishPhase := r.given.lookup "publish-phase"
    catalog := r.path? "catalog" }

def specsOf (command : String) : List OptionSpec :=
  quietSwitch ::
    if command = "validate" then [pathOption "catalog" (some 'c')]
    else if command = "translate" then
      [pathOption "output" (some 'o'), switch "pretty" none] ++ compileSpecs
    else if command = "batch" then [pathOption "out-dir" (some 'd')] ++ compileSpecs
    else []

/-- The number of positional arguments that a command takes; none where it takes any number. -/
def limitOf (command : String) : Option Nat :=
  if command = "batch" then none
  else if command = "validate" ∨ command = "translate" then some 1
  else some 0

def commandOf? (name : String) (r : Reading) : Option Command :=
  match name, r.positional with
  | "validate", [input] => some (.validate (.ofText input) (r.path? "catalog"))
  | "translate", [input] =>
    some (.translate (.ofText input) (r.path? "output") (r.given.lookup "pretty").isSome
      r.compileOptions)
  | "batch", input :: others =>
    (r.path? "out-dir").map fun directory =>
      .batch ((input :: others).map Path.ofText) directory r.compileOptions
  | "elements", [] => some .elements
  | "example", [] => some .sample
  | _, _ => none

def commandNames : List String := ["validate", "translate", "batch", "elements", "example"]

def readCommand (quiet : Bool) (name : String) (args : List String) : Option Invocation :=
  if name = "help" then
    match args with
    | [] => some ⟨quiet, .help⟩
    | topic :: rest =>
      if rest.isEmpty && (topic = "help" || commandNames.contains topic) then
        some ⟨quiet, .help⟩
      else none
  else if commandNames.contains name then
    match readArguments (specsOf name) (limitOf name) none {} args with
    | .read r =>
      (commandOf? name r).map fun command =>
        ⟨quiet || (r.given.lookup quietSwitch.long).isSome, command⟩
    | .help => some ⟨quiet, .help⟩
    | .refused => none
  else none

/-- Read the arguments of the program; none where they are not understood. -/
def parse (quiet : Bool) : List String → Option Invocation
  | [] => none
  | arg :: rest =>
    match Piece.of arg with
    | .positional name => readCommand quiet name rest
    | .stop => none
    | piece =>
      let letters :=
        match piece with
        | .long "quiet" none => ['q']
        | .long "help" none => ['h']
        | .short letters => letters
        | _ => ['?']
      match readShort [quietSwitch] {} letters with
      | .done _ => if quiet then none else parse true rest
      | .help => some ⟨quiet, .help⟩
      | _ => none

end EventRules.CommandLine
