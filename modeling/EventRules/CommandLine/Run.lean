import EventRules.Batch
import EventRules.CommandLine.Arguments
import EventRules.CommandLine.Reference
import EventRules.Json.Nesting
import EventRules.Settings.EnvFile

/-!
The commands. Results go to the output; log entries, unless the program is to be quiet, and the
error that ends it go to the stream for reports. The exit code is 0, or 1 after an error, or 2 for
arguments that are not understood.
-/
namespace EventRules.CommandLine

variable {m : Type → Type} [Monad m] [Host m]

def reportLines : List String → m Unit
  | [] => return
  | line :: rest => do
    Host.report line
    reportLines rest

def echo (quiet : Bool) (entries : List LogEntry) : m Unit :=
  if quiet then return else reportLines (entries.map LogEntry.line)

def fail (message : String) : m Nat := do
  Host.report ("Error: " ++ message)
  return 1

def outputLine (text : String) : m Unit := Host.output (text ++ "\n")

/-- Show problems: their number as an entry, and their list as a result. -/
def rejectWith (quiet : Bool) (problems : List Problem) : m Nat := do
  echo quiet [.error (toString problems.length ++ " error(s) found")]
  outputLine (Json.array (problems.map fun p => p.diagnostic.toJson)).pretty
  return 1

def environmentOf : List String → m (List (String × String))
  | [] => return []
  | name :: rest => do
    let value ← Host.getVariable name
    let others ← environmentOf rest
    return (value.map fun v => (name, v)).toList ++ others

def envFile : m (List EnvFile.Assignment) := do
  match ← Host.readFile (.ofText ".env") with
  | .error _ => return []
  | .ok octets => return EnvFile.read octets

def readSettings : m Settings := do
  let assignments ← envFile
  let environment ← environmentOf (EnvFile.names assignments ++ Settings.variableNames)
  let environment := EnvFile.apply environment assignments
  return Settings.ofEnvironment fun name => environment.lookup name

def CompileOptions.applyTo (o : CompileOptions) (s : Settings) : Settings :=
  let s := (o.entryPhase.map s.withEntry).getD s
  let s := (o.runPhase.map s.withRun).getD s
  let s := (o.publishPhase.map s.withPublish).getD s
  (o.catalog.map s.withCatalog).getD s

/-- Check a payload as it is checked before compiling: the rule or the ruleset that was read, with
its actions in order. -/
def validated (catalog : Option Catalog) : Payload → Except (List Problem) Json
  | .rule rule => rule.validated.map Rule.toJson
  | .ruleSet rules =>
    match rules.imported catalog with
    | .error problems => .error problems
    | .ok rules => rules.grouped.map RuleSet.toJson

def readPayload (path : Path) : m (Except Payload.Fault Payload) := do
  let fresh ← Host.freshId
  match ← Host.readFile path with
  | .error fault => return .error (.io fault)
  | .ok octets => return Payload.ofBytes fresh octets

/-- Check a file, and write what was read in the order in which it would be compiled. -/
def validate (quiet : Bool) (input : Path) (catalog : Option Path) : m Nat := do
  let settings ← readSettings
  let (loaded, entries) ← Compile.loadCatalog ((catalog.map settings.withCatalog).getD settings)
  echo quiet entries
  match loaded with
  | .error fault => fail (CompileFault.catalog fault).message
  | .ok catalog =>
    echo quiet [.info ("Validating: " ++ input.display)]
    match ← readPayload input with
    | .error fault => fail fault.message
    | .ok payload =>
      match validated catalog payload with
      | .error problems => rejectWith quiet problems
      | .ok value =>
        echo quiet [.success "Rules are valid"]
        outputLine value.pretty
        return 0

def writeResult (quiet : Bool) (content : String) : Option Path → m Nat
  | none => do
    outputLine content
    return 0
  | some path => do
    match ← Host.writeFile path content with
    | .error fault => fail fault.message
    | .ok _ =>
      echo quiet [.success ("Output written to: " ++ path.display)]
      return 0

/-- The text of a document laid out. The document is read from its compact text for that, so its
containers may be nested as deeply as those of a text and no deeper. -/
def laidOutText (value : Json) : Except String String :=
  match Json.overflow? value.compact with
  | some place =>
    .error ("recursion limit exceeded at line 1 column " ++ toString (place + 1))
  | none => .ok value.pretty

def translate (quiet : Bool) (input : Path) (output : Option Path) (laidOut : Bool)
    (options : CompileOptions) : m Nat := do
  let settings := options.applyTo (← readSettings)
  let (loaded, entries) ← Compile.loadCatalog settings
  echo quiet entries
  match loaded with
  | .error fault => fail (CompileFault.catalog fault).message
  | .ok catalog =>
    let (result, entries) ← Compile.file settings catalog input
    echo quiet entries
    match result with
    | .error (.rejected problems) => rejectWith quiet problems
    | .error fault => fail fault.message
    | .ok value =>
      match if laidOut then laidOutText value else .ok value.compact with
      | .error message => fail message
      | .ok content => writeResult quiet content output

/-- The name of the document of an input. An input without a stem, or with one that is not UTF-8,
has the name of a file of rules. -/
def documentName (input : Path) : String :=
  (input.stem?.bind Encoding.Utf8.text?).getD "rules" ++ ".pipeline.json"

def documentPath (directory input : Path) : Path :=
  directory.join (Encoding.Utf8.encode (documentName input))

/-- Write the documents of a batch, and count the inputs that have none. A document that cannot be
written ends the program. -/
def writeDocuments (quiet : Bool) (directory : Path) :
    List (Path × Except CompileFault Json) → Nat → m (Except IoFault Nat)
  | [], failed => return .ok failed
  | (_, .error _) :: rest, failed => writeDocuments quiet directory rest (failed + 1)
  | (input, .ok value) :: rest, failed => do
    let path := documentPath directory input
    match ← Host.writeFile path value.compact with
    | .error fault => return .error fault
    | .ok _ =>
      echo quiet [.success (input.display ++ " -> " ++ path.display)]
      writeDocuments quiet directory rest failed

def progressEntries (inputs : List Path) (entries : List LogEntry) : List LogEntry :=
  let progress := Progress.start inputs
  (progress.outcomes entries).map fun outcome =>
    (LogEntry.info (toString outcome.1 ++ "/" ++ toString progress.total ++ " done")).indented 1

def batch (quiet : Bool) (inputs : List Path) (directory : Path)
    (options : CompileOptions) : m Nat := do
  let settings := options.applyTo (← readSettings)
  match ← Host.makeDirectories directory with
  | .error fault => fail fault.message
  | .ok _ =>
    let (loaded, entries) ← Compile.loadCatalog settings
    echo quiet entries
    match loaded with
    | .error fault => fail (CompileFault.catalog fault).message
    | .ok catalog =>
      echo quiet [.info ("Compiling " ++ toString inputs.length ++ " file(s)")]
      let (results, entries) ← Compile.files settings catalog inputs
      echo quiet entries
      echo quiet (progressEntries inputs entries)
      match ← writeDocuments quiet directory (inputs.zip results) 0 with
      | .error fault => fail fault.message
      | .ok 0 => return 0
      | .ok failed =>
        fail (toString failed ++ " of " ++ toString inputs.length ++ " file(s) failed")

def usage : String := "Usage: eventrules [--quiet] <validate|translate|batch|elements|example>"

def Command.run (quiet : Bool) : Command → m Nat
  | .validate input catalog => CommandLine.validate quiet input catalog
  | .translate input output laidOut options =>
    CommandLine.translate quiet input output laidOut options
  | .batch inputs directory options => CommandLine.batch quiet inputs directory options
  | .elements => do
    outputLine ("\n".intercalate elementLines)
    return 0
  | .sample => do
    outputLine sampleRuleSet.pretty
    return 0
  | .help => do
    outputLine usage
    return 0

/-- Run the program on its arguments; the result is the exit code. -/
def run (args : List String) : m Nat :=
  match parse false args with
  | none => do
    Host.report usage
    return 2
  | some invocation => invocation.command.run invocation.quiet

end EventRules.CommandLine
