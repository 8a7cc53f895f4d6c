import EventRules.CommandLine.Run
import EventRules.Host.Identifier

/-!
The program. The host is the operating system.
-/
namespace EventRules

/-- The number of an error of the operating system, of which some are reported with a sign. -/
def errorNumber (code : UInt32) : Nat :=
  if code.toNat < UInt32.size / 2 then code.toNat else UInt32.size - code.toNat

def IoFault.ofError : IO.Error → IoFault
  | .noFileOrDirectory .. => .notFound
  | .alreadyExists .. => .alreadyExists
  | .permissionDenied .. => .other "Permission denied (os error 13)"
  | .inappropriateType _ code details =>
    match errorNumber code with
    | 20 => .notADirectory
    | 21 => .isADirectory
    | number => .other (details ++ " (os error " ++ toString number ++ ")")
  | .invalidArgument _ code details =>
    match errorNumber code with
    | 36 => .nameTooLong
    | number => .other (details ++ " (os error " ++ toString number ++ ")")
  | error => .other (toString error)

/-- A request to the operating system, with the fault when it is refused. -/
def attempt {α : Type} (request : IO α) : IO (Except IoFault α) := do
  return (← request.toBaseIO).mapError IoFault.ofError

/-- The text of a path, as requests to the operating system take it. -/
def Path.text (path : Path) : IO String :=
  match Encoding.Utf8.text? path.octets with
  | some text => return text
  | none => throw (IO.userError "the path is not UTF-8")

instance : Host IO where
  readFile path := attempt do return (← IO.FS.readBinFile (← path.text)).toList
  isDirectory path :=
    match Encoding.Utf8.text? path.octets with
    | some text => do ((← IO.currentDir) / text).isDir
    | none => return false
  listDirectory path := attempt do
    return (← ((← IO.currentDir) / (← path.text)).readDir).toList.map fun entry =>
      Encoding.Utf8.encode entry.fileName
  writeFile path content := attempt do IO.FS.writeFile (← path.text) content
  makeDirectories path := attempt do IO.FS.createDirAll (← path.text)
  getVariable name := IO.getEnv name
  freshId := return Identifier.ofRandom (← IO.getRandomBytes 16).toList
  output text := do
    let stream ← IO.getStdout
    stream.putStr text
    stream.flush
  report line := IO.eprintln line

end EventRules

def main (args : List String) : IO UInt32 := do
  return (← (EventRules.CommandLine.run args : IO Nat)).toUInt32
