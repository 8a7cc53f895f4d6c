import EventRules.Host.Fault
import EventRules.Host.Path

/-!
What the programs ask of their surroundings: files, environment variables, fresh identifiers and
two streams for lines of text. The programs are written over any monad that offers this.
-/
namespace EventRules

/-- A monad with files, variables, identifiers and streams. -/
class Host (m : Type → Type) where
  /-- The octets of a file. -/
  readFile : Path → m (Except IoFault (List UInt8))
  /-- The path is a directory. -/
  isDirectory : Path → m Bool
  /-- The names in a directory, in any order. -/
  listDirectory : Path → m (Except IoFault (List Path.Name))
  /-- Write a file, in place of an earlier one. -/
  writeFile : Path → String → m (Except IoFault Unit)
  /-- Make a directory and those around it, where they are missing. -/
  makeDirectories : Path → m (Except IoFault Unit)
  /-- The value of an environment variable. -/
  getVariable : String → m (Option String)
  /-- An identifier that was not handed out before. -/
  freshId : m String
  /-- Write a text to the output. -/
  output : String → m Unit
  /-- Write a line to the stream for reports. -/
  report : String → m Unit

end EventRules
