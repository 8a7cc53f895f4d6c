import EventRules.Catalog.Json
import EventRules.Host.Basic

/-!
Loading a catalog from a file that holds all of it, or from a directory with a file for each
version.
-/
namespace EventRules.Catalog

variable {m : Type → Type} [Monad m] [Host m]

def readJson (path : Path) : m (Except Fault Json) := do
  match ← Host.readFile path with
  | .error fault => return .error (.io fault)
  | .ok octets => return parseFile octets

/-- The names of the files with a version, in order. -/
def versionFiles (names : List Path.Name) : List Path.Name :=
  (names.filter fun name => Path.extension? ⟨name⟩ == some (Encoding.Utf8.encode "json")).mergeSort
    fun a b => a ≤ b

/-- Add the versions in files of a directory. A file whose stem is not UTF-8 is passed over. -/
def addVersions (directory : Path) : List Path.Name → Catalog → m (Except Fault Catalog)
  | [], catalog => return .ok catalog
  | name :: rest, catalog =>
    match Encoding.Utf8.text? (Path.splitName name).1 with
    | none => addVersions directory rest catalog
    | some version => do
      let path := directory.join name
      match ← readJson path with
      | .error fault => return .error fault
      | .ok value =>
        match eventTypesOfJson path.display value with
        | .error fault => return .error fault
        | .ok types => addVersions directory rest (catalog.withVersion version types)

def load (path : Path) : m (Except Fault Catalog) := do
  if ← Host.isDirectory path then
    match ← Host.listDirectory path with
    | .error fault => return .error (.io fault)
    | .ok names => addVersions path (versionFiles names) {}
  else
    match ← readJson path with
    | .error fault => return .error fault
    | .ok value => return ofJson path.display value

end EventRules.Catalog
