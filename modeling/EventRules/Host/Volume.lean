import EventRules.Host.Basic

/-!
A host that is a value: a table of files and a list of directories, each under the components of
its place, an environment, a counter of identifiers, and what was written to the streams.

A path is followed piece by piece, from the root or from the working directory. Whatever a piece is
looked up in has to be a directory that is there, so a step back to the directory above undoes only
what could be entered.
-/
namespace EventRules

structure Volume where
  files : List (List Path.Name × List UInt8) := []
  directories : List (List Path.Name) := []
  workingDirectory : List Path.Name := []
  environment : List (String × String) := []
  handedOut : Nat := 0
  /-- The identifier with a number. -/
  identifier : Nat → String := fun n => toString n
  outputText : String := ""
  reports : List String := []

namespace Volume

def fileAt? (v : Volume) (place : List Path.Name) : Option (List UInt8) := v.files.lookup place

def places (v : Volume) : List (List Path.Name) :=
  v.workingDirectory :: v.directories ++ v.files.map (·.1)

/-- The place is a directory: it is known or has something known in it, and is no file. -/
def isDirectoryAt (v : Volume) (place : List Path.Name) : Bool :=
  (v.fileAt? place).isNone && v.places.any fun other => place.isPrefixOf other

def enter (v : Volume) (place : List Path.Name) : Except IoFault (List Path.Name) :=
  if (v.fileAt? place).isSome then .error .notADirectory
  else if v.isDirectoryAt place then .ok place
  else .error .notFound

/-- The place that a piece of a path names in a directory. A name has at most 255 octets. -/
def step (directory : List Path.Name) (piece : Path.Name) : Except IoFault (List Path.Name) :=
  if piece = [] ∨ piece = [Path.dot] then .ok directory
  else if piece = [Path.dot, Path.dot] then .ok directory.dropLast
  else if 255 < piece.length then .error .nameTooLong
  else .ok (directory ++ [piece])

/-- Follow the pieces of a path from a place. There may be nothing at the place in the end. -/
def follow (v : Volume) : List Path.Name → List Path.Name → Except IoFault (List Path.Name)
  | place, [] => .ok place
  | place, piece :: rest => do
    let directory ← v.enter place
    let next ← step directory piece
    v.follow next rest

def start (v : Volume) (path : Path) : List Path.Name :=
  if path.isAbsolute then [] else v.workingDirectory

/-- A path that can be followed is not empty and has fewer than 4096 octets and no NUL. -/
def checkPath (path : Path) : Except IoFault Unit :=
  if path.octets.contains 0 then
    .error (.other "file name contained an unexpected NUL byte")
  else if path.octets = [] then .error .notFound
  else if 4096 ≤ path.octets.length then .error .nameTooLong
  else .ok ()

def locate (v : Volume) (path : Path) : Except IoFault (List Path.Name) := do
  checkPath path
  v.follow (v.start path) path.pieces

def isDirectory (v : Volume) (path : Path) : Bool :=
  match v.locate path with
  | .ok place => v.isDirectoryAt place
  | .error _ => false

def read (v : Volume) (path : Path) : Except IoFault (List UInt8) := do
  let place ← v.locate path
  match v.fileAt? place with
  | some octets => .ok octets
  | none => if v.isDirectoryAt place then .error .isADirectory else .error .notFound

def list (v : Volume) (path : Path) : Except IoFault (List Path.Name) := do
  let place ← v.enter (← v.locate path)
  return (v.places.filterMap fun other =>
    if place.isPrefixOf other then other[place.length]? else none).eraseDups

def putFile (v : Volume) (place : List Path.Name) (octets : List UInt8) : Volume :=
  { v with files := v.files.filter (fun entry => entry.1 ≠ place) ++ [(place, octets)] }

/-- A state with a file under the components of a path in the working directory. -/
def withFile (v : Volume) (path : Path) (octets : List UInt8) : Volume :=
  v.putFile (v.workingDirectory ++ path.components) octets

/-- Write a file under a path, whose directory has to be there. A path with a slash at its end
names no file. -/
def write (v : Volume) (path : Path) (content : String) : Except IoFault Volume := do
  checkPath path
  let place ← v.follow (v.start path) (Path.dropSlashes path.pieces)
  if path.pieces.getLast? = some [] ∨ v.isDirectoryAt place then .error .isADirectory
  else return v.putFile place (Encoding.Utf8.encode content)

/-- Make the directory under the pieces of a path, in a directory that is there. -/
def makeDirectory (v : Volume) (start pieces : List Path.Name) : Except IoFault Volume := do
  let place ← v.follow start (Path.dropSlashes pieces)
  if (v.fileAt? place).isSome || v.isDirectoryAt place then .error .alreadyExists
  else return { v with directories := v.directories ++ [place] }

def ensureDirectory (v : Volume) (start pieces : List Path.Name) : Except IoFault Volume :=
  match v.makeDirectory start pieces with
  | .ok made => .ok made
  | .error fault =>
    match v.follow start pieces with
    | .ok place => if v.isDirectoryAt place then .ok v else .error fault
    | .error _ => .error fault

/-- Make a directory unless it is there, where something around it is missing after that. The
components of the path around it are given in reverse. -/
def ensureAround (v : Volume) (start pieces : List Path.Name) :
    List Path.Name → Except IoFault Volume
  | [] => v.ensureDirectory start pieces
  | last :: outer =>
    match v.ensureDirectory start pieces with
    | .error .notFound => do
      let made ← v.ensureAround start (last :: outer).reverse outer
      made.ensureDirectory start pieces
    | result => result

/-- Make the directory under a path and those around it, where they are missing. -/
def makeDirectories (v : Volume) (path : Path) : Except IoFault Volume :=
  if path.octets = [] then .ok v
  else do
    checkPath path
    v.ensureAround (v.start path) path.pieces path.components.reverse.tail

/-- A change of the state that may be refused, and then changes nothing. -/
def attempt (change : Volume → Except IoFault Volume) : StateM Volume (Except IoFault Unit) :=
  fun v =>
    match change v with
    | .ok changed => (.ok (), changed)
    | .error fault => (.error fault, v)

instance : Host (StateM Volume) where
  readFile path := fun v => (v.read path, v)
  isDirectory path := fun v => (v.isDirectory path, v)
  listDirectory path := fun v => (v.list path, v)
  writeFile path content := attempt fun v => v.write path content
  makeDirectories path := attempt fun v => v.makeDirectories path
  getVariable name := fun v => (v.environment.lookup name, v)
  freshId := fun v => (v.identifier v.handedOut, { v with handedOut := v.handedOut + 1 })
  output text := fun v => ((), { v with outputText := v.outputText ++ text })
  report line := fun v => ((), { v with reports := v.reports ++ [line] })

end Volume

end EventRules
