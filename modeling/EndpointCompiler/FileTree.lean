import EndpointCompiler.Text.Percent

/-! Files and directories, as far as texts are read from them and written to them. -/

namespace EndpointCompiler

inductive FileEntry where
  | directory
  | text (content : String)
  deriving Repr, DecidableEq

/-- Entries by the names on the way to them from the root, and the way to the directory in which a
program works. -/
structure FileTree where
  home : List String
  entries : List (List String × FileEntry)
  deriving Repr, DecidableEq

inductive FileError where
  | nulByte
  | nameTooLong
  | missing
  | notDirectory
  | isDirectory
  | alreadyThere
  deriving Repr, DecidableEq

def FileError.message : FileError → String
  | .nulByte => "file name contained an unexpected NUL byte"
  | .nameTooLong => "File name too long (os error 36)"
  | .missing => "No such file or directory (os error 2)"
  | .notDirectory => "Not a directory (os error 20)"
  | .isDirectory => "Is a directory (os error 21)"
  | .alreadyThere => "File exists (os error 17)"

namespace FileTree

def names (path : String) : List String :=
  ((splitAll '/' path.toList).map String.ofList).filter (· ≠ "")

def isAbsolute (path : String) : Bool :=
  path.toList.head? == some '/'

def start (t : FileTree) (path : String) : List String :=
  if isAbsolute path then [] else t.home

/-- What a path is made of: whether it begins at the root, and its names. The name of the same
directory counts only where a path begins with it. -/
def parts (path : String) : Bool × List String :=
  let all := names path
  if isAbsolute path then (true, all.filter (· ≠ "."))
  else (false, all.take 1 ++ (all.drop 1).filter (· ≠ "."))

/-- Whether two paths have the same parts, however many slashes stand between them and after
them. -/
def samePath (a b : String) : Bool :=
  parts a == parts b

def join (dir name : String) : String :=
  if isAbsolute name then name
  else if dir = "" ∨ dir.toList.getLast? = some '/' then dir ++ name
  else dir ++ "/" ++ name

def entry? (t : FileTree) (place : List String) : Option FileEntry :=
  if place = [] then some .directory
  else (t.entries.find? (·.1 == place)).map (·.2)

def put (t : FileTree) (place : List String) (e : FileEntry) : FileTree :=
  { t with entries := t.entries.filter (·.1 != place) ++ [(place, e)] }

/-- The bytes that a name may take, and those that a path may take. -/
def maxNameLength : Nat := 255

def maxPathLength : Nat := 4095

def checkPath (path : String) : Except FileError Unit :=
  if path.toList.contains '\x00' then .error .nulByte
  else if path = "" then .error .missing
  else if maxPathLength < utf8Length path.toList then .error .nameTooLong
  else .ok ()

def checkDirectory (t : FileTree) (place : List String) : Except FileError Unit :=
  match t.entry? place with
  | some .directory => .ok ()
  | some (.text _) => .error .notDirectory
  | none => .error .missing

/-- Follows a name in a directory to a place, at which nothing need be. -/
def step (t : FileTree) (place : List String) (name : String) : Except FileError (List String) := do
  t.checkDirectory place
  if name = "." then return place
  if name = ".." then return place.dropLast
  if maxNameLength < utf8Length name.toList then throw .nameTooLong
  return place ++ [name]

def walk (t : FileTree) (place : List String) (names : List String) :
    Except FileError (List String) :=
  names.foldlM t.step place

def endsInSlash (path : String) : Bool :=
  path.toList.getLast? == some '/'

def locate (t : FileTree) (path : String) : Except FileError (List String) := do
  checkPath path
  let place ← t.walk (t.start path) (names path)
  if endsInSlash path then t.checkDirectory place
  return place

def read (t : FileTree) (path : String) : Except FileError String := do
  match t.entry? (← t.locate path) with
  | some (.text content) => return content
  | some .directory => throw .isDirectory
  | none => throw .missing

def newPlace (t : FileTree) (place : List String) (names : List String) :
    Except FileError (List String) := do
  let dir ← t.walk place names.dropLast
  t.checkDirectory dir
  match names.getLast? with
  | none | some "." | some ".." => throw .alreadyThere
  | some name => t.step dir name

def createDir (t : FileTree) (place : List String) (names : List String) :
    Except FileError FileTree := do
  let place ← t.newPlace place names
  if (t.entry? place).isSome then throw .alreadyThere
  return t.put place .directory

def isDirectory (t : FileTree) (place : List String) (names : List String) : Bool :=
  match t.walk place names with
  | .ok place => t.entry? place == some .directory
  | .error _ => false

def outerNames (names : List String) : List String :=
  (names.filter (· ≠ ".")).dropLast

theorem length_outerNames_lt {names : List String} (h : names ≠ []) :
    (outerNames names).length < names.length := by
  have h₁ := List.length_filter_le (· ≠ ".") names
  have h₂ := List.length_pos_iff.2 h
  rw [outerNames, List.length_dropLast]
  omega

/-- Creates a directory and, where it is to be in one that is missing, that one first. Tells whether
it is there then; directories on the way to it may be created in either case. -/
def createDirs (t : FileTree) (place : List String) (names : List String) : FileTree × Bool :=
  if _ : names = [] then (t, true)
  else
    match t.createDir place names with
    | .ok t => (t, true)
    | .error .alreadyThere => (t, t.isDirectory place names)
    | .error .missing =>
      let (t, made) := t.createDirs place (outerNames names)
      if !made then (t, false)
      else
        match t.createDir place names with
        | .ok t => (t, true)
        | .error _ => (t, t.isDirectory place names)
    | .error _ => (t, false)
termination_by names.length
decreasing_by exact length_outerNames_lt ‹_›

def createDirAll (t : FileTree) (path : String) : FileTree × Bool :=
  if path = "" then (t, true)
  else
    match checkPath path with
    | .ok () => t.createDirs (t.start path) (names path)
    | .error _ => (t, false)

/-- Writes a file into a directory that is there, in place of one of the same name. -/
def write (t : FileTree) (path content : String) : Except FileError FileTree := do
  checkPath path
  if endsInSlash path then throw .isDirectory
  let place ← t.newPlace (t.start path) (names path)
  if t.entry? place = some .directory then throw .isDirectory
  return t.put place (.text content)

def ofHome (home : List String) : FileTree :=
  ((FileTree.mk home []).createDirs [] home).1

def addFile (t : FileTree) (path content : String) : FileTree :=
  let (t, _) := t.createDirs (t.start path) (names path).dropLast
  (t.write path content).toOption.getD t

/-- The files below a directory, with their paths from there, in the order of the paths. -/
def filesBelow (t : FileTree) (dir : String) : List (String × String) :=
  match t.locate dir with
  | .error _ => []
  | .ok top =>
    let below := t.entries.filterMap fun e =>
      match e.2 with
      | .text content =>
        if top.isPrefixOf e.1 ∧ top ≠ e.1 then
          some ((e.1.drop top.length).foldl join dir, content)
        else none
      | .directory => none
    below.mergeSort fun a b => a.1 ≤ b.1

/-- The ending of a file's name: what follows the last dot in it, if something precedes the dot. -/
def extension? (path : String) : Option String :=
  match ((names path).filter (· ≠ ".")).getLast? with
  | none | some ".." => none
  | some name =>
    match (splitAll '.' name.toList).reverse with
    | [] | [_] | [_, []] => none
    | ending :: _ => some (String.ofList ending)

end FileTree

end EndpointCompiler
