import Desugar.Path

/-! A tree of files. A place is the list of names that lead to it from the root; files and
empty directories are listed by place, in the order in which a walk meets them. Directories
on the way to something need no entry. A path that starts with a slash leads from the root,
any other from the working directory. There are no links: a place is reached by its own
names only, and nothing is at two places. -/
namespace Desugar

/-- Why a file cannot be used. -/
inductive FileFault where
  | notFound
  | isDirectory
  | notADirectory
  | invalidData
  | alreadyExists
  | invalidInput
deriving DecidableEq, Repr

/-- Text, or bytes that are not text. -/
inductive Content where
  | text (t : Text)
  | binary (bytes : List UInt8)
deriving DecidableEq, Repr

inductive Entry where
  | directory
  | file (content : Content)
deriving DecidableEq, Repr

abbrev Place := List Text

namespace Place

/-- Names in the order of their characters. -/
def nameBefore : Text → Text → Bool
  | _, [] => false
  | [], _ :: _ => true
  | a :: as, b :: bs => a.toNat < b.toNat || (a == b && nameBefore as bs)

/-- Places in the order of a walk: by the first name that differs. -/
def before : Place → Place → Bool
  | _, [] => false
  | [], _ :: _ => true
  | a :: as, b :: bs => nameBefore a b || (a == b && before as bs)

end Place

/-- Entries, and the place of the working directory. -/
structure Tree where
  entries : List (Place × Entry)
  home : Place
deriving DecidableEq, Repr

namespace Tree

/-- What is at a place. The working directory and all that it lies in are there. -/
def find? (tree : Tree) (place : Place) : Option Entry :=
  match tree.entries.find? (·.1 == place) with
  | some e => some e.2
  | none =>
    if place.isPrefixOf tree.home || tree.entries.any (place.isPrefixOf ·.1) then some .directory
    else none

def insert (place : Place) (entry : Entry) : List (Place × Entry) → List (Place × Entry)
  | [] => [(place, entry)]
  | e :: es =>
    if place == e.1 then (place, entry) :: es
    else if Place.before place e.1 then (place, entry) :: e :: es
    else e :: insert place entry es

def put (tree : Tree) (place : Place) (entry : Entry) : Tree :=
  { tree with entries := insert place entry tree.entries }

/-- The files below a place, by their names from there on. -/
def filesBelow (tree : Tree) (place : Place) : List Place :=
  tree.entries.filterMap fun e =>
    match e.2 with
    | .directory => none
    | .file _ => if place.isPrefixOf e.1 then some (e.1.drop place.length) else none

/-! ### Paths -/

/-- The names in a path; an empty name stands where slashes meet or end it. -/
def names : Text → List Text
  | [] => [[]]
  | c :: cs =>
    if c = '/' then [] :: names cs
    else match names cs with
      | [] => [[c]]
      | n :: ns => (c :: n) :: ns

/-- Names that lead to another place. -/
def leads (n : Text) : Bool := !n.isEmpty && n != ['.']

/-- The names that a path leads along from the root. -/
def route (tree : Tree) (path : Text) : List Text :=
  if Path.isAbsolute path then names path else tree.home ++ names path

/-- The place that names lead to from a directory. Only a directory leads on, and the root
is the directory above itself. -/
def follow (tree : Tree) : Place → List Text → Except FileFault Place
  | here, [] => .ok here
  | here, n :: ns =>
    match tree.find? here with
    | none => .error .notFound
    | some (.file _) => .error .notADirectory
    | some .directory =>
      if !leads n then follow tree here ns
      else if n == ['.', '.'] then follow tree here.dropLast ns
      else follow tree (here ++ [n]) ns

def resolve (tree : Tree) (path : Text) : Except FileFault Place :=
  if path.contains '\x00' then .error .invalidInput
  else if path.isEmpty then .error .notFound
  else tree.follow [] (tree.route path)

def lookup (tree : Tree) (path : Text) : Except FileFault (Place × Entry) := do
  let place ← tree.resolve path
  match tree.find? place with
  | some entry => pure (place, entry)
  | none => .error .notFound

def isFile (tree : Tree) (path : Text) : Bool :=
  match tree.lookup path with
  | .ok (_, .file _) => true
  | _ => false

def readText (tree : Tree) (path : Text) : Except FileFault Text := do
  match ← tree.lookup path with
  | (_, .directory) => .error .isDirectory
  | (_, .file (.binary _)) => .error .invalidData
  | (_, .file (.text t)) => pure t

/-- Makes the directories that names lead through. Those made before a fault stay. Once
one had to be made they are made one by one, so a file in the way is found as something
that exists already. -/
def makeDirectories (tree : Tree) (made : Bool) : Place → List Text → Tree × Option FileFault
  | _, [] => (tree, none)
  | here, n :: ns =>
    if n == ['.', '.'] then makeDirectories tree made here.dropLast ns
    else
      match tree.find? (here ++ [n]) with
      | some .directory => makeDirectories tree made (here ++ [n]) ns
      | some (.file _) =>
        (tree, some (if made || ns.isEmpty then .alreadyExists else .notADirectory))
      | none => makeDirectories (tree.put (here ++ [n]) .directory) true (here ++ [n]) ns

/-- Makes the directory that a path lies in. -/
def makeParent (tree : Tree) (path : Text) : Tree × Option FileFault :=
  let above := ((tree.route path).filter leads).dropLast
  if above.any (·.contains '\x00') then (tree, some .invalidInput)
  else tree.makeDirectories false [] above

def writeText (tree : Tree) (path text : Text) : Except FileFault Tree := do
  let place ← tree.resolve path
  match tree.find? place with
  | some .directory => .error .isDirectory
  | _ => pure (tree.put place (.file (.text text)))

end Tree

end Desugar
