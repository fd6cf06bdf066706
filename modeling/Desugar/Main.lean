import Desugar.Command.Run

/-! The command line. The working directory and what the arguments lead to are read into a
tree, the command runs on the tree, and the files that it changed are written back. -/
namespace Desugar.Command

/-! ### Reading files -/

def pathOf (place : Place) : String := "/" ++ String.ofList (['/'].intercalate place)

def entryAt (place : Place) : IO.FS.DirEntry :=
  ⟨pathOf place.dropLast, String.ofList (place.getLastD [])⟩

/-- A directory entry, if `deep` with all that is below it. Links are not followed. -/
partial def readEntry (deep : Bool) (above : Place) (entry : IO.FS.DirEntry) :
    IO (List (Place × Entry)) := do
  let place := above ++ [entry.fileName.toList]
  match (← entry.path.symlinkMetadata).type with
  | .dir =>
    let below ← if deep then (← entry.path.readDir).toList.mapM (readEntry true place) else pure []
    pure ((place, .directory) :: below.flatten)
  | .file =>
    let bytes ← IO.FS.readBinFile entry.path
    pure [(place, .file (match String.fromUTF8? bytes with
      | some s => .text s.toList
      | none => .binary bytes.toList))]
  | _ => pure []

/-- What is at a place, if anything. -/
def readPlace (place : Place) : IO (List (Place × Entry)) :=
  if place.isEmpty then pure []
  else try readEntry false place.dropLast (entryAt place) catch _ => pure []

/-- What is in the directory at a place, if there is one. -/
def readBelow (deep : Bool) (place : Place) : IO (List (Place × Entry)) :=
  try
    let entries ← (entryAt place).path.readDir
    pure (← entries.toList.mapM (readEntry deep place)).flatten
  catch _ => pure []

/-- The places that a path leads through, the last one first. -/
def placesOn (home : Place) (path : Text) : List Place :=
  let start := if Path.isAbsolute path then [] else home
  ((Tree.names path).filter Tree.leads).foldl (fun places n =>
    let here := places.headD start
    (if n == ['.', '.'] then here.dropLast else here ++ [n]) :: places) [start]

/-- What a path leads through, what is beside its end, and all that is below. -/
def readPath (home : Place) (path : Text) : IO (List (Place × Entry)) := do
  let places := placesOn home path
  let last := places.headD home
  let way ← places.mapM readPlace
  pure (way.flatten ++ (← readBelow false last.dropLast) ++ (← readBelow true last))

def paths : Command → List Text
  | .build roots outDir => roots ++ outDir.toList
  | .check roots => roots
  | .deps file _ | .emit file _ => [file]

def readTree (g : Globals) (command : Command) : IO Tree := do
  let home := (Tree.names (← IO.currentDir).toString.toList).filter Tree.leads
  let entries ← ((".".toList :: g.config.toList) ++ command.paths).mapM (readPath home)
  pure (entries.flatten.foldl (fun tree e => tree.put e.1 e.2) ⟨[], home⟩)

def readEnvironment : IO Environment := do
  let names := ["BRITESCRIPT_ENV", "NODE_ENV", "BRITESCRIPT_VERBOSE", "BRITESCRIPT_SOURCE_MAPS",
    "BRITESCRIPT_TARGET"]
  let values ← names.mapM fun name => do pure (name, (← IO.getEnv name).map String.toList)
  pure (.ofVariables fun name => (values.lookup name).join)

/-! ### Writing files -/

/-- Puts entries that are new or different where they belong. -/
def writeChanges (before after : Tree) : IO Unit :=
  after.entries.forM fun e => do
    if before.find? e.1 ≠ some e.2 then
      match e.2 with
      | .directory => IO.FS.createDirAll (pathOf e.1)
      | .file (.text t) => do
        IO.FS.createDirAll (pathOf e.1.dropLast)
        IO.FS.writeFile (pathOf e.1) (String.ofList t)
      | .file (.binary _) => pure ()

def usageText : String :=
  "Usage: britescript [-v] [--config FILE] [--no-source-maps] [--target TARGET] COMMAND\n\n" ++
  "  build INPUT... [--out-dir DIR]\n  check INPUT...\n  deps FILE [--json]\n  emit FILE [--json]\n"

end Desugar.Command

def main (args : List String) : IO UInt32 := do
  match Desugar.Command.parse (args.map String.toList) with
  | .error .help => IO.print Desugar.Command.usageText; pure 0
  | .error .version => IO.println "britescript"; pure 0
  | .error _ => IO.eprint Desugar.Command.usageText; pure 2
  | .ok (globals, command) =>
    let tree ← Desugar.Command.readTree globals command
    let result := Desugar.Command.run tree (← Desugar.Command.readEnvironment) globals command
    IO.print (String.ofList result.stdout)
    IO.eprint (String.ofList result.stderr)
    Desugar.Command.writeChanges tree result.tree
    match result.failure with
    | none => pure 0
    | some failure => IO.eprintln failure.message; pure 1
