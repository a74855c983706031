import NamespaceMigration.Command.Run

/-! The program. It takes a picture of the files that a command looks at, carries the command out on
the picture, and then makes the changes of the picture on the real disk. -/
namespace NamespaceMigration
namespace Picture

/-- The place that a path leads to from another one, if there were no links. -/
def placeFrom (home : Place) (path : Text) : Place :=
  (PathPart.ofPath path).foldl (fun place part =>
    match part with
    | .root => []
    | .here => place
    | .up => place.dropLast
    | .named name => place ++ [name]) home

def ofString (path : String) : Place := placeFrom [] path.toList

def toString (place : Place) : String := String.ofList (Disk.pathOf place)

def add (d : Disk) (place : Place) (e : DiskEntry) : Disk :=
  if (d.entry? place).isSome then d else { d with entries := d.entries ++ [(place, e)] }

def addAbove (d : Disk) (place : Place) : Disk :=
  (List.range place.length).foldl (fun d n => add d (place.take n) .directory) d

/-- Adds what is at a place of the real disk, and everything below it. -/
partial def addTree (d : Disk) (place : Place) : IO Disk := do
  if !place.isEmpty ∧ (d.entry? place).isSome then return d
  let path ← IO.FS.realPath (toString place)
  if (← path.symlinkMetadata).type != .dir then
    let content ← IO.FS.readBinFile path
    return add (addAbove d place) place (.file content.toList)
  let mut d := add (addAbove d place) place .directory
  for entry in ← path.readDir do
    let inside := place ++ [entry.fileName.toList]
    if (← entry.path.symlinkMetadata).type == .symlink then
      let target? ← (some <$> IO.FS.realPath entry.path) <|> pure none
      match target? with
      | some target =>
        d := add d inside (.link target.toString.toList)
        d ← addTree d (ofString target.toString)
      | none => d := add d inside (.link [])
    else d ← addTree d inside
  return d

/-- Adds what a path leads to; if nothing is there, the directories that are. -/
partial def addPath (d : Disk) (path : Text) : IO Disk := do
  let place := placeFrom d.home path
  let real? ← (some <$> IO.FS.realPath (String.ofList path)) <|> pure none
  match real? with
  | some real =>
    let goal := ofString real.toString
    let d ← addTree d goal
    if goal = place then return d
    return add (addAbove d place) place (.link (Disk.pathOf goal))
  | none =>
    match Path.parent? path with
    | none | some [] => return addAbove d (d.home ++ [[]])
    | some parent =>
      let real? ← (some <$> IO.FS.realPath (String.ofList parent)) <|> pure none
      match real? with
      | some real =>
        let goal := ofString real.toString
        let d := addAbove d (goal ++ [[]])
        let above := placeFrom d.home parent
        if goal = above then return d
        return add (addAbove d above) above (.link (Disk.pathOf goal))
      | none => addPath d parent

/-- The picture of everything that a command looks at. -/
def ofCommand (c : Command) (key : Bytes) : IO Disk := do
  let home := ofString (← IO.currentDir).toString
  let d ← c.paths.foldlM addPath (addAbove ⟨home, []⟩ (home ++ [[]]))
  (c.sourceRoots key d).foldlM addPath d

/-- Makes one entry of a picture real. A file gets its content beside it first. -/
def develop (place : Place) (e : DiskEntry) : IO Unit := do
  match e with
  | .directory => IO.FS.createDirAll (toString place)
  | .link _ => return
  | .file content =>
    let temporary := String.ofList (temporaryPath (Disk.pathOf place))
    IO.FS.writeBinFile temporary ⟨content.toArray⟩
    IO.FS.rename temporary (toString place)

/-- Makes the changes between two pictures real. -/
def developChanges (before after : Disk) : IO Unit := do
  for (place, e) in after.entries do
    if before.entries.lookup place != some e then develop place e
  for (place, _) in before.entries do
    if (after.entries.lookup place).isNone then IO.FS.removeFile (toString place)

end Picture

/-- Says what a command has to say. -/
def Outcome.finish (o : Outcome) : IO UInt32 := do
  (← IO.getStdout).putStr (String.ofList o.out)
  (← IO.getStderr).putStr (String.ofList o.err)
  return UInt32.ofNat o.code

end NamespaceMigration

open NamespaceMigration in
def main (arguments : List String) : IO UInt32 := do
  let words := arguments.map String.toList
  let key := ((← IO.getEnv "PSR4_MIGRATE_KEY").map fun key => Text.toUtf8 key.toList).getD defaultKey
  match Command.ofArguments words with
  | .error e => e.outcome.finish
  | .ok c =>
    let before ← Picture.ofCommand c key
    let (outcome, after) := c.run key before
    Picture.developChanges before after
    outcome.finish
