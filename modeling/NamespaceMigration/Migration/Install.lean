import NamespaceMigration.Migration.Error

/-! Installing a file: its new content is written beside it and then moved over it, so that nobody
ever reads half of it. -/
namespace NamespaceMigration

/-- The path beside a file where its new content is written first. -/
def temporaryPath (path : Text) : Text :=
  Path.withName path ('.' :: (Path.name? path).getD [] ++ ".tmp")

/-- Moves the new content over the file. It is removed if that fails. -/
def moveIntoPlace (temporary path : Text) : DiskTask Unit := do
  let d ← get
  match d.move temporary path with
  | .ok moved => set moved
  | .error e =>
    set ((d.remove temporary).toOption.getD d)
    throw (.io path e)

/-- Gives a file new content, in directories that may be missing. -/
def installFile (path content : Text) : DiskTask Unit := do
  let parent := (Path.parent? path).getD []
  DiskTask.change parent (·.makeDirectories parent)
  let temporary := temporaryPath path
  DiskTask.change temporary (·.write temporary (Text.toUtf8 content))
  moveIntoPlace temporary path

end NamespaceMigration
