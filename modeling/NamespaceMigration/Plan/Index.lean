import NamespaceMigration.Plan.Basic

/-! The index of a project: from old names to new ones and back. Of several entries for a name the
first one counts. -/
namespace NamespaceMigration

/-- The names of a component, and the positions of its file and its decision. -/
structure IndexEntry where
  kind : SymbolKind
  old : QualifiedName
  new : QualifiedName
  file : Nat
  decision : Nat
deriving DecidableEq

/-- The entries in reading order. -/
structure RenameIndex where
  entries : List IndexEntry
deriving DecidableEq

namespace IndexEntry

/-- Whether the new name is spelled in another way. -/
def changes (e : IndexEntry) : Bool := e.old != e.new

end IndexEntry

namespace RenameIndex

def empty : RenameIndex := ⟨[]⟩

def ofFiles (files : List FilePlan) : RenameIndex where
  entries :=
    files.zipIdx.flatMap fun (file, i) =>
      file.decisions.zipIdx.flatMap fun (decision, j) =>
        decision.components.map fun c => ⟨c.symbolKind, c.old, c.new, i, j⟩

variable (x : RenameIndex)

/-- The entry of an old name. -/
def find? (kind : SymbolKind) (name : Text) : Option IndexEntry :=
  let key := lookupKey kind name
  x.entries.find? fun e => e.kind == kind && e.old.key kind == key

/-- The entry of a new name. -/
def findNew? (kind : SymbolKind) (name : Text) : Option IndexEntry :=
  let key := lookupKey kind name
  x.entries.find? fun e => e.kind == kind && e.new.key kind == key

/-- Both indexes together. Entries of the first one count before those of the second. -/
def merge (x y : RenameIndex) : RenameIndex := ⟨x.entries ++ y.entries⟩

def size : Nat := (x.entries.map fun e => (e.kind, e.old.key e.kind)).eraseDups.length

def isEmpty : Bool := x.entries.isEmpty

end RenameIndex

end NamespaceMigration
