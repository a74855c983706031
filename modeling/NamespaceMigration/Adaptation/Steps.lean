import NamespaceMigration.Adaptation.Imported
import NamespaceMigration.Adaptation.Renamed

/-! The steps of moving code, as functions on texts. Each reads the text anew. -/
namespace NamespaceMigration

/-- A text after its names have been changed. -/
structure Adaptation where
  text : Text
  /-- How many names have been changed. -/
  count : Nat
  review : List ReviewItem
deriving DecidableEq

namespace Adaptation

/-- Writes the names of a text in full. -/
def qualify (t : Text) : Text := TextEdit.applyAll (SourceFile.parse t).qualifyEdits t

def reimport (t : Text) : Text := TextEdit.applyAll (SourceFile.parse t).importEdits t

/-- Gives the names in full of a text their new names. -/
def rename (x : RenameIndex) (t : Text) : Adaptation :=
  let r := (SourceFile.parse t).renames x
  ⟨TextEdit.applyAll r.edits t, r.count, r.review⟩

/-- Writes the names of a text in full and gives them their new names. -/
def renameAll (x : RenameIndex) (t : Text) : Adaptation := rename x (qualify t)

/-- All steps. -/
def ofText (x : RenameIndex) (t : Text) : Adaptation :=
  let r := renameAll x t
  { r with text := reimport r.text }

end Adaptation
end NamespaceMigration
