import NamespaceMigration.Text.Basic

/-! Byte ranges of a text, and edits of it. -/
namespace NamespaceMigration

/-- The bytes from `start` up to but not including `stop`. -/
structure TextRange where
  start : Nat
  stop : Nat
deriving DecidableEq

namespace TextRange

def emptyAt (offset : Nat) : TextRange := ⟨offset, offset⟩

def isEmpty (r : TextRange) : Bool := r.stop ≤ r.start

/-- The part of a text in the range. -/
def of (r : TextRange) (t : Text) : Text := Text.slice t r.start r.stop

def shift (r : TextRange) (offset : Nat) : TextRange := ⟨r.start + offset, r.stop + offset⟩

end TextRange

namespace Text

end Text

structure TextEdit where
  range : TextRange
  text : Text
deriving DecidableEq

namespace TextEdit

def insert (offset : Nat) (text : Text) : TextEdit := ⟨.emptyAt offset, text⟩

def delete (range : TextRange) : TextEdit := ⟨range, []⟩

/-- By the start of the range, then by its end. -/
def le (a b : TextEdit) : Bool :=
  a.range.start < b.range.start || (a.range.start == b.range.start && a.range.stop ≤ b.range.stop)

/-- Applies sorted edits to what is left of a text from the offset `cursor` on. An edit that overlaps
the one before it, or ends past the end of the text, is dropped. -/
def applyFrom (size cursor : Nat) (left : Text) : List TextEdit → Text
  | [] => left
  | e :: es =>
    if e.range.start < cursor ∨ size < e.range.stop then applyFrom size cursor left es
    else
      let (before, rest) := Text.splitAtByte (e.range.start - cursor) left
      let after := (Text.splitAtByte (e.range.stop - e.range.start) rest).2
      before ++ e.text ++ applyFrom size e.range.stop after es

/-- Applies edits in any order. Those at one place keep their order. -/
def applyAll (edits : List TextEdit) (t : Text) : Text :=
  applyFrom (Text.byteSize t) 0 t (edits.mergeSort le)

@[simp] theorem applyAll_nil (t : Text) : applyAll [] t = t := by simp [applyAll, applyFrom]

end TextEdit

end NamespaceMigration
