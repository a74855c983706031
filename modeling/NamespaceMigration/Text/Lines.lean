import NamespaceMigration.Text.Basic

/-! Lines and columns of a text. Lines count from one and end at line feeds; columns count bytes
from zero. -/
namespace NamespaceMigration

/-- A place in a text. Positions are ordered by line, then by column. -/
structure Position where
  line : Nat
  column : Nat
deriving DecidableEq

/-- Two positions and all that lies between them. -/
structure Span where
  start : Position
  stop : Position
deriving DecidableEq

namespace Position

instance : LE Position := ⟨fun p q => p.line < q.line ∨ (p.line = q.line ∧ p.column ≤ q.column)⟩

instance (p q : Position) : Decidable (p ≤ q) :=
  inferInstanceAs (Decidable (p.line < q.line ∨ (p.line = q.line ∧ p.column ≤ q.column)))

instance : LT Position := ⟨fun p q => p.line < q.line ∨ (p.line = q.line ∧ p.column < q.column)⟩

end Position

namespace Span

/-- Both ends belong to the span. -/
def contains (s : Span) (p : Position) : Bool := s.start ≤ p ∧ p ≤ s.stop

end Span

def offsetBits : Nat := 32

/-- An offset in its bits. It goes round in a text that is too large. -/
def keptOffset (n : Nat) : Nat := n % Nat.pow 2 offsetBits

/-- The offsets at which the lines of a text start. -/
structure LineIndex where
  starts : List Nat
deriving DecidableEq

namespace LineIndex

/-- The offset after each line feed, for a text that begins at `offset`. -/
def startsAfter (offset : Nat) : Text → List Nat
  | [] => []
  | c :: t =>
    let next := offset + c.utf8Size
    if c = '\n' then next :: startsAfter next t else startsAfter next t

def ofText (t : Text) : LineIndex := ⟨0 :: (startsAfter 0 t).map keptOffset⟩

/-- The index of a text that can be parsed. There is none of those for which an offset goes round. -/
def ofSource (t : Text) : LineIndex := ⟨0 :: startsAfter 0 t⟩

/-- Looks for a number in an ascending list, of which `before` entries are known to be smaller and `left` is
left, by halving that at most `fuel` times. The index of the entry is found, or the one where it belongs is
an error. -/
def searchFrom (n : Nat) : (fuel before : Nat) → (left : List Nat) → Except Nat Nat
  | 0, before, _ => .error before
  | fuel + 1, before, left =>
    let half := left.length / 2
    match left.drop half with
    | [] => .error before
    | middle :: after =>
      if middle = n then .ok (before + half)
      else if middle < n then searchFrom n fuel (before + half + 1) after
      else searchFrom n fuel before (left.take half)

def search (i : LineIndex) (offset : Nat) : Except Nat Nat := searchFrom offset i.starts.length 0 i.starts

/-- The line that holds an offset. Offsets past the end lie on the last line. -/
def line (i : LineIndex) (offset : Nat) : Nat :=
  match i.search offset with
  | .ok found => found + 1
  | .error next => next

def position (i : LineIndex) (offset : Nat) : Position :=
  let line := i.line offset
  ⟨line, offset - i.starts[line - 1]?.getD 0⟩

def lineCount (i : LineIndex) : Nat := i.starts.length

end LineIndex
end NamespaceMigration
