import NamespaceMigration.Token.Basic

/-! Bracket matching. A closing bracket closes the innermost open bracket of its shape; whatever was
opened after that one and is still open stays unclosed. -/
namespace NamespaceMigration

/-- What is wrong at a position of a token sequence. -/
inductive BracketFault where
  /-- Not a token of the language. -/
  | invalid (position : Nat)
  /-- An opening bracket that an outer pair ends. -/
  | unclosed (position : Nat)
  /-- An opening bracket that is open at the end. -/
  | neverClosed (position : Nat)
  /-- A closing bracket with nothing to close. -/
  | unexpected (position : Nat)
deriving DecidableEq

/-- The pairs of positions that belong together, and the faults in the order they are found. -/
structure BracketMatching where
  pairs : List (Nat × Nat)
  faults : List BracketFault
deriving DecidableEq

namespace BracketMatching

/-- The open brackets, innermost first, with their positions. -/
abbrev Stack := List (Nat × TokenKind)

def closes (opener closer : TokenKind) : Bool := opener.closer? == some closer

/-- Matches the kinds from a position on. -/
def ofKindsFrom (position : Nat) (stack : Stack) : List TokenKind → BracketMatching
  | [] => ⟨[], stack.reverse.map fun opened => .neverClosed opened.1⟩
  | kind :: kinds =>
    if kind = .error then
      let rest := ofKindsFrom (position + 1) stack kinds
      ⟨rest.pairs, .invalid position :: rest.faults⟩
    else if kind.isOpeningBracket then ofKindsFrom (position + 1) ((position, kind) :: stack) kinds
    else if kind.isClosingBracket then
      let inner := stack.takeWhile fun opened => !closes opened.2 kind
      match stack.drop inner.length with
      | [] =>
        let rest := ofKindsFrom (position + 1) stack kinds
        ⟨rest.pairs, .unexpected position :: rest.faults⟩
      | opened :: outer =>
        let rest := ofKindsFrom (position + 1) outer kinds
        ⟨(opened.1, position) :: rest.pairs,
          (inner.reverse.map fun opened => .unclosed opened.1) ++ rest.faults⟩
    else ofKindsFrom (position + 1) stack kinds

def ofKinds (kinds : List TokenKind) : BracketMatching := ofKindsFrom 0 [] kinds

/-- The position of the bracket that closes the one at a position. -/
def closer? (m : BracketMatching) (position : Nat) : Option Nat := m.pairs.lookup position

end BracketMatching
end NamespaceMigration
