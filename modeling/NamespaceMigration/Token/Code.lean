import NamespaceMigration.Text.Range
import NamespaceMigration.Token.Basic
import NamespaceMigration.Token.Bracket

/-! The code of a source file: its tokens without trivia, by position, with their brackets matched.
Everything past the last position reads as absent. -/
namespace NamespaceMigration

structure Code where
  /-- All tokens, trivia included. -/
  tokens : Array Token
  /-- The tokens that are not trivia, each with its index among all tokens. -/
  items : Array (Nat × Token)
  matching : BracketMatching
  /-- The size of the text in bytes. -/
  byteSize : Nat

namespace Code

def ofTokens (tokens : List Token) (byteSize : Nat) : Code :=
  let indexed := tokens.zipIdx.map fun (token, index) => (index, token)
  let items := indexed.filter fun item => !item.2.kind.isTrivia
  { tokens := tokens.toArray
    items := items.toArray
    matching := .ofKinds (items.map (·.2.kind))
    byteSize }

variable (c : Code)

def size : Nat := c.items.size

def atEnd (p : Nat) : Bool := c.size ≤ p

def kind? (p : Nat) : Option TokenKind := c.items[p]?.map (·.2.kind)

def text (p : Nat) : Text := (c.items[p]?.map (·.2.text)).getD []

/-- The bytes of the token at a position; past the end, the end of the text. -/
def range (p : Nat) : TextRange :=
  match c.items[p]? with
  | some (_, token) => ⟨token.offset, token.stop⟩
  | none => .emptyAt c.byteSize

/-- The index of the token at a position among all tokens; past the end, their number. -/
def tokenIndex (p : Nat) : Nat := (c.items[p]?.map (·.1)).getD c.tokens.size

def isAt (kind : TokenKind) (p : Nat) : Bool := c.kind? p == some kind

def isAtAny (kinds : List TokenKind) (p : Nat) : Bool := (c.kind? p).any kinds.contains

/-- The position after the bracket group that opens at `p`. Without a closing bracket it is the end
of the code. -/
def groupEnd (p : Nat) : Nat :=
  match c.matching.closer? p with
  | some close => close + 1
  | none => c.size

/-- The position after a token of the kind, if there is one at `p`. -/
def skip (kind : TokenKind) (p : Nat) : Nat := if c.isAt kind p then p + 1 else p

/-- The index of the comment that documents the token at an index: only blanks and other comments
stand between the two. -/
def leadingDoc? : (index : Nat) → Option Nat
  | 0 => none
  | index + 1 =>
    match c.tokens[index]?.map Token.kind with
    | some .docComment => some index
    | some .whitespace | some .lineComment | some .blockComment => leadingDoc? index
    | _ => none

end Code
end NamespaceMigration
