import NamespaceMigration.Text.Basic

/-! The three kinds of symbols. Each has names of its own: a class and a function of one name never
meet. -/
namespace NamespaceMigration

inductive SymbolKind where
  /-- Classes, interfaces, traits and enums, and the first parts of qualified names. -/
  | type
  | function
  | constant
deriving DecidableEq

namespace SymbolKind

def all : List SymbolKind := [.type, .function, .constant]

def name : SymbolKind → Text
  | type => "type"
  | function => "function"
  | constant => "constant"

/-- The word after `use` that imports this kind. -/
def useKeyword? : SymbolKind → Option Text
  | type => none
  | function => some "function"
  | constant => some "const"

/-- The short name of a constant is compared exactly, all other names without regard to case. -/
def isCaseSensitive : SymbolKind → Bool
  | constant => true
  | _ => false

end SymbolKind

/-- One value for each kind of symbol. -/
structure PerKind (α : Type) where
  type : α
  function : α
  constant : α
deriving DecidableEq

namespace PerKind

variable {α β : Type}

/-- The same value for each kind. -/
def const (a : α) : PerKind α := ⟨a, a, a⟩

def get (p : PerKind α) : SymbolKind → α
  | .type => p.type
  | .function => p.function
  | .constant => p.constant

def modify (p : PerKind α) (kind : SymbolKind) (f : α → α) : PerKind α :=
  match kind with
  | .type => { p with type := f p.type }
  | .function => { p with function := f p.function }
  | .constant => { p with constant := f p.constant }

def ofFn (f : SymbolKind → α) : PerKind α := ⟨f .type, f .function, f .constant⟩

@[simp] theorem get_const (a : α) (kind : SymbolKind) : (const a).get kind = a := by
  cases kind <;> rfl

@[simp] theorem get_ofFn (f : SymbolKind → α) (kind : SymbolKind) : (ofFn f).get kind = f kind := by
  cases kind <;> rfl

theorem get_modify (p : PerKind α) (kind kind' : SymbolKind) (f : α → α) :
    (p.modify kind f).get kind' = if kind = kind' then f (p.get kind') else p.get kind' := by
  cases kind <;> cases kind' <;> rfl

end PerKind
end NamespaceMigration
