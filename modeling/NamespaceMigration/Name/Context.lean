import NamespaceMigration.Name.Qualified

/-! What names mean inside one namespace scope: its definitions, the short names seen in it, and
its imports. The same tables choose new aliases that change the meaning of no other name. -/
namespace NamespaceMigration

/-- An import: the alias as written and what it stands for. -/
structure AliasEntry where
  «alias» : Text
  target : QualifiedName
deriving DecidableEq

/-- What a written name means. -/
inductive Resolution where
  | resolved (name : QualifiedName)
  /-- An unqualified function or constant inside a namespace: at run time the namespaced name is
  tried first, then the global one. -/
  | fallback (namespaced global : QualifiedName)
deriving DecidableEq

/-- The imports of a scope in table order. -/
abbrev AliasTable := PerKind (List AliasEntry)

/-- The imports that only the later, or only the earlier, of two tables has. -/
structure AliasDiff where
  added : AliasTable
  removed : AliasTable
deriving DecidableEq

structure NameContext where
  space? : Option Text
  definitions : PerKind (List Text)
  /-- Keys of the short names that are written in the scope. -/
  references : PerKind (List Text)
  aliases : AliasTable
deriving DecidableEq

namespace Resolution

/-- The name, if it is known without running the code. -/
def name? : Resolution → Option QualifiedName
  | resolved name => some name
  | fallback .. => none

end Resolution

namespace AliasEntry

/-- The same alias for the same symbol. -/
def same (kind : SymbolKind) (a b : AliasEntry) : Bool :=
  aliasKey kind a.alias == aliasKey kind b.alias && a.target.key kind == b.target.key kind

end AliasEntry

namespace AliasDiff

def isEmpty (d : AliasDiff) : Bool :=
  SymbolKind.all.all fun kind => (d.added.get kind).isEmpty && (d.removed.get kind).isEmpty

/-- An alias with a new target is both removed and added. -/
def between (before after : AliasTable) : AliasDiff :=
  let missing (kind : SymbolKind) (xs ys : List AliasEntry) :=
    xs.filter fun x => !ys.any fun y => y.same kind x
  ⟨.ofFn fun kind => missing kind (after.get kind) (before.get kind),
    .ofFn fun kind => missing kind (before.get kind) (after.get kind)⟩

end AliasDiff

namespace NameContext

/-- The context of an empty scope. The global namespace is absent or empty. -/
def empty (space? : Option Text) : NameContext :=
  ⟨space?.filter (!·.isEmpty), .const [], .const [], .const []⟩

def addDefinition (c : NameContext) (name : Text) (kind : SymbolKind) : NameContext :=
  { c with definitions := c.definitions.modify kind (· ++ [name]) }

def defines (c : NameContext) (name : Text) (kind : SymbolKind) : Bool :=
  (c.definitions.get kind).any (aliasKey kind · == aliasKey kind name)

/-- Records that the short name is written in the scope. -/
def addReference (c : NameContext) (short : Text) (kind : SymbolKind) : NameContext :=
  { c with references := c.references.modify kind (· ++ [aliasKey kind short]) }

def refers (c : NameContext) (short : Text) (kind : SymbolKind) : Bool :=
  (c.references.get kind).contains (aliasKey kind short)

def findAlias? (c : NameContext) (short : Text) (kind : SymbolKind) : Option AliasEntry :=
  (c.aliases.get kind).find? (aliasKey kind ·.alias == aliasKey kind short)

def hasAlias (c : NameContext) (short : Text) (kind : SymbolKind) : Bool :=
  (c.findAlias? short kind).isSome

/-- Binds an alias, unless it is taken. -/
def addAlias? (c : NameContext) (target : QualifiedName) (short : Text) (kind : SymbolKind) :
    Option NameContext :=
  if c.hasAlias short kind then none
  else some { c with aliases := c.aliases.modify kind (· ++ [⟨short, target⟩]) }

def removeAlias (c : NameContext) (short : Text) (kind : SymbolKind) : NameContext :=
  let keep (entry : AliasEntry) := aliasKey kind entry.alias != aliasKey kind short
  { c with aliases := c.aliases.modify kind (·.filter keep) }

/-- Gives an alias a new target. Its spelling and place stay. -/
def retarget (c : NameContext) (short : Text) (kind : SymbolKind) (target : QualifiedName) :
    NameContext :=
  let point (entry : AliasEntry) :=
    if aliasKey kind entry.alias == aliasKey kind short then { entry with target } else entry
  { c with aliases := c.aliases.modify kind (·.map point) }

/-- What a name means as it is written in the scope. First comes a leading backslash, then
`namespace\`, then an import, then the namespace of the scope; unqualified functions and constants
that the scope does not define may still be global. -/
def resolve (c : NameContext) (written : Text) (kind : SymbolKind) : Resolution :=
  match written with
  | '\\' :: name => .resolved (.ofText name)
  | _ =>
    match Text.splitAtFirst? '\\' written with
    | some (first, rest) =>
      if Text.eqIgnoreCase first "namespace" then .resolved (.join c.space? rest)
      else match c.findAlias? first .type with
        | some entry => .resolved (.join (some entry.target.text) rest)
        | none => .resolved (.join c.space? written)
    | none =>
      match c.findAlias? written kind with
      | some entry => .resolved entry.target
      | none =>
        let here := QualifiedName.join c.space? written
        if kind = .type ∨ c.space? = none ∨ c.defines written kind then .resolved here
        else .fallback here (.ofText written)

/-- A short name that already means `name` in the scope: that of a definition of the scope, or an
alias. -/
def aliasFor? (c : NameContext) (name : QualifiedName) (kind : SymbolKind) : Option Text :=
  if sameSpace c.space? name.space? && c.defines name.short kind then some name.short
  else ((c.aliases.get kind).find? (·.target.key kind == name.key kind)).map (·.alias)

/-- Nothing in the scope goes by this alias. -/
def isFree (c : NameContext) (short : Text) (kind : SymbolKind) : Bool :=
  !c.hasAlias short kind && !c.defines short kind && !c.refers short kind

def takenCount (c : NameContext) (kind : SymbolKind) : Nat :=
  (c.aliases.get kind).length + (c.definitions.get kind).length + (c.references.get kind).length

/-- The first free one of `stem` with the numbers from `counter` on, at most `tries` of them. -/
def firstFree (c : NameContext) (kind : SymbolKind) (stem : Text) : (tries counter : Nat) → Text
  | 0, counter => stem ++ Text.ofNat counter
  | tries + 1, counter =>
    let candidate := stem ++ Text.ofNat counter
    if c.isFree candidate kind then candidate else c.firstFree kind stem tries (counter + 1)

/-- A free alias for a name: its short name; for a type the last two segments together; else the
short name with a number. Each taken name excludes one number, so the count of them bounds the
search. -/
def allocateAlias (c : NameContext) (name : QualifiedName) (kind : SymbolKind) : Text :=
  let short := name.short
  let pair := (name.segments.drop (name.segments.length - 2)).flatten
  if c.isFree short kind then short
  else if kind = .type ∧ 2 ≤ name.segments.length ∧ c.isFree pair kind then pair
  else c.firstFree kind short (c.takenCount kind) 1

end NameContext
end NamespaceMigration
