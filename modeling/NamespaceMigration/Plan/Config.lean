import NamespaceMigration.Name.Identifier
import NamespaceMigration.Path.Basic

/-! What a migration is asked to do: the prefix of the new namespaces, the treatment of underscores,
what keeps its name, and where shared code goes. -/
namespace NamespaceMigration

/-- A configuration that cannot be followed. -/
inductive ConfigError where
  | invalidLead (name : Text)
  | invalidIgnored (name : Text)
  | invalidIncludes (path : Text)
deriving DecidableEq

namespace ConfigError

def message : ConfigError → Text
  | invalidLead name => "invalid prefix namespace '" ++ name ++ "'"
  | invalidIgnored name => "invalid ignored namespace '" ++ name ++ "'"
  | invalidIncludes path =>
    "includes directory must be a relative path inside the destination: " ++ path

end ConfigError

/-- Which declarations keep their names. -/
inductive IgnoreRule where
  /-- All of one namespace. -/
  | space (name : Text)
  /-- All that are in a namespace. -/
  | allSpaces
  /-- All of the global namespace. -/
  | global
deriving DecidableEq

namespace IgnoreRule

def applies : IgnoreRule → Option Text → Bool
  | space name, some other => name == other
  | allSpaces, some _ => true
  | global, none => true
  | _, _ => false

/-- A rule as it is written: a star, a question mark, or the name of a namespace. -/
def parse (rule : Text) : Except ConfigError IgnoreRule :=
  let name := Text.trim (· == '\\') rule
  if rule = ['*'] then .ok .allSpaces
  else if rule = ['?'] then .ok .global
  else if Identifier.isNamespace name then .ok (.space name)
  else .error (.invalidIgnored rule)

end IgnoreRule

/-- The directory for shared code, if nothing else is asked for. -/
def defaultIncludesDir : Text := "includes"

structure PlanConfig where
  /-- The namespace in front of every migrated name. -/
  lead : Text
  /-- Put the lead also in front of namespaces that start with it. -/
  append : Bool
  /-- Underscores in the names of types separate namespaces. -/
  underscore : Bool
  /-- Of these, only those in the names of global types. -/
  globalUnderscore : Bool
  ignored : List IgnoreRule
  /-- The directory for shared code, below the destination. -/
  includesDir : Text
deriving DecidableEq

namespace PlanConfig

/-- The plain configuration for a lead. -/
def ofLead (lead : Text) : PlanConfig where
  lead := Text.trim (· == '\\') lead
  append := false
  underscore := false
  globalUnderscore := false
  ignored := []
  includesDir := defaultIncludesDir

/-- Whether a path stays below the place it is taken from. -/
def isInside (path : Text) : Bool :=
  let parts := PathPart.ofPath path
  !parts.isEmpty && parts.all fun part => part == .here || part.name?.isSome

/-- The first thing that is wrong with a configuration. -/
def validate (c : PlanConfig) : Except ConfigError Unit :=
  let badRule? := c.ignored.findSome? fun rule =>
    match rule with
    | .space name => if Identifier.isNamespace name then none else some name
    | _ => none
  if !Identifier.isNamespace c.lead then .error (.invalidLead c.lead)
  else match badRule? with
    | some name => .error (.invalidIgnored name)
    | none => if isInside c.includesDir then .ok () else .error (.invalidIncludes c.includesDir)

def ignores (c : PlanConfig) (space? : Option Text) : Bool :=
  c.ignored.any (·.applies space?)

/-- The directory for shared code with single slashes between its names. -/
def includesPath (c : PlanConfig) : Text :=
  Text.join ['/'] ((PathPart.ofPath c.includesDir).filterMap PathPart.name?)

end PlanConfig
end NamespaceMigration
