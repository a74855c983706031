import NamespaceMigration.Json.Decode
import NamespaceMigration.Plan.Project

/-! Plans as JSON. The keys of a record are part of the format of saved plans. -/
namespace NamespaceMigration

open JsonValue

def wordBits : Nat := 64

namespace DeclarationKind

/-- The kinds with their names in plans. -/
def words : List (Text × DeclarationKind) := [
  ("class", .classLike .classDecl),
  ("interface", .classLike .interfaceDecl),
  ("trait", .classLike .traitDecl),
  ("enum", .classLike .enumDecl),
  ("function", .function),
  ("constant", .constant),
  ("conditional", .conditional)]

def toJson : DeclarationKind → JsonValue
  | .constant => .string "constant"
  | kind => .string kind.word

def ofJson : JsonValue → Except DecodeError DeclarationKind := asWord words

end DeclarationKind

namespace QualifiedName

def toJson (n : QualifiedName) : JsonValue := .string n.text

def ofJson (v : JsonValue) : Except DecodeError QualifiedName := (asText v).map QualifiedName.mk

end QualifiedName

namespace Component

def toJson (c : Component) : JsonValue :=
  .object [("kind", c.kind.toJson), ("original", c.old.toJson), ("new", c.new.toJson)]

def ofJson (v : JsonValue) : Except DecodeError Component := do
  let members ← asMembers "Component" ["kind", "original", "new"] v
  let kind? ← members.get? "kind" DeclarationKind.ofJson
  let new? ← members.get? "new" QualifiedName.ofJson
  let old? ← members.get? "original" QualifiedName.ofJson
  return {
    kind := ← required "kind" kind?
    old := ← required "original" old?
    new := ← required "new" new? }

end Component

namespace SourceSpan

def toJson (s : SourceSpan) : JsonValue :=
  .object [
    ("start_line", .nat s.startLine),
    ("end_line", .nat s.endLine),
    ("start_offset", .nat s.startOffset),
    ("end_offset", .nat s.endOffset)]

def ofJson (v : JsonValue) : Except DecodeError SourceSpan := do
  let keys : List Text := ["start_line", "end_line", "start_offset", "end_offset"]
  let members ← asMembers "SourceSpan" keys v
  let endLine? ← members.get? "end_line" (asNat wordBits "usize")
  let endOffset? ← members.get? "end_offset" (asNat offsetBits "u32")
  let startLine? ← members.get? "start_line" (asNat wordBits "usize")
  let startOffset? ← members.get? "start_offset" (asNat offsetBits "u32")
  return {
    startLine := ← required "start_line" startLine?
    endLine := ← required "end_line" endLine?
    startOffset := ← required "start_offset" startOffset?
    endOffset := ← required "end_offset" endOffset? }

end SourceSpan

namespace TokenSpan

def toJson (s : TokenSpan) : JsonValue :=
  .object [("first", .nat s.first), ("end", .nat s.stop)]

def ofJson (v : JsonValue) : Except DecodeError TokenSpan := do
  let members ← asMembers "TokenSpan" ["first", "end"] v
  let stop? ← members.get? "end" (asNat wordBits "usize")
  let first? ← members.get? "first" (asNat wordBits "usize")
  return { first := ← required "first" first?, stop := ← required "end" stop? }

end TokenSpan

namespace Directive

def toJson (d : Directive) : JsonValue :=
  .object [("key", .string d.key), ("value", .string d.value)]

def ofJson (v : JsonValue) : Except DecodeError Directive := do
  let members ← asMembers "Directive" ["key", "value"] v
  let key? ← members.get? "key" asText
  let value? ← members.get? "value" asText
  return { key := ← required "key" key?, value := ← required "value" value? }

end Directive

namespace Decision

/-- The keys of a decision in the order of its values. -/
def keys : List Text := [
  "kind", "span", "tokens", "namespace_tokens", "original_namespace", "new_namespace",
  "components", "directives", "target", "exclusive", "risky", "ignored", "summary"]

def toJson (d : Decision) : JsonValue :=
  .object [
    ("kind", d.kind.toJson),
    ("span", d.span.toJson),
    ("tokens", d.tokens.toJson),
    ("namespace_tokens", ofOption TokenSpan.toJson d.spaceTokens?),
    ("original_namespace", ofOption .string d.oldSpace?),
    ("new_namespace", ofOption .string d.newSpace?),
    ("components", .array (d.components.map Component.toJson)),
    ("directives", .array (d.directives.map Directive.toJson)),
    ("target", .string d.target),
    ("exclusive", .bool d.exclusive),
    ("risky", .bool d.risky),
    ("ignored", .bool d.ignored),
    ("summary", .string d.summary)]

/-- Without the member for it no rule says that the declaration keeps its name. -/
def ofJson (v : JsonValue) : Except DecodeError Decision := do
  let members ← asMembers "MappingDecision" keys v
  let components? ← members.get? "components" (asList Component.ofJson)
  let directives? ← members.get? "directives" (asList Directive.ofJson)
  let exclusive? ← members.get? "exclusive" asBool
  let ignored? ← members.get? "ignored" asBool
  let kind? ← members.get? "kind" DeclarationKind.ofJson
  let spaceTokens? ← members.get? "namespace_tokens" (asOption TokenSpan.ofJson)
  let newSpace? ← members.get? "new_namespace" (asOption asText)
  let oldSpace? ← members.get? "original_namespace" (asOption asText)
  let risky? ← members.get? "risky" asBool
  let span? ← members.get? "span" SourceSpan.ofJson
  let summary? ← members.get? "summary" asText
  let target? ← members.get? "target" asText
  let tokens? ← members.get? "tokens" TokenSpan.ofJson
  return {
    kind := ← required "kind" kind?
    span := ← required "span" span?
    tokens := ← required "tokens" tokens?
    spaceTokens? := spaceTokens?.join
    oldSpace? := oldSpace?.join
    newSpace? := newSpace?.join
    components := ← required "components" components?
    directives := ← required "directives" directives?
    target := ← required "target" target?
    exclusive := ← required "exclusive" exclusive?
    risky := ← required "risky" risky?
    ignored := ignored?.getD false
    summary := ← required "summary" summary? }

end Decision

namespace PlanErrorKind

def words : List (Text × PlanErrorKind) :=
  [syntaxFault, invalidStatement, conflict, encoding].map fun kind => (kind.name, kind)

end PlanErrorKind

namespace PlanError

def toJson (e : PlanError) : JsonValue :=
  .object [
    ("kind", .string e.kind.name),
    ("message", .string e.message),
    ("span", ofOption SourceSpan.toJson e.span?)]

def ofJson (v : JsonValue) : Except DecodeError PlanError := do
  let members ← asMembers "PlanError" ["kind", "message", "span"] v
  let kind? ← members.get? "kind" (asWord PlanErrorKind.words)
  let message? ← members.get? "message" asText
  let span? ← members.get? "span" (asOption SourceSpan.ofJson)
  return {
    kind := ← required "kind" kind?
    message := ← required "message" message?
    span? := span?.join }

end PlanError

namespace FilePlan

def keys : List Text := ["path", "hash", "has_include", "decisions", "errors"]

def toJson (p : FilePlan) : JsonValue :=
  .object [
    ("path", .string p.path),
    ("hash", .string p.hash),
    ("has_include", .bool p.includesFile),
    ("decisions", .array (p.decisions.map Decision.toJson)),
    ("errors", .array (p.errors.map PlanError.toJson))]

def ofJson (v : JsonValue) : Except DecodeError FilePlan := do
  let members ← asMembers "FilePlan" keys v
  let decisions? ← members.get? "decisions" (asList Decision.ofJson)
  let errors? ← members.get? "errors" (asList PlanError.ofJson)
  let includesFile? ← members.get? "has_include" asBool
  let hash? ← members.get? "hash" asText
  let path? ← members.get? "path" asText
  return {
    path := ← required "path" path?
    hash := ← required "hash" hash?
    includesFile := ← required "has_include" includesFile?
    decisions := ← required "decisions" decisions?
    errors := ← required "errors" errors? }

end FilePlan

namespace ProjectPlan

def keys : List Text := ["dialect", "source_root", "includes_dir", "prefix", "files"]

def toJson (p : ProjectPlan) : JsonValue :=
  .object [
    ("dialect", .string dialect),
    ("source_root", .string p.sourceRoot),
    ("includes_dir", .string p.includesDir),
    ("prefix", .string p.lead),
    ("files", .array (p.files.map FilePlan.toJson))]

/-- The plan, still without its index, and the dialect that it was made for. -/
def ofJson (v : JsonValue) : Except DecodeError (Text × ProjectPlan) := do
  let members ← asMembers "ProjectResult" keys v
  let dialect? ← members.get? "dialect" asText
  let files? ← members.get? "files" (asList FilePlan.ofJson)
  let includesDir? ← members.get? "includes_dir" asText
  let lead? ← members.get? "prefix" asText
  let sourceRoot? ← members.get? "source_root" asText
  let dialect ← required "dialect" dialect?
  return (dialect, {
    sourceRoot := ← required "source_root" sourceRoot?
    includesDir := ← required "includes_dir" includesDir?
    lead := ← required "prefix" lead?
    files := ← required "files" files?
    index := .empty })

end ProjectPlan
end NamespaceMigration
