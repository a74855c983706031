import NamespaceMigration.Plan.Config

/-! The command line: which commands there are, and how their arguments are read. -/
namespace NamespaceMigration

structure PlanCommand where
  lead : Text
  source : Text
  includesDir : Text
  planFile? : Option Text
  append : Bool
  underscore : Bool
  globalUnderscore : Bool
  /-- Rules for what keeps its name, as written. -/
  ignored : List Text
  skipped : List Text
  followLinks : Bool
  skipHidden : Bool
  /-- Save a plan with errors too. -/
  allowErrors : Bool
  /-- Save nothing. -/
  trial : Bool
deriving DecidableEq

structure ConvertCommand where
  planFile : Text
  destination : Text
  allowRisky : Bool
  createAliases : Bool
  dropLeadDirs : Bool
deriving DecidableEq

structure RenameCommand where
  planFile : Text
  directories : List Text
  /-- Plan files that count after the first one. -/
  others : List Text
deriving DecidableEq

inductive Command where
  | plan (c : PlanCommand)
  | convert (c : ConvertCommand)
  | rename (c : RenameCommand)
  | inspect (planFile : Text) (namesChanged : Bool)
  | clear (planFile : Text) (trial : Bool)
deriving DecidableEq

/-- Why there is no command to carry out. -/
inductive NoCommand where
  /-- Somebody asks what the program does. -/
  | help
  /-- Somebody asks which one it is. -/
  | version
  /-- The arguments cannot be understood. -/
  | wrongUse
deriving DecidableEq

/-- An argument that has been recognized. -/
inductive Argument where
  | flag (name : Text)
  | setting (name value : Text)
  | positional (value : Text)
deriving DecidableEq

/-- What an argument has to be. -/
inductive ArgumentKind where
  | text
  /-- A path is never empty. -/
  | path
deriving DecidableEq

/-- An option with a value. -/
structure Setting where
  name : Text
  /-- It may be given more than once. -/
  repeated : Bool
  kind : ArgumentKind

/-- The arguments that a command takes. -/
structure Options where
  flags : List Text
  settings : List Setting
  /-- The words that are no options. -/
  words : List ArgumentKind
  /-- More words may follow after those. -/
  more? : Option ArgumentKind

namespace ArgumentKind

def allows : ArgumentKind → Text → Bool
  | text, _ => true
  | path, value => !value.isEmpty

end ArgumentKind

namespace Argument

def positionals (arguments : List Argument) : List Text :=
  arguments.filterMap fun argument =>
    match argument with
    | positional value => some value
    | _ => none

def values (arguments : List Argument) (name : Text) : List Text :=
  arguments.filterMap fun argument =>
    match argument with
    | setting other value => if name = other then some value else none
    | _ => none

def has (arguments : List Argument) (name : Text) : Bool := arguments.contains (flag name)

end Argument

namespace Options

/-- Whether a word looks like an option. A lone dash does not. -/
def isOption (word : Text) : Bool := word.head? == some '-' && word != ['-']

/-- Whether the command takes an argument after those that are given. -/
def takes (o : Options) (given : List Argument) : Argument → Bool
  | .flag name => o.flags.contains name && !Argument.has given name
  | .setting name value =>
    (o.settings.find? (·.name == name)).any fun s =>
      s.kind.allows value && (s.repeated || (Argument.values given name).isEmpty)
  | .positional value =>
    (o.words[(Argument.positionals given).length]?.or o.more?).any (·.allows value)

/-- Puts an argument after those that are given. -/
def accept (o : Options) (given : List Argument) (argument : Argument) :
    Except NoCommand (List Argument) :=
  if o.takes given argument then .ok (given ++ [argument]) else .error .wrongUse

/-- Reads words one after the other. After two dashes no word is an option. -/
def recognize (o : Options) (given : List Argument) : List Text → Except NoCommand (List Argument)
  | [] => .ok given
  | ['-', '-'] :: words => words.foldlM (fun given word => o.accept given (.positional word)) given
  | ('-' :: '-' :: word) :: words =>
    match Text.splitAtFirst? '=' word with
    | some (name, value) => do o.recognize (← o.accept given (.setting name value)) words
    | none =>
      if word = ("help" : Text) then .error .help
      else if o.flags.contains word then do o.recognize (← o.accept given (.flag word)) words
      else match words with
        | value :: words =>
          if isOption value then .error .wrongUse
          else do o.recognize (← o.accept given (.setting word value)) words
        | [] => .error .wrongUse
  | ('-' :: c :: _) :: _ => .error (if c = 'h' then .help else .wrongUse)
  | word :: words => do o.recognize (← o.accept given (.positional word)) words

def read (o : Options) (words : List Text) : Except NoCommand (List Argument) := o.recognize [] words

end Options

namespace Command

open Argument

def planOptions : Options where
  flags := List.map String.toList
    ["append-namespace", "underscore-conversion", "ignore-namespaced-underscore",
      "follow-symlinks", "ignore-dot-files", "allow-errors", "dry-run"]
  settings := [
    ⟨"includes-dir", false, .path⟩,
    ⟨"map-file", false, .path⟩,
    ⟨"ignore-namespace", true, .text⟩,
    ⟨"ignore-path", true, .path⟩]
  words := [.text, .path]
  more? := none

def readPlan (words : List Text) : Except NoCommand Command := do
  let given ← planOptions.read words
  match positionals given with
  | [lead, source] =>
    .ok (.plan {
      lead
      source
      includesDir := (values given "includes-dir").head?.getD defaultIncludesDir
      planFile? := (values given "map-file").head?
      append := has given "append-namespace"
      underscore := has given "underscore-conversion"
      globalUnderscore := has given "ignore-namespaced-underscore"
      ignored := values given "ignore-namespace"
      skipped := values given "ignore-path"
      followLinks := has given "follow-symlinks"
      skipHidden := has given "ignore-dot-files"
      allowErrors := has given "allow-errors"
      trial := has given "dry-run" })
  | _ => .error .wrongUse

def convertOptions : Options where
  flags := List.map String.toList ["allow-risky", "create-aliases", "strip-prefix-path"]
  settings := []
  words := [.path, .path]
  more? := none

def readConvert (words : List Text) : Except NoCommand Command := do
  let given ← convertOptions.read words
  match positionals given with
  | [planFile, destination] =>
    .ok (.convert {
      planFile
      destination
      allowRisky := has given "allow-risky"
      createAliases := has given "create-aliases"
      dropLeadDirs := has given "strip-prefix-path" })
  | _ => .error .wrongUse

def renameOptions : Options where
  flags := []
  settings := [⟨"with-plan", true, .path⟩]
  words := [.path, .path]
  more? := some .path

def readRename (words : List Text) : Except NoCommand Command := do
  let given ← renameOptions.read words
  match positionals given with
  | planFile :: directory :: directories =>
    .ok (.rename ⟨planFile, directory :: directories, values given "with-plan"⟩)
  | _ => .error .wrongUse

/-- A command on one plan file that has one flag. -/
def readOne (flag : Text) (command : Text → Bool → Command) (words : List Text) :
    Except NoCommand Command := do
  let given ← (Options.mk [flag] [] [.path] none).read words
  match positionals given with
  | [planFile] => .ok (command planFile (has given flag))
  | _ => .error .wrongUse

/-- The commands by their names. -/
def readers : List (Text × (List Text → Except NoCommand Command)) := [
  ("plan", readPlan),
  ("convert", readConvert),
  ("rename", readRename),
  ("inspect", readOne "names-changed" .inspect),
  ("clear", readOne "dry-run" .clear)]

/-- Whether help on some command can be given. -/
def isHelpTopic : List Text → Bool
  | [] => true
  | [name] => name = ("help" : Text) || (readers.lookup name).isSome
  | _ => false

/-- The command that the arguments ask for. -/
def ofArguments : List Text → Except NoCommand Command
  | [] => .error .wrongUse
  | name :: words =>
    if name = ("--help" : Text) ∨ name.take 2 = ['-', 'h'] then .error .help
    else if name = ("--version" : Text) ∨ name.take 2 = ['-', 'V'] then .error .version
    else if name = ("help" : Text) then .error (if isHelpTopic words then .help else .wrongUse)
    else match readers.lookup name with
      | some read => read words
      | none => .error .wrongUse

end Command
end NamespaceMigration
