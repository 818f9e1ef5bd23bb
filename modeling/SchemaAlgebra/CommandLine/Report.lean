import SchemaAlgebra.CommandLine.Arguments
import SchemaAlgebra.Validator
import SchemaAlgebra.Yaml.Parser

/-!
# The command

`Arguments.report` does what the command is asked to, given the texts of the files: it loads schema
and data, compiles the schema with the options of the arguments, and reports the outcome.  Invalid
data is reported, not a failure; failures are files that cannot be loaded, and schemas that do not
compile.

Files are in JSON, or in YAML if their extension says so.
-/

namespace SchemaAlgebra

/-- The texts of files, by name. -/
abbrev Files := String → Option String

/-- Why the command fails. -/
inductive CommandError where
  /-- A file cannot be read. -/
  | unreadable (file : String)
  /-- A file is not in its format. -/
  | malformed (file : String) (isYaml : Bool)
  /-- A file holds no options. -/
  | badConfig (file : String)
  /-- The file of the schema holds no schema. -/
  | notSchema (file : String) (source : SchemaError)
  /-- The schema does not compile. -/
  | compile (source : CompileError)
  /-- The validation does not come to an outcome. -/
  | validation (source : ValidatorError)
deriving DecidableEq, Inhabited

namespace CommandError

/-- The failure in words. -/
def message : CommandError → String
  | unreadable file => "cannot read " ++ file
  | malformed file isYaml => "invalid " ++ (if isYaml then "YAML" else "JSON") ++ " in " ++ file
  | badConfig file => "invalid validator configuration in " ++ file
  | notSchema file _ => file ++ " is not a schema object"
  | compile _ => "cannot compile schema"
  | validation source => source.message

/-- The failure behind it in words, if there is one. -/
def cause? : CommandError → Option String
  | notSchema _ source => some source.message
  | compile source => some source.message
  | _ => none

end CommandError

/-- What the command prints, and whether the data passed. -/
structure Report where
  /-- What is printed. -/
  output : Json
  /-- Whether the data is valid. -/
  valid : Bool
deriving DecidableEq, Inhabited

namespace Files

/-- The extension of a file name, after its last dot; a name that begins with its only dot has none.
-/
def extension? (path : String) : Option String :=
  let name := ((path.splitOn "/").getLastD "").toList
  match name.reverse.dropWhile (· ≠ '.') with
  | _ :: _ :: _ => some (String.ofList (name.reverse.takeWhile (· ≠ '.')).reverse)
  | _ => none

/-- Whether a file is in YAML. -/
def isYaml (path : String) : Bool :=
  (extension? path).any fun extension => ["yaml", "yml"].contains extension.toLower

/-- Loads a document. -/
def load (files : Files) (path : String) : Except CommandError Json :=
  match files path with
  | none => .error (.unreadable path)
  | some text =>
    match if isYaml path then Yaml.parse? text else Json.parse? text with
    | some value => .ok value
    | none => .error (.malformed path (isYaml path))

/-- Loads options. -/
def loadConfig (files : Files) (path : String) : Except CommandError Config := do
  match Config.ofJson? (← files.load path) with
  | some config => return config
  | none => .error (.badConfig path)

end Files

namespace Arguments

/-- The options that arguments ask for: those of the file, the keywords of both, and the switch laid
over the file. -/
def options (arguments : Arguments) (files : Files) : Except CommandError Options := do
  let config ← match arguments.config with
    | some path => files.loadConfig path
    | none => pure {}
  let switch : MatcherOptions :=
    if arguments.removeAdditional then { removeAdditional := some true } else {}
  return Options.ofConfig {
    matcher := config.matcher.overlay switch
    keywords := config.keywords ++ arguments.keywords }

/-- **The command.** -/
def report (arguments : Arguments) (files : Files) : Except CommandError Report := do
  let schema ← (Fragment.ofJson (← files.load arguments.schema)).mapError
    (.notSchema arguments.schema)
  let data ← files.load arguments.data
  let options ← arguments.options files
  if arguments.assert then
    let validator ← (AssertingValidator.compile schema arguments.message (some options)).mapError
      .compile
    match validator.validate data with
    | .ok output => return ⟨output, true⟩
    | .error (.validationFailed title issues) =>
      return ⟨.ofMembers [("message", .string title), ("errors", .array (issues.map Issue.json))],
        false⟩
    | .error e => .error (.validation e)
  else
    let validator ← (Validator.compile schema (some options)).mapError .compile
    let outcome ← (validator.validate data).mapError .validation
    return ⟨outcome.json, outcome.valid⟩

end Arguments

end SchemaAlgebra
