/-!
# Arguments of the command line

The command validates a document against a schema:

* `--schema FILE`, `--data FILE` — the schema and the document, both required;
* `--config FILE` — options; `--keyword NAME` — an extension keyword, may be repeated;
* `--remove-additional` — drop undeclared members of closed objects;
* `--assert` — print the data alone, and fail if it is invalid; `--message TEXT` — the heading of
  that failure.

A value follows its option as the next argument or after an equals sign.  Arguments are read from
left to right, and the first that cannot be read decides the error; what is missing is found at the
end. An option waits for its value, and what it was given is looked at only when the next option, or
the end, comes (`ArgumentReader.settle`).
-/

namespace SchemaAlgebra

/-- Why arguments cannot be read. -/
inductive UsageError where
  /-- An argument that is required, by itself or by another one, is missing. -/
  | missingRequired
  /-- There is no such argument. -/
  | unknownArgument
  /-- An option has no value, or one that it cannot have. -/
  | invalidValue
  /-- An argument that may be given once is given again. -/
  | conflict
  /-- A value is given to an argument that takes none. -/
  | tooManyValues
  /-- Help is asked for. -/
  | help
deriving DecidableEq, Inhabited

/-- An option with a value. -/
inductive ValueOption where
  | schema
  | data
  | config
  | keyword
  | message
deriving DecidableEq, Inhabited

/-- An option without a value. -/
inductive FlagOption where
  | removeAdditional
  | assert
  | help
deriving DecidableEq, Inhabited

/-- What the command is asked to do. -/
structure Arguments where
  /-- The file of the schema. -/
  schema : String
  /-- The file of the document to validate. -/
  data : String
  /-- The file of options. -/
  config : Option String := none
  /-- Extension keywords. -/
  keywords : List String := []
  /-- Whether undeclared members of closed objects are dropped. -/
  removeAdditional : Bool := false
  /-- Whether only the data is wanted. -/
  assert : Bool := false
  /-- The heading of a failure. -/
  message : Option String := none
deriving DecidableEq, Inhabited

/-- The state of reading arguments. -/
structure ArgumentReader where
  /-- The file of the schema. -/
  schema : Option String := none
  /-- The file of the document to validate. -/
  data : Option String := none
  /-- The file of options. -/
  config : Option String := none
  /-- Extension keywords. -/
  keywords : List String := []
  /-- Whether undeclared members of closed objects are dropped. -/
  removeAdditional : Bool := false
  /-- Whether only the data is wanted. -/
  assert : Bool := false
  /-- The heading of a failure. -/
  message : Option String := none
  /-- The last option, with its value if that has come, while nothing has come after it. -/
  pending : Option (ValueOption × Option String) := none
deriving DecidableEq, Inhabited

namespace ArgumentReader

/-- Sets a field that may be set once. -/
def setOnce (field : Option String) (value : String) (isFile : Bool) :
    Except UsageError (Option String) :=
  if field.isSome then .error .conflict
  else if isFile && value.isEmpty then .error .invalidValue
  else .ok (some value)

/-- Gives an option its value. -/
def store (reader : ArgumentReader) (option : ValueOption) (value : String) :
    Except UsageError ArgumentReader := do
  match option with
  | .schema => return { reader with schema := ← setOnce reader.schema value true }
  | .data => return { reader with data := ← setOnce reader.data value true }
  | .config => return { reader with config := ← setOnce reader.config value true }
  | .message => return { reader with message := ← setOnce reader.message value false }
  | .keyword => return { reader with keywords := reader.keywords ++ [value] }

/-- Gives the option that waits its value. -/
def settle (reader : ArgumentReader) : Except UsageError ArgumentReader :=
  match reader.pending with
  | none => .ok reader
  | some (_, none) => .error .invalidValue
  | some (option, some value) => { reader with pending := none }.store option value

/-- Sets a flag. -/
def raise (reader : ArgumentReader) (flag : FlagOption) : Except UsageError ArgumentReader :=
  match flag with
  | .help => .error .help
  | .assert => if reader.assert then .error .conflict else .ok { reader with assert := true }
  | .removeAdditional =>
    if reader.removeAdditional then .error .conflict
    else .ok { reader with removeAdditional := true }

/-- The option with a name. -/
def option? : String → Option (ValueOption ⊕ FlagOption)
  | "schema" => some (.inl .schema)
  | "data" => some (.inl .data)
  | "config" => some (.inl .config)
  | "keyword" => some (.inl .keyword)
  | "message" => some (.inl .message)
  | "remove-additional" => some (.inr .removeAdditional)
  | "assert" => some (.inr .assert)
  | "help" => some (.inr .help)
  | _ => none

/-- Reads an option, without the dashes. -/
def readOption (reader : ArgumentReader) (text : List Char) : Except UsageError ArgumentReader := do
  let name := String.ofList (text.takeWhile (· ≠ '='))
  let attached := match text.dropWhile (· ≠ '=') with
    | [] => none
    | _ :: value => some (String.ofList value)
  match option? name, attached with
  | none, _ => .error .unknownArgument
  | some (.inl option), some value => (← reader.settle).store option value
  | some (.inl option), none => return { (← reader.settle) with pending := some (option, none) }
  | some (.inr _), some _ => .error .tooManyValues
  | some (.inr flag), none => (← reader.settle).raise flag

/-- Reads arguments to the end. -/
def read (reader : ArgumentReader) : List String → Except UsageError ArgumentReader
  | [] => reader.settle
  | argument :: rest =>
    match argument.toList with
    | ['-', '-'] => if rest.isEmpty then reader.settle else .error .unknownArgument
    | '-' :: '-' :: text => do (← reader.readOption text).read rest
    | '-' :: 'h' :: _ => do (← reader.settle).raise .help
    | '-' :: _ :: _ => .error .unknownArgument
    | _ =>
      match reader.pending with
      | some (option, none) => { reader with pending := some (option, some argument) }.read rest
      | _ => .error .unknownArgument

end ArgumentReader

namespace Arguments

/-- Reads the arguments of the command. -/
def read (arguments : List String) : Except UsageError Arguments := do
  let reader ← ({} : ArgumentReader).read arguments
  match reader.schema, reader.data with
  | some schema, some data =>
    if reader.message.isSome && !reader.assert then .error .missingRequired
    else
      return {
        schema := schema
        data := data
        config := reader.config
        keywords := reader.keywords
        removeAdditional := reader.removeAdditional
        assert := reader.assert
        message := reader.message }
  | _, _ => .error .missingRequired

end Arguments

end SchemaAlgebra
