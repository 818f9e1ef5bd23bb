import SchemaAlgebra.Class
import SchemaAlgebra.Json.Combine
import SchemaAlgebra.Transform

/-!
# Options of a validator

Options say what a schema alone does not: the functions and classes its names stand for, the dialect
it is written in, and how failures are reported.  They come from two places, attached to a schema
and given when it is compiled, and every field of the latter wins (`Options.merged`).

* `MatcherOptions` — the settings of the structural matcher, each of which may be left open.
* `Config` — the part of the options a file can hold, with its reader `Config.ofJson?`.
* `Options` — all options.
-/

namespace SchemaAlgebra

/-- A dialect of JSON Schema. -/
inductive Draft where
  | draft4
  | draft6
  | draft7
  | draft201909
  | draft202012
deriving DecidableEq, Inhabited

namespace Draft

/-- The name of a dialect in options. -/
def name : Draft → String
  | draft4 => "draft4"
  | draft6 => "draft6"
  | draft7 => "draft7"
  | draft201909 => "draft2019-09"
  | draft202012 => "draft2020-12"

/-- All dialects, oldest first. -/
def all : List Draft := [draft4, draft6, draft7, draft201909, draft202012]

/-- The dialect with this name. -/
def ofName? (s : String) : Option Draft :=
  all.find? fun draft => draft.name = s

/-- The place of a dialect in the history. -/
def age : Draft → Nat
  | draft4 => 4
  | draft6 => 6
  | draft7 => 7
  | draft201909 => 8
  | draft202012 => 9

end Draft

/-- Settings of the structural matcher; a field that is `none` is left open. -/
structure MatcherOptions where
  /-- The dialect. -/
  draft : Option Draft := none
  /-- Whether the `format` keyword is enforced. -/
  validateFormats : Option Bool := none
  /-- Whether all failures are reported, not just the first. -/
  allErrors : Option Bool := none
  /-- Whether issues show the schema and the data they are about. -/
  verbose : Option Bool := none
  /-- Whether undeclared members of closed objects are dropped instead of reported. -/
  removeAdditional : Option Bool := none
deriving DecidableEq, Inhabited

namespace MatcherOptions

/-- The settings of `upper` where it has any, those of `lower` elsewhere. -/
def overlay (lower upper : MatcherOptions) : MatcherOptions where
  draft := upper.draft.or lower.draft
  validateFormats := upper.validateFormats.or lower.validateFormats
  allErrors := upper.allErrors.or lower.allErrors
  verbose := upper.verbose.or lower.verbose
  removeAdditional := upper.removeAdditional.or lower.removeAdditional

/-- The dialect in effect. -/
def effectiveDraft (options : MatcherOptions) : Draft :=
  options.draft.getD .draft7

/-- Whether formats are enforced. -/
def enforcesFormats (options : MatcherOptions) : Bool :=
  options.validateFormats.getD false

/-- Whether all failures are reported. -/
def reportsAll (options : MatcherOptions) : Bool :=
  options.allErrors.getD true

/-- Whether issues show schema and data. -/
def isVerbose (options : MatcherOptions) : Bool :=
  options.verbose.getD true

/-- Whether undeclared members are dropped. -/
def prunes (options : MatcherOptions) : Bool :=
  options.removeAdditional.getD false

end MatcherOptions

/-- The options a file can hold. -/
structure Config where
  /-- Settings of the matcher. -/
  matcher : MatcherOptions := {}
  /-- Names of extension keywords to enable. -/
  keywords : List String := []
deriving DecidableEq, Inhabited

namespace Config

/-- The fields of a record written as JSON: an object whose keys are all among `names`, or the list
of the values of the first fields.  A field that is not written is `none`. -/
def record? (names : List String) : Json → Option (List (Option Json))
  | .object members =>
    if members.all fun member => names.contains member.1 then
      some (names.map fun name => Entries.lookup name members)
    else none
  | .array items =>
    if items.length ≤ names.length then
      some (items.map some ++ List.replicate (names.length - items.length) none)
    else none
  | _ => none

/-- A field that may be left open, by `null` or by not being written. -/
def open? {α : Type} (read : Json → Option α) : Option Json → Option (Option α)
  | none => some none
  | some .null => some none
  | some value => (read value).map some

/-- A dialect, by its name or as an object with its name for only key. -/
def draft? : Json → Option Draft
  | .string name => Draft.ofName? name
  | .object [(name, .null)] => Draft.ofName? name
  | _ => none

/-- Reads matcher settings. -/
def matcherOptions? (value : Json) : Option MatcherOptions := do
  match ← record?
    ["draft", "validate_formats", "all_errors", "verbose", "remove_additional"] value with
  | [draft, validateFormats, allErrors, verbose, removeAdditional] =>
    return {
      draft := ← open? draft? draft
      validateFormats := ← open? Json.bool? validateFormats
      allErrors := ← open? Json.bool? allErrors
      verbose := ← open? Json.bool? verbose
      removeAdditional := ← open? Json.bool? removeAdditional }
  | _ => none

/-- Reads a list of strings. -/
def strings? : Json → Option (List String)
  | .array items => items.mapM Json.string?
  | _ => none

/-- Reads the options of a file.  A field may be missing, but not `null`. -/
def ofJson? (value : Json) : Option Config := do
  match ← record? ["matcher", "keywords"] value with
  | [matcher, keywords] =>
    return {
      matcher := ← (matcher.map matcherOptions?).getD (some {})
      keywords := ← (keywords.map strings?).getD (some []) }
  | _ => none

end Config

/-- The options a schema is compiled with. -/
structure Options where
  /-- Transforms by name. -/
  transforms : Table Transform := .empty
  /-- Settings of the matcher. -/
  matcher : MatcherOptions := {}
  /-- Names of extension keywords to enable. -/
  keywords : List String := []
  /-- Classes beside the built-in ones. -/
  classes : List Class := []
deriving Inhabited

namespace Options

/-- The options a file holds. -/
def ofConfig (config : Config) : Options :=
  { matcher := config.matcher, keywords := config.keywords }

/-- The options `explicit` laid over the options `attached`.  Transforms and settings of `explicit`
win; keywords and classes of `attached` come first, and of repeated ones, classes being told apart
by name, the first is kept. -/
def overlay (attached explicit : Options) : Options where
  transforms := attached.transforms.enter explicit.transforms.entries
  matcher := attached.matcher.overlay explicit.matcher
  keywords := dedupeBy (· == ·) (attached.keywords ++ explicit.keywords)
  classes := dedupeBy (fun a b => a.name == b.name) (attached.classes ++ explicit.classes)

/-- The options in effect, of those attached to a schema and those given explicitly. -/
def merged (attached explicit : Option Options) : Options :=
  (attached.getD {}).overlay (explicit.getD {})

end Options

end SchemaAlgebra
