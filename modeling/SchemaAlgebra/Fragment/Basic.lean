import SchemaAlgebra.Fragment.Metadata
import SchemaAlgebra.Json.Pointer
import SchemaAlgebra.SchemaError

/-!
# Schema fragments

A fragment is a schema under construction: a JSON object, and beside it a table of metadata records
that the object cannot hold.  A record is entered under the pointer of its node, relative to the
fragment, the empty pointer being the fragment itself.

Document and table move together:

* Embedding a fragment (`withChild`, `withChildren`, `withMembers`, `pushMember`) enters its records
  beneath the place it is embedded at; records of empty slots are not carried along.
* Replacing a keyword drops the records beneath it.
* `Fragment.at?` takes a fragment out again, with the records at and beneath its place.
* `Fragment.merged` merges documents keyword by keyword; the records beneath a keyword come from the
  fragment whose keyword was taken, and records of roots are dropped.
-/

namespace SchemaAlgebra

/-- A schema with metadata for its nodes. -/
structure Fragment where
  /-- The keywords of the schema, in key order. -/
  keywords : Entries Json := []
  /-- The metadata records under the pointers of their nodes. -/
  records : Table Metadata := .empty
deriving Inhabited

namespace Fragment

/-- The fragment without keywords, which accepts every value. -/
def empty : Fragment := {}

/-- The object that a value is, as a fragment without metadata. -/
def ofJson : Json → Except SchemaError Fragment
  | .object keywords => .ok { keywords := keywords }
  | value => .error (.notAFragment value.describe)

/-- The document of a fragment. -/
def json (f : Fragment) : Json :=
  .object f.keywords

/-- Fragments are the same if their documents are. -/
def same (f g : Fragment) : Bool :=
  f.json.same g.json

/-- The value of a keyword. -/
def get? (f : Fragment) (keyword : String) : Option Json :=
  Entries.lookup keyword f.keywords

/-- The value at the end of a path of at least one step. -/
def lookup? (f : Fragment) : List String → Option Json
  | [] => none
  | first :: rest => do (← f.get? first).follow? rest

/-! ## Metadata -/

/-- The record of the node at `pointer`. -/
def recordAt? (f : Fragment) (pointer : Pointer) : Option Metadata :=
  f.records.lookup pointer

/-- The record of the fragment itself. -/
def root? (f : Fragment) : Option Metadata :=
  f.recordAt? ""

/-- Changes the record of the node at `pointer`, which is empty at first. -/
def modifyRecord (f : Fragment) (pointer : Pointer) (change : Metadata → Metadata) : Fragment :=
  { f with records := f.records.insert pointer (change ((f.recordAt? pointer).getD {})) }

/-- Changes the record of the fragment itself. -/
def modifyRoot (f : Fragment) (change : Metadata → Metadata) : Fragment :=
  f.modifyRecord "" change

/-- The mark of an optional property. -/
def optionalMark? (f : Fragment) : Option Bool :=
  f.root?.bind Metadata.optionalMark

/-- The descriptor of a tagged union. -/
def unionTag? (f : Fragment) : Option UnionTag :=
  f.root?.bind Metadata.taggedUnion

/-- The transforms that the fragment carries for its root. -/
def transforms? (f : Fragment) : Option (Table Transform) :=
  f.root?.bind Metadata.transforms

/-- The options attached to the fragment. -/
def options? (f : Fragment) : Option Options :=
  f.root?.bind Metadata.validatorOptions

/-- Attaches options. -/
def withOptions (f : Fragment) (options : Options) : Fragment :=
  f.modifyRoot fun m => { m with validatorOptions := some options }

/-- Drops the records at and beneath `pre`. -/
def clearUnder (records : Table Metadata) (pre : Pointer) : Table Metadata :=
  records.filterKeys fun pointer => !Pointer.hasPrefix pointer pre

/-- Enters the filled records of an embedded fragment beneath `pre`. -/
def adopt (records : Table Metadata) (pre : Pointer) (embedded : Table Metadata) :
    Table Metadata :=
  records.enter <|
    (embedded.entries.filter fun entry => !entry.2.isEmpty).map fun entry =>
      (pre ++ entry.1, entry.2)

/-! ## Building -/

/-- The pointer of a keyword. -/
def keywordPointer (keyword : String) : Pointer :=
  Pointer.join "" [keyword]

/-- Sets a keyword. -/
def withKeyword (f : Fragment) (keyword : String) (value : Json) : Fragment where
  keywords := Entries.insert keyword value f.keywords
  records := clearUnder f.records (keywordPointer keyword)

/-- Removes a keyword. -/
def withoutKeyword (f : Fragment) (keyword : String) : Fragment where
  keywords := Entries.erase keyword f.keywords
  records := clearUnder f.records (keywordPointer keyword)

/-- Sets the value at the end of a path, making an object of whatever the path leads through. -/
def insertAt : List String → Json → Entries Json → Entries Json
  | [], _, members => members
  | [token], value, members => Entries.insert token value members
  | token :: path, value, members =>
    let inner := match Entries.lookup token members with
      | some (.object inner) => inner
      | _ => []
    Entries.insert token (.object (insertAt path value inner)) members

/-- Embeds a fragment at the end of a path; the empty path leads to the fragment itself. -/
def withChild (f : Fragment) (path : List String) (child : Fragment) : Fragment :=
  match path with
  | [] => child
  | path =>
    let pre := Pointer.join "" path
    { keywords := insertAt path child.json f.keywords
      records := adopt (clearUnder f.records pre) pre child.records }

/-- Sets a keyword to an object of fragments. -/
def withChildren (f : Fragment) (keyword : String) (children : List (String × Fragment)) :
    Fragment :=
  let base := keywordPointer keyword
  { keywords := Entries.insert keyword
      (Json.ofMembers (children.map fun child => (child.1, child.2.json))) f.keywords
    records := children.foldl
      (fun records child => adopt records (Pointer.child base child.1) child.2.records)
      (clearUnder f.records base) }

/-- Sets a keyword to an array of fragments. -/
def withMembers (f : Fragment) (keyword : String) (members : List Fragment) : Fragment :=
  let base := keywordPointer keyword
  { keywords := Entries.insert keyword (.array (members.map json)) f.keywords
    records := members.zipIdx.foldl
      (fun records (member, index) =>
        adopt records (Pointer.child base (Pointer.indexToken index)) member.records)
      (clearUnder f.records base) }

/-- Appends a fragment to the array under a keyword.  What is there already gives way if it is no
array. -/
def pushMember (f : Fragment) (keyword : String) (member : Fragment) : Fragment :=
  let pointer := fun index => Pointer.join "" [keyword, Pointer.indexToken index]
  match f.get? keyword with
  | some (.array items) =>
    { keywords := Entries.insert keyword (.array (items ++ [member.json])) f.keywords
      records := adopt f.records (pointer items.length) member.records }
  | _ =>
    { keywords := Entries.insert keyword (.array [member.json]) f.keywords
      records := adopt (clearUnder f.records (keywordPointer keyword)) (pointer 0)
        member.records }

/-- Sets the description. -/
def withDescription (f : Fragment) (text : String) : Fragment :=
  f.withKeyword "description" (.string text)

/-! ## Taking out -/

/-- The keywords of the object at the end of a path. -/
def keywordsAt? (f : Fragment) (path : List String) : Option (Entries Json) :=
  match f.lookup? path with
  | some (.object keywords) => some keywords
  | _ => if path.isEmpty then some f.keywords else none

/-- The records at and beneath the end of a path, under pointers relative to it. -/
def recordsBeneath (f : Fragment) (path : List String) : Table Metadata :=
  let pre := Pointer.join "" path
  .ofPairs <|
    (f.records.entries.filter fun entry => Pointer.hasPrefix entry.1 pre).map fun entry =>
      (Pointer.dropPrefix entry.1 pre, entry.2)

/-- The fragment at the end of a path, if there is an object. -/
def at? (f : Fragment) (path : List String) : Option Fragment :=
  (f.keywordsAt? path).map fun keywords =>
    { keywords := keywords, records := f.recordsBeneath path }

/-- The objects in the array under a keyword, as fragments. -/
def members (f : Fragment) (keyword : String) : List Fragment :=
  match f.get? keyword with
  | some (.array items) =>
    (List.range items.length).filterMap fun index => f.at? [keyword, Pointer.indexToken index]
  | _ => []

/-- The objects in the object under a keyword, as fragments with their names. -/
def children (f : Fragment) (keyword : String) : List (String × Fragment) :=
  match f.get? keyword with
  | some (.object members) =>
    (Entries.keys members).filterMap fun name =>
      (f.at? [keyword, name]).map fun child => (name, child)
  | _ => []

/-! ## Merging -/

/-- Takes over the records beneath a keyword of a fragment, in place of any that are there. -/
def takeRecords (from_ : Table Metadata) (records : Table Metadata) (keyword : String) :
    Table Metadata :=
  let pre := keywordPointer keyword
  (clearUnder records pre).enter
    (from_.entries.filter fun entry => Pointer.hasPrefix entry.1 pre)

/-- The shallow merge from left to right: a later keyword replaces an earlier one, and a `null`
leaves it alone. -/
def merged (parts : List Fragment) : Fragment where
  keywords := Entries.merge (parts.map keywords)
  records := parts.foldl
    (fun records part =>
      (Entries.keys (Entries.trim part.keywords)).foldl (takeRecords part.records) records)
    .empty

end Fragment

end SchemaAlgebra
