import SchemaAlgebra.Combinator.Object

/-!
# Unions

Plain unions, schemas that also admit `null`, unions discriminated by a property, and partial views,
which require less.

**Tagged unions.**  In each member of a tagged union the discriminating property, the *tag*, is
required and fixed to a value of its own.  The union remembers the tag in its metadata, and a
partial view of it (`Fragment.partialView`) keeps the tag required.
-/

namespace SchemaAlgebra.Fragment

/-- Values that match some member. -/
def anyOf (members : List Fragment) : Fragment :=
  empty.withMembers "anyOf" members

/-- Whether a schema names `null` among its types. -/
def admitsNull (schema : Json) : Bool :=
  ((schema.member? "type").getD .null).seq.any fun type => type = .string "null"

/-- Values that match the schema, and `null`.  A union that names `null` already is left alone, any
other union gets one more member, and any other schema becomes one of two members. -/
def nullable (f : Fragment) : Fragment :=
  match f.get? "anyOf" with
  | some (.array items) =>
    if items.any admitsNull then f
    else (merged [f]).pushMember "anyOf" (ofKind .null)
  | _ => anyOf [f, ofKind .null]

/-- Whether a schema is a union that carries a tag, or one whose members are all schemas of
objects. -/
def isTaggedUnion (f : Fragment) : Bool :=
  match f.get? "anyOf" with
  | some (.array items) =>
    f.unionTag?.isSome ||
      ((f.members "anyOf").length = items.length && (f.members "anyOf").all isObject)
  | _ => false

/-- A member of a tagged union: the tag has the value `value` and is required. -/
def variant (tag : String) (description : Fragment) (value : String) (member : Fragment) :
    Fragment :=
  let tagSchema := (merged [description]).withKeyword "const" (.string value)
  let required := Json.concat [(member.get? "required").getD .null, .string tag]
  (member.withChild ["properties", tag] tagSchema).withRequired (Json.dedupe required)

/-- The members of a tagged union, each checked to be a schema of objects and to have a value of the
tag that is not among those `used` before it. -/
def variants (tag : String) (description : Fragment) :
    List String → List (String × Fragment) → Except SchemaError (List Fragment)
  | _, [] => .ok []
  | used, (value, member) :: rest => do
    if !member.isObject then
      throw (.notAnObject "tagged_union" member.json.describe)
    if used.contains value then
      throw (.duplicateTag tag value)
    let others ← variants tag description (value :: used) rest
    return variant tag description value member :: others

/-- The union of schemas of objects that are told apart by the value of `tag`.  Without a
description the tag is a string. -/
def taggedUnion (tag : String) (members : List (String × Fragment))
    (description : Option Fragment) : Except SchemaError Fragment := do
  let description := description.getD (ofKind .string)
  let members ← variants tag description [] members
  return (anyOf members).modifyRoot fun m =>
    { m with taggedUnion := some ⟨tag, description.json⟩ }

/-! ## Partial views -/

/-- A member of a union is less deep than the union. -/
theorem depth_lt_of_mem_members {f member : Fragment} {keyword : String}
    (h : member ∈ f.members keyword) : member.json.depth < f.json.depth := by
  unfold members at h
  split at h
  · obtain ⟨index, _, hat⟩ := List.mem_filterMap.1 h
    obtain ⟨keywords, hkeywords, rfl⟩ := Option.map_eq_some_iff.1 hat
    have hlookup : f.lookup? [keyword, Pointer.indexToken index] = some (.object keywords) := by
      unfold keywordsAt? at hkeywords
      split at hkeywords
      · next hlookup => rw [hlookup, Option.some.inj hkeywords]
      · simp at hkeywords
    obtain ⟨value, hvalue, hfollow⟩ := Option.bind_eq_some_iff.1 hlookup
    have hle := Json.depth_le_of_follow? hfollow
    have hlt := Json.depth_le_of_lookup hvalue
    simp only [json, Json.depth] at hle ⊢
    omega
  · simp at h

/-- The schema with only the properties in `keep` required.  A tagged union keeps its tag required
too, and is relaxed member by member. -/
def partialView (f : Fragment) (keep : List String) : Except SchemaError Fragment :=
  let keep := keep ++ (f.unionTag?.map UnionTag.property).toList
  if f.isObject then .ok (f.withRequired (f.requiredSeq.filter (isNameIn keep)))
  else if f.isTaggedUnion then do
    let members ← (f.members "anyOf").attach.mapM fun ⟨member, _⟩ => partialView member keep
    return f.withMembers "anyOf" members
  else .error (.notObjectOrTaggedUnion f.json.describe)
termination_by f.json.depth
decreasing_by exact depth_lt_of_mem_members ‹_›

end SchemaAlgebra.Fragment
