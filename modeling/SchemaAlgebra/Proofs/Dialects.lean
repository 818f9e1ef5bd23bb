import SchemaAlgebra.Proofs.Embedding
import SchemaAlgebra.Proofs.Pruning
import SchemaAlgebra.Proofs.Questions
import SchemaAlgebra.Proofs.Trace

/-!
# The plan and the dialect

The transforms of a schema should run on a value that the schema is matched with.  The plan is made
without regard to the dialect, though, and goes by what the value has become, so there are departures
from the questions that matching raises (`Matcher.Departs`):

* to what stands beneath a keyword that the dialect does not have, as `prefixItems` before 2020-12;
* with a member or an item that a transform made;
* to the other side of a condition that announces a dialect, as the plan reads conditions in the
  dialect of the document.

**`Validator.calls_evaluated_iff`** — a call that a run makes is of a schema that is matched at the place
of the call just when the run did not depart.
-/

namespace SchemaAlgebra

namespace Matcher

/-! ## Departures -/

/-- **Departures.**  Where matching meets a schema with a value, the plan goes on to a schema, with a
place of the value, that matching does not meet. -/
inductive Departs (m : Matcher) (q : Question) : List String → List String → Prop
  /-- Beneath a keyword that the dialect in force there does not have. -/
  | foreign {keyword} : q.location.inner.draft.shape? keyword = none →
      Departs m q (q.location.path ++ [keyword]) q.place
  /-- With a member that the value did not have. -/
  | madeMember {keywords key way} : q.location.value = .object keywords →
      AsksMember keywords key way → q.value.member? key = none →
      Departs m q (q.location.path ++ way) (q.place ++ [key])
  /-- With an item that the value did not have. -/
  | madeItem {keywords index way} : q.location.value = .object keywords →
      AsksItem keywords index way → q.value.item? index = none →
      Departs m q (q.location.path ++ way) (q.place ++ [Pointer.indexToken index])
  /-- To the side of a condition that does not come out, if the condition is in another dialect than the
  document. -/
  | otherwise {keywords condition keyword} : q.location.value = .object keywords →
      Entries.lookup "if" keywords = some condition →
      (Place.inner (q.location.inner, condition)).draft ≠ m.document.scope.draft →
      keyword ∈ ["then", "else"] → ¬m.AsksValue q.location.inner keywords q.value [keyword] →
      Departs m q (q.location.path ++ [keyword]) q.place

/-- The schema at a pointer is matched at the place that a path leads to. -/
def Evaluates (m : Matcher) (value : Json) (pointer path : Pointer) : Prop :=
  ∃ q, m.Poses value q ∧ Pointer.tokens? pointer = some q.location.path
    ∧ Pointer.tokens? path = some q.place

/-- On the way to the schema at a pointer, and to the place that a path leads to, there is a departure.
-/
def Strays (m : Matcher) (value : Json) (pointer path : Pointer) : Prop :=
  ∃ q target place, m.Poses value q ∧ m.Departs q target place
    ∧ (∃ tokens, Pointer.tokens? pointer = some tokens ∧ target <+: tokens)
    ∧ ∃ tokens, Pointer.tokens? path = some tokens ∧ place <+: tokens

variable {m : Matcher} {scope : Scope} {keywords : Entries Json} {value : Json} {q r : Question}
  {keyword : String} {rest target place : List String}

lemma AsksValue.eq_nil (h : m.AsksValue scope keywords value (keyword :: rest))
    (hkeyword : keyword ∈ ["then", "else"]) : rest = [] := by
  generalize hway : keyword :: rest = way at h
  have hdisjoint : ∀ keyword ∈ ["then", "else"],
      keyword ∉ ["allOf", "anyOf", "oneOf"] ∧ keyword ∉ ["dependencies", "dependentSchemas"] := by decide
  cases h with
  | combined hother =>
    obtain ⟨rfl, -⟩ := List.cons.inj hway
    exact absurd hother (hdisjoint keyword hkeyword).1
  | dependent hother =>
    obtain ⟨rfl, -⟩ := List.cons.inj hway
    exact absurd hother (hdisjoint keyword hkeyword).2
  | _ => exact (List.cons.inj hway).2

lemma eq_of_same_place {before path : List String} {a b : String} (ha : before ++ [a] <+: path)
    (hb : before ++ [b] <+: path) : a = b := by
  have hlength : (before ++ [a]).length = (before ++ [b]).length := by simp
  have heq := (List.prefix_of_prefix_length_le ha hb (Nat.le_of_eq hlength)).eq_of_length hlength
  simpa using heq

/-- **Departures lead astray**: matching meets nothing beneath where one leads. -/
lemma Departs.not_poses (hroot : m.document.root.WellFormed) (hq : m.Poses value q)
    (h : m.Departs q target place) (hr : m.Poses value r) (htarget : target <+: r.location.path)
    (hplace : place <+: r.place) : False := by
  cases h with
  | foreign hshape =>
    obtain ⟨_, _, _, _, _, -, happlied, -⟩ := hq.exists_next hroot hr htarget hplace
    have hsome := isSome_shape?_of_applied happlied
    simp [hshape] at hsome
  | madeMember hkeywords hasks hnone =>
    obtain ⟨schema, hinside⟩ := hasks.exists_mem_inside
    obtain ⟨tokens, part, hconcerns, htokens⟩ := hq.exists_concern hroot hr hkeywords hinside htarget
      ((List.prefix_append _ _).trans hplace)
    obtain ⟨key, -, rfl, hpart⟩ := hconcerns.of_member hasks.through
    rw [eq_of_same_place htokens hplace, hnone] at hpart
    simp at hpart
  | madeItem hkeywords hasks hnone =>
    obtain ⟨schema, hinside⟩ := hasks.exists_mem_inside
    obtain ⟨tokens, part, hconcerns, htokens⟩ := hq.exists_concern hroot hr hkeywords hinside htarget
      ((List.prefix_append _ _).trans hplace)
    obtain ⟨index, -, rfl, hpart⟩ := hconcerns.of_item hasks.through
    rw [Pointer.indexToken_injective (eq_of_same_place htokens hplace), hnone] at hpart
    simp at hpart
  | otherwise hkeywords _ _ hkeyword hnot =>
    obtain ⟨_, rest, _, _, _, hkeywords', -, hconcerns, -⟩ := hq.exists_next hroot hr htarget hplace
    obtain rfl := Json.object.inj (hkeywords.symm.trans hkeywords')
    have hinPlace : ∀ keyword ∈ ["then", "else"], keyword ∈ inPlaceKeywords := by decide
    obtain ⟨hasks, -, -⟩ := hconcerns.of_inPlace ⟨_, hinPlace _ hkeyword, rest, rfl⟩
    obtain rfl := hasks.eq_nil hkeyword
    exact hnot hasks

/-- What is matched is not strayed to. -/
lemma Evaluates.not_strays (hroot : m.document.root.WellFormed) {pointer path : Pointer}
    (h : m.Evaluates value pointer path) : ¬m.Strays value pointer path := by
  rintro ⟨q, target, place, hq, hdeparts, ⟨tokens, htokens, htarget⟩, ⟨tokens', htokens', hplace⟩⟩
  obtain ⟨r, hr, hpointer, hpath⟩ := h
  obtain rfl := Option.some.inj (htokens.symm.trans hpointer)
  obtain rfl := Option.some.inj (htokens'.symm.trans hpath)
  exact hdeparts.not_poses hroot hq hr htarget hplace

lemma Strays.down {pointer child path inner : Pointer} (h : m.Strays value pointer path)
    (hchild : ∃ tokens, child = Pointer.join pointer tokens)
    (hinner : ∃ tokens, inner = Pointer.join path tokens) : m.Strays value child inner := by
  obtain ⟨q, target, place, hq, hdeparts, ⟨tokens, htokens, htarget⟩, ⟨tokens', htokens', hplace⟩⟩ := h
  obtain ⟨more, rfl⟩ := hchild
  obtain ⟨more', rfl⟩ := hinner
  refine ⟨q, target, place, hq, hdeparts, ⟨tokens ++ more, ?_, htarget.trans (List.prefix_append _ _)⟩,
    ⟨tokens' ++ more', ?_, hplace.trans (List.prefix_append _ _)⟩⟩
  · rw [Pointer.tokens?_join, htokens, Option.map_some]
  · rw [Pointer.tokens?_join, htokens', Option.map_some]

end Matcher

/-! ## Where the pass goes -/

/-- A question is about the schema of a node, and about what stood at a position. -/
structure Question.IsAt (q : Question) (pointer : Pointer) (at_ : Position) : Prop where
  node : Pointer.tokens? pointer = some q.location.path
  path : Pointer.tokens? at_.path = some q.place
  origin : at_.origin = q.value

namespace Outline

variable {document : Json} {pointer child : Pointer} {keywords : Entries Json} {keyword : String}

/-- The node of an item is one that answers for items at that place. -/
lemma asksItem_of_itemNode? {index : ℕ}
    (h : (ofKeywords document pointer keywords).itemNode? index = some child) :
    ∃ way, child = Pointer.join pointer way ∧ Matcher.AsksItem keywords index way := by
  rcases itemNode?_ofKeywords.1 h with ⟨schemas, hschemas, h⟩ | ⟨hpre, h⟩
  · rcases h with ⟨hindex, rfl⟩ | ⟨hindex, hsingle⟩
    · exact ⟨_, rfl, .prefixItem hschemas hindex⟩
    · obtain ⟨inner, hinner, rfl⟩ := single?_eq_some.1 hsingle
      exact ⟨_, rfl, .item hinner (by rwa [prefixLength_eq hschemas])⟩
  · rcases h with ⟨schemas, hschemas, ⟨hindex, rfl⟩ | ⟨hindex, hsingle⟩⟩ | hsingle
    · exact ⟨_, rfl, .listedItem hschemas hindex⟩
    · obtain ⟨inner, hinner, rfl⟩ := single?_eq_some.1 hsingle
      exact ⟨_, rfl, .furtherItem hschemas hinner hindex⟩
    · obtain ⟨inner, hinner, rfl⟩ := single?_eq_some.1 hsingle
      refine ⟨_, rfl, .item hinner ?_⟩
      rw [prefixLength_eq_zero hpre]
      exact Nat.zero_le index

end Outline

/-- What governs the only member of an object answers for its key. -/
lemma Json.Governs.asksMember {keywords : Entries Json} {way : List String} {key : String} {part : Json}
    (h : Json.Governs keywords way (.object [(key, part)]) part) : Matcher.AsksMember keywords key way := by
  cases h with
  | property hlookup hschema hmember =>
    obtain rfl := (Prod.mk.inj (List.mem_singleton.1 hmember)).1
    exact .property hlookup hschema
  | pattern hlookup hschema hoccurs hmember =>
    obtain rfl := (Prod.mk.inj (List.mem_singleton.1 hmember)).1
    exact .pattern hlookup hschema hoccurs
  | additional hlookup hcovers hmember =>
    obtain rfl := (Prod.mk.inj (List.mem_singleton.1 hmember)).1
    exact .additional hlookup hcovers

namespace Plan

/-- Where the pass is, matching would be, or it has strayed. -/
def Follows (m : Matcher) (value : Json) (pointer : Pointer) (at_ : Position) : Prop :=
  (∃ q, m.Poses value q ∧ q.IsAt pointer at_) ∨ m.Strays value pointer at_.path

section Onward

variable {m : Matcher} {value : Json} {q : Question} {pointer : Pointer} {at_ next : Position}
  {keywords : Entries Json} {way : List String}

/-- One step onward, with matching or astray. -/
lemma follows_of_isAt (hq : m.Poses value q) (hat : q.IsAt pointer at_)
    (hkeywords : q.location.value = .object keywords)
    (happlied : (∃ schema, (way, schema) ∈ Matcher.applied q.location.inner.draft keywords)
      ∨ Matcher.Foreign q.location.inner.draft way)
    (tokens : List String) (hpath : Pointer.tokens? next.path = some (q.place ++ tokens))
    (hnext : m.Concerns q.location.inner keywords q.value way tokens next.origin
      ∨ m.Departs q (q.location.path ++ way) (q.place ++ tokens)) :
    Follows m value (Pointer.join pointer way) next := by
  have htarget : Pointer.tokens? (Pointer.join pointer way) = some (q.location.path ++ way) := by
    rw [Pointer.tokens?_join, hat.node, Option.map_some]
  rcases hnext with hconcerns | hdeparts
  · rcases happlied with ⟨schema, happlied⟩ | ⟨keyword, rest, rfl, hshape⟩
    · exact Or.inl ⟨_, hq.tail (.intro hkeywords happlied hconcerns), htarget, hpath, rfl⟩
    · refine Or.inr ⟨q, _, _, hq, .foreign hshape, ⟨_, htarget, ?_⟩, _, hpath, List.prefix_append _ _⟩
      exact (List.prefix_append_right_inj _).2 (List.cons_prefix_cons.2 ⟨rfl, List.nil_prefix⟩)
  · exact Or.inr ⟨q, _, _, hq, hdeparts, ⟨_, htarget, List.prefix_rfl⟩, _, hpath, List.prefix_rfl⟩

lemma origin_child_of_member? {key : String} {part current : Json} (h : at_.origin.member? key = some part) :
    (at_.child key current).origin = part := by
  rw [Position.child]
  cases horigin : at_.origin with
  | object members =>
    rw [horigin] at h
    have hlookup : Entries.lookup key members = some part := h
    simp only [Json.step?, hlookup, Option.getD_some]
  | _ => simp [horigin, Json.member?] at h

lemma origin_child_of_item? {index : ℕ} {part current : Json} (h : at_.origin.item? index = some part) :
    (at_.child (Pointer.indexToken index) current).origin = part := by
  rw [Position.child]
  cases horigin : at_.origin with
  | array items =>
    rw [horigin] at h
    have hitem : items[index]? = some part := h
    simp only [Json.step?, Pointer.lenientIndex?_of_strictIndex? (Pointer.strictIndex?_eq_some.2 rfl),
      Option.bind_eq_bind, Option.bind_some, hitem, Option.getD_some]
  | _ => simp [horigin, Json.item?, Json.items?] at h

end Onward

section Compiled

variable {options : MatcherOptions} {extensions : List Extension} {registry : Registry}
  {schema : Fragment} {settings : Options} {m : Matcher} {plan : Plan} {value : Json} {q : Question}
  {pointer child : Pointer} {at_ : Position} {keywords : Entries Json}
  (hbuild : Matcher.build options extensions registry schema.json = .ok m)
  (hcompile : compile (Matcher.build options extensions registry) schema settings = .ok plan)
  (hwf : schema.json.WellFormed) (href : schema.json.RefFree)

include hbuild in
lemma root_eq_kept : m.document.root = Document.kept schema.json := by
  rw [(build_eq_ok_iff.1 hbuild).1, Document.root_ofJson]

include hbuild hwf in
lemma wellFormed_root : m.document.root.WellFormed := by
  rw [root_eq_kept hbuild]
  exact Document.wellFormed_kept hwf

include hbuild href in
lemma refFree_root : m.document.root.RefFree := by
  rw [root_eq_kept hbuild]
  exact Document.refFree_kept href

include href in
lemma contains_reference (hpointer : pointer ∈ Outline.nodes schema.json) :
    Entries.contains "$ref" (Outline.keywordsAt schema.json pointer) = false := by
  obtain ⟨path, -, hholds⟩ := Outline.holds_of_mem_nodes href hpointer
  cases hkeywords : Outline.keywordsAt? schema.json pointer with
  | none => simp [Outline.keywordsAt, hkeywords, Entries.contains]
  | some keywords =>
    rw [Outline.keywordsAt, hkeywords, Option.getD_some]
    exact href path keywords (hholds keywords hkeywords)

include hbuild hwf href in
/-- Where the pass has not strayed, the schema that matching meets has the keywords of the node. -/
lemma exists_question {entry : List String × Json} (hfollows : Follows m value pointer at_)
    (hinside : entry ∈ Json.inside (Outline.keywordsAt schema.json pointer)) :
    (∃ q keywords, m.Poses value q ∧ q.IsAt pointer at_ ∧ q.location.value = .object keywords
      ∧ Document.SameButDialect (Outline.keywordsAt schema.json pointer) keywords
      ∧ Entries.lookup "$ref" keywords = none) ∨ m.Strays value pointer at_.path := by
  refine hfollows.imp ?_ id
  rintro ⟨q, hq, hat⟩
  have hsound := hq.sound (wellFormed_root hbuild hwf)
  rw [Location.Sound, root_eq_kept hbuild] at hsound
  obtain ⟨_, _, hlookup, -⟩ := Json.mem_inside_iff.1 hinside
  obtain ⟨keywords, hkeywords, hsame⟩ :=
    Document.exists_kept_of_walk? hsound (Outline.walk?_of_lookup hat.node hlookup)
  have hrefFree := hq.refFree (refFree_root hbuild href)
  rw [hkeywords] at hrefFree
  exact ⟨q, keywords, hq, hat, hkeywords, fun keyword hkeyword => (hsame keyword hkeyword).symm,
    hrefFree.lookup⟩

include hbuild hcompile hwf href

/-- **Members** are met with matching, or astray. -/
lemma follows_member (hpointer : pointer ∈ Outline.nodes schema.json) {key : String}
    (hfollows : Follows m value pointer at_) (hchild : child ∈ (plan.node pointer).memberNodes key)
    (current : Json) : Follows m value child (at_.child key current) := by
  obtain ⟨way, rfl, hgoverns⟩ := (reads_node hcompile hpointer).governs_of_mem_memberNodes
    (List.mem_singleton_self (key, .null)) hchild
  obtain ⟨_, hinside⟩ := hgoverns.asksMember.exists_mem_inside
  rcases exists_question hbuild hwf href hfollows hinside with
    ⟨q, keywords, hq, hat, hkeywords, hsame, hnone⟩ | hstrays
  · have hasks := hgoverns.asksMember.congr hsame
    refine follows_of_isAt hq hat hkeywords (hasks.applied_or_foreign hnone _) [key] ?_ ?_
    · rw [Position.child, Pointer.tokens?_child, hat.path, Option.map_some]
    · cases hpart : q.value.member? key with
      | none => exact Or.inr (.madeMember hkeywords hasks hpart)
      | some part =>
        refine Or.inl (.member hasks ?_)
        rw [origin_child_of_member? (hat.origin ▸ hpart), hpart]
  · exact Or.inr (hstrays.down ⟨way, rfl⟩ ⟨[key], rfl⟩)

/-- **Items** are met with matching, or astray. -/
lemma follows_item (hpointer : pointer ∈ Outline.nodes schema.json) {index : ℕ}
    (hfollows : Follows m value pointer at_)
    (hchild : (plan.node pointer).outline.itemNode? index = some child) (current : Json) :
    Follows m value child (at_.child (Pointer.indexToken index) current) := by
  rw [(reads_node hcompile hpointer).outline] at hchild
  obtain ⟨way, rfl, hasks⟩ := Outline.asksItem_of_itemNode? hchild
  obtain ⟨_, hinside⟩ := hasks.exists_mem_inside
  rcases exists_question hbuild hwf href hfollows hinside with
    ⟨q, keywords, hq, hat, hkeywords, hsame, hnone⟩ | hstrays
  · have hasks := hasks.congr hsame
    refine follows_of_isAt hq hat hkeywords (hasks.applied_or_foreign hnone _)
      [Pointer.indexToken index] ?_ ?_
    · rw [Position.child, Pointer.tokens?_child, hat.path, Option.map_some]
    · cases hpart : q.value.item? index with
      | none => exact Or.inr (.madeItem hkeywords hasks hpart)
      | some part =>
        refine Or.inl (.item hasks ?_)
        rw [origin_child_of_item? (hat.origin ▸ hpart), hpart]
  · exact Or.inr (hstrays.down ⟨way, rfl⟩ ⟨[Pointer.indexToken index], rfl⟩)

/-! ### Conditions -/

omit hcompile in
/-- A condition that is read in the dialect of the document is decided as by matching. -/
lemma accepts_condition_eq (hq : m.Poses value q) (hkeywords : q.location.value = .object keywords)
    {condition : Json} (hcondition : Entries.lookup "if" keywords = some condition)
    (hdraft : (Matcher.Place.inner (q.location.inner, condition)).draft = m.document.scope.draft)
    {place : Pointer} (hresolve : schema.json.resolve? place = some condition) {alone : Matcher}
    (halone : Matcher.build options extensions registry (branchDocument schema.json place) = .ok alone)
    (other : Json) : alone.accepts other = m.grants q.location.inner condition other := by
  obtain ⟨rfl, -⟩ := (build_branchDocument_iff hbuild).1 halone
  have hrefFree := hq.refFree (refFree_root hbuild href)
  rw [hkeywords] at hrefFree
  have hcondFree : condition.RefFree := by
    by_cases hobject : condition.isObject = true
    · exact hrefFree.of_mem_inside (Json.mem_inside_single (by decide) hcondition hobject)
    · intro path keywords hholds
      cases hholds <;> simp [Json.isObject] at hobject
  have hwalk : m.document.root.walk? (q.location.path ++ ["if"]) = some condition := by
    have hsound : m.document.root.walk? q.location.path = some q.location.value :=
      hq.sound (wellFormed_root hbuild hwf)
    rw [Json.walk?_append, hsound, hkeywords, Option.bind_some, Json.walk?_object hcondition,
      Json.walk?_nil]
  rw [Matcher.accepts, Matcher.violations, Matcher.grants, Matcher.violationsOf, Matcher.violationsOf]
  refine congrArg List.isEmpty (Eq.symm ?_)
  refine Matcher.judge_eq_of_refFree (a := (q.location.inner, condition))
    (b := (aloneOf m schema.json place).start) ⟨rfl, rfl, fun _ _ _ _ _ => rfl⟩ hcondFree
    (Json.wellFormed_of_walk? (wellFormed_root hbuild hwf) hwalk) ?_ (fun _ => ?_) ?_
    (Matcher.depth_lt_budget _ other)
  · have hroot : (aloneOf m schema.json place).start.2
        = Document.kept (branchDocument schema.json place) :=
      Document.root_ofJson m.document.scope.draft _
    rw [hroot, bare_kept_branchDocument hresolve]
  · have hinner : (aloneOf m schema.json place).start.inner
        = (aloneOf m schema.json place).document.rootScope := rfl
    rw [hdraft, hinner, aloneOf, rootScope_draft_ofJson]
  · exact Nat.lt_of_le_of_lt (Matcher.depth_le_of_walk? hwalk) (m.depth_lt_budget other)

omit hcompile in
/-- **Combinations** are met with matching, or astray. -/
lemma follows_listed (hfollows : Follows m value pointer at_) {keyword : String}
    (hkeyword : keyword ∈ ["allOf", "anyOf", "oneOf"])
    (hchild : child ∈ Outline.listed pointer (Outline.keywordsAt schema.json pointer) keyword) :
    Follows m value child at_ := by
  obtain ⟨schemas, index, hlookup, hindex, rfl⟩ := Outline.mem_listed_iff.1 hchild
  have hlist : ∀ keyword ∈ ["allOf", "anyOf", "oneOf"], keyword ∈ Json.listKeywords ∧ keyword ≠ "$schema"
      ∧ keyword ∉ ["definitions", "$defs", "then", "else", "additionalItems"] := by decide
  obtain ⟨hlist, hne, heffective⟩ := hlist keyword hkeyword
  have hinside := Json.mem_inside_listed hlist hlookup (List.getElem?_eq_getElem hindex)
  rcases exists_question hbuild hwf href hfollows hinside with
    ⟨q, keywords, hq, hat, hkeywords, hsame, hnone⟩ | hstrays
  · have hlookup := hsame keyword hne ▸ hlookup
    have hinside := Json.mem_inside_listed hlist hlookup (List.getElem?_eq_getElem hindex)
    refine follows_of_isAt hq hat hkeywords
      (Matcher.applied_or_foreign hnone (Matcher.effective_of_not_mem heffective) _ hinside) [] ?_ ?_
    · rw [hat.path, List.append_nil]
    · rw [hat.origin]
      exact Or.inl (.itself (.combined hkeyword hlookup hindex))
  · exact Or.inr (hstrays.down ⟨_, rfl⟩ ⟨[], rfl⟩)

omit hbuild hwf href in
/-- What a condition selects is the schema beneath `then` if the condition's matcher accepts the value,
and the one beneath `else` otherwise. -/
lemma exists_of_selected? (hpointer : pointer ∈ Outline.nodes schema.json) {origin : Json}
    (h : selected? (plan.node pointer) origin = some child) :
    ∃ alone condition inner, schema.json.resolve? (Pointer.join pointer ["if"]) = some condition
      ∧ Entries.lookup "if" (Outline.keywordsAt schema.json pointer) = some condition
      ∧ Matcher.build options extensions registry
          (branchDocument schema.json (Pointer.join pointer ["if"])) = .ok alone
      ∧ Entries.lookup (if alone.accepts origin then "then" else "else")
          (Outline.keywordsAt schema.json pointer) = some (.object inner)
      ∧ child = Pointer.join pointer [if alone.accepts origin then "then" else "else"] := by
  obtain ⟨alone, hmatcher, hside⟩ := Option.bind_eq_some_iff.1 h
  obtain ⟨place, hplace, halone⟩ := (condition_node hcompile hpointer).2 alone hmatcher
  rw [outline_node hcompile hpointer] at hplace hside
  obtain ⟨rfl, keywords, condition, hkeywords, hcondition⟩ := Outline.condition_stands hplace
  have hresolve : schema.json.resolve? (Pointer.join pointer ["if"]) = some condition := by
    rw [Json.resolve?_join, Outline.resolve?_of_keywordsAt? hkeywords, Option.bind_some,
      Json.walk?_object hcondition, Json.walk?_nil]
  rw [Outline.keywordsAt, hkeywords, Option.getD_some]
  rw [Outline.read_of_keywordsAt? hkeywords] at hside
  have hfollowing : Outline.single? pointer keywords (if alone.accepts origin then "then" else "else")
      = some child := by
    split at hside
    · rename_i haccepts
      rw [if_pos haccepts]
      exact (Option.ite_none_right_eq_some.1 hside).2
    · rename_i hrefuses
      rw [if_neg hrefuses]
      exact (Option.ite_none_right_eq_some.1 hside).2
  obtain ⟨inner, hlookup, hchild⟩ := Outline.single?_eq_some.1 hfollowing
  exact ⟨alone, condition, inner, hresolve, hcondition, halone, hlookup, hchild⟩

/-- **What a condition selects** is met with matching, or astray. -/
lemma follows_selected (hpointer : pointer ∈ Outline.nodes schema.json)
    (hfollows : Follows m value pointer at_)
    (hselected : selected? (plan.node pointer) at_.origin = some child) : Follows m value child at_ := by
  obtain ⟨alone, condition, inner, hresolve, hcondition, halone, hlookup, hchild⟩ :=
    exists_of_selected? hcompile hpointer hselected
  obtain ⟨keyword, hkeyword⟩ : ∃ keyword, (if alone.accepts at_.origin then "then" else "else") = keyword :=
    ⟨_, rfl⟩
  rw [hkeyword] at hlookup hchild
  subst hchild
  have hsingle : keyword ∈ ["then", "else"] := by
    rw [← hkeyword]
    split <;> decide
  have hlist : ∀ keyword ∈ ["then", "else"], keyword ∈ Json.singleKeywords ∧ keyword ≠ "$schema"
      ∧ keyword ∉ ["definitions", "$defs"] ∧ keyword ≠ "additionalItems" := by decide
  obtain ⟨hlist, hne, happlies, hbeyond⟩ := hlist keyword hsingle
  rcases exists_question hbuild hwf href hfollows (Json.mem_inside_single hlist hlookup rfl) with
    ⟨q, keywords, hq, hat, hkeywords, hsame, hnone⟩ | hstrays
  · have hcondition := hsame "if" (by decide) ▸ hcondition
    have hcontains : Entries.contains "if" keywords = true := by
      rw [Entries.contains_eq_isSome, hcondition]
      rfl
    have hinside := Json.mem_inside_single hlist (hsame keyword hne ▸ hlookup) rfl
    refine follows_of_isAt hq hat hkeywords (Matcher.applied_or_foreign hnone
      ⟨happlies, fun _ => hcontains, fun h => absurd h hbeyond⟩ _ hinside) [] ?_ ?_
    · rw [hat.path, List.append_nil]
    · rw [hat.origin, List.append_nil]
      by_cases hasks : m.AsksValue q.location.inner keywords q.value [keyword]
      · exact Or.inl (.itself hasks)
      · refine Or.inr (.otherwise hkeywords hcondition (fun hdraft => hasks ?_) hsingle hasks)
        -- in the dialect of the document, the condition comes out as for matching
        have hagree := accepts_condition_eq hbuild hwf href hq hkeywords hcondition hdraft hresolve halone
          q.value
        rw [← hkeyword, hat.origin]
        split
        · rename_i haccepts
          exact .consequent hcondition (hagree ▸ haccepts)
        · rename_i hrefuses
          exact .alternative hcondition (hagree ▸ Bool.eq_false_iff.2 hrefuses)
  · exact Or.inr (hstrays.down ⟨_, rfl⟩ ⟨[], rfl⟩)

/-- **A node hands its value on** with matching, or astray. -/
lemma follows_value (hpointer : pointer ∈ Outline.nodes schema.json) (hfollows : Follows m value pointer at_)
    (hhands : (plan.node pointer).HandsValueTo at_.origin child) : Follows m value child at_ := by
  have hread := outline_node hcompile hpointer
  rw [Outline.read_eq] at hread
  cases hhands with
  | conjunct hchild =>
    rw [hread] at hchild
    rcases List.mem_append.1 hchild with hchild | hchild
    · exact follows_listed hbuild hwf href hfollows (by decide) hchild
    · have hlookup : Entries.lookup "$ref" (Outline.keywordsAt schema.json pointer) = none := by
        simpa [Entries.contains_eq_isSome] using contains_reference href hpointer
      simp [Outline.ofKeywords, Json.localTarget?, hlookup] at hchild
  | branch hbranch =>
    have hchild := listed_of_mem_branches hcompile hpointer hbranch
    rw [hread] at hchild
    rcases List.mem_append.1 hchild with hchild | hchild
    · exact follows_listed hbuild hwf href hfollows (by decide) hchild
    · exact follows_listed hbuild hwf href hfollows (by decide) hchild
  | selected hselected => exact follows_selected hbuild hcompile hwf href hpointer hfollows hselected

omit hbuild hwf href in
lemma mem_nodes_of_handsValueTo (hpointer : pointer ∈ Outline.nodes schema.json) {origin : Json}
    (hhands : (plan.node pointer).HandsValueTo origin child) : child ∈ Outline.nodes schema.json := by
  refine mem_nodes_of_child hcompile hpointer ?_
  cases hhands with
  | conjunct hchild => exact conjuncts_subset_children hchild
  | branch hbranch =>
    exact Outline.branches_subset_children _ (listed_of_mem_branches hcompile hpointer hbranch)
  | selected hselected =>
    obtain ⟨alone, -, hside⟩ := Option.bind_eq_some_iff.1 hselected
    refine Outline.followers_subset_children _ (List.mem_append.2 ?_)
    split at hside
    · exact Or.inl (Option.mem_toList.2 hside)
    · exact Or.inr (Option.mem_toList.2 hside)

/-- **The pass keeps to matching** until it strays. -/
lemma keeps_follows : plan.Keeps fun pointer at_ =>
    pointer ∈ Outline.nodes schema.json ∧ Follows m value pointer at_ where
  member := fun ⟨hpointer, hfollows⟩ hchild current =>
    ⟨mem_nodes_of_mem_memberNodes hcompile hpointer hchild,
      follows_member hbuild hcompile hwf href hpointer hfollows hchild current⟩
  item := fun ⟨hpointer, hfollows⟩ hchild current =>
    ⟨mem_nodes_of_itemNode? hcompile hpointer hchild,
      follows_item hbuild hcompile hwf href hpointer hfollows hchild current⟩
  value := fun ⟨hpointer, hfollows⟩ hhands =>
    ⟨mem_nodes_of_handsValueTo hcompile hpointer hhands,
      follows_value hbuild hcompile hwf href hpointer hfollows hhands⟩

/-- **Calls** are of schemas that are matched where the call is made, or astray. -/
lemma evaluated_or_strays {steps : ℕ} {call : Call} (hcall : call ∈ (plan.run steps value).calls) :
    m.Evaluates value call.node call.instancePath ∨ m.Strays value call.node call.instancePath := by
  rw [calls_run] at hcall
  obtain ⟨event, hevent, hcall⟩ := List.mem_flatMap.1 hcall
  have hroot : "" ∈ Outline.nodes schema.json ∧ Follows m value "" (.root value) :=
    ⟨Outline.mem_nodes_iff.2 .refl, Or.inl ⟨m.rootQuestion value, .refl, rfl, rfl, rfl⟩⟩
  obtain ⟨-, hfollows⟩ :=
    plan.every_visit steps value (keeps_follows hbuild hcompile hwf href) hroot event hevent
  obtain ⟨hnode, hpath⟩ := place_of_mem_callsAt hcall
  rw [hnode, hpath]
  exact hfollows.imp (fun ⟨q, hq, hat⟩ => ⟨q, hq, hat.node, hat.path⟩) id

end Compiled

end Plan

/-! ## Calls -/

namespace Validator

/-- **The pass and the dialect.**  In a document without references, a transform is called where the
schema that lists it is matched, in the dialect that is in force there, unless the run has strayed: to
what stands beneath a keyword that the dialect does not have, with a member or an item that a transform
made, or to the other side of a condition that announces a dialect of its own.  Where it has strayed,
matching meets nothing. -/
theorem calls_evaluated_iff {schema : Fragment} {options : Option Options} {validator : Validator}
    (hcompile : Validator.compile schema options = .ok validator) (hwf : schema.json.WellFormed)
    (href : schema.json.RefFree) {steps : ℕ} {value : Json} {call : Call}
    (hcall : call ∈ (validator.plan.run steps value).calls) :
    validator.matcher.Evaluates value call.node call.instancePath
      ↔ ¬validator.matcher.Strays value call.node call.instancePath := by
  obtain ⟨extensions, registry, hbuild, hplan⟩ := compile_ok hcompile
  constructor
  · exact Matcher.Evaluates.not_strays (Plan.wellFormed_root hbuild hwf)
  · exact (Plan.evaluated_or_strays hbuild hplan hwf href hcall).resolve_right

/-! ## A list that older dialects do not have -/

/-- A schema with a transform for the first item. -/
def listingSchema : Fragment where
  keywords := [("prefixItems", .array [.object [("transform", .array [.string "wrap"])]])]

/-- Options with the transform of the schema, and a dialect. -/
def listingOptions (draft : Draft) : Options where
  matcher := { draft := some draft }
  transforms := Table.ofPairs [("wrap", Transform.ofFunction fun value => .ok (.array [value]))]

/-- The call of the transform. -/
def listingCall : Call :=
  ⟨"/prefixItems/0", "/0", "wrap", .int 1⟩

lemma listingSchema_wellFormed : listingSchema.json.WellFormed := by
  decide +kernel

lemma listingSchema_refFree : listingSchema.json.RefFree := by
  decide +kernel

lemma exists_listingValidator (draft : Draft) (hdraft : draft ∈ [Draft.draft7, .draft202012]) :
    ∃ validator, compile listingSchema (some (listingOptions draft)) = .ok validator
      ∧ validator.matcher.document = .ofJson draft listingSchema.json
      ∧ listingCall ∈ (validator.plan.apply (.array [.int 1])).calls := by
  have hfacts : ∀ draft ∈ [Draft.draft7, .draft202012],
      (match compile listingSchema (some (listingOptions draft)) with
      | .ok validator => decide (validator.matcher.document = .ofJson draft listingSchema.json
        ∧ listingCall ∈ (validator.plan.apply (.array [.int 1])).calls)
      | .error _ => false) = true := by
    decide +kernel
  have hfacts := hfacts draft hdraft
  split at hfacts
  · rename_i validator hcompile
    exact ⟨validator, hcompile, of_decide_eq_true hfacts⟩
  · simp at hfacts

/-- Before 2020-12 the transform is called on the first item all the same, which matching does not meet
with the schema. -/
theorem listingSchema_strays :
    ∃ validator, compile listingSchema (some (listingOptions .draft7)) = .ok validator
      ∧ listingSchema.json.RefFree
      ∧ ∃ call ∈ (validator.plan.apply (.array [.int 1])).calls,
        ¬validator.matcher.Evaluates (.array [.int 1]) call.node call.instancePath := by
  obtain ⟨validator, hcompile, hdocument, hcall⟩ := exists_listingValidator .draft7 (by decide)
  refine ⟨validator, hcompile, listingSchema_refFree, listingCall, hcall, fun hevaluates => ?_⟩
  obtain ⟨_, _, hbuild, -⟩ := compile_ok hcompile
  refine hevaluates.not_strays (Plan.wellFormed_root hbuild listingSchema_wellFormed)
    ⟨validator.matcher.rootQuestion (.array [.int 1]), ["prefixItems"], [], .refl, .foreign ?_,
      ⟨["prefixItems", "0"], by decide +kernel, ⟨["0"], rfl⟩⟩, ["0"], by decide +kernel, List.nil_prefix⟩
  rw [Matcher.rootQuestion, hdocument]
  decide +kernel

/-- In 2020-12 the transform is called where matching meets the schema. -/
theorem listingSchema_keeps_to_matching :
    ∃ validator, compile listingSchema (some (listingOptions .draft202012)) = .ok validator
      ∧ listingSchema.json.WellFormed ∧ listingSchema.json.RefFree
      ∧ ∃ call ∈ (validator.plan.run Plan.nestingLimit (.array [.int 1])).calls,
        validator.matcher.Evaluates (.array [.int 1]) call.node call.instancePath
          ∧ ¬validator.matcher.Strays (.array [.int 1]) call.node call.instancePath := by
  obtain ⟨validator, hcompile, hdocument, hcall⟩ :=
    exists_listingValidator .draft202012 (by decide)
  have hroot : validator.matcher.document.rootLocation.value = .object listingSchema.keywords := by
    rw [hdocument]
    rfl
  have happlied : (["prefixItems", "0"], .object [("transform", .array [.string "wrap"])])
      ∈ Matcher.applied validator.matcher.document.rootLocation.inner.draft listingSchema.keywords := by
    rw [hdocument]
    decide +kernel
  have hasks : Matcher.AsksItem listingSchema.keywords 0 ["prefixItems", "0"] :=
    .prefixItem rfl (by decide)
  have hpointer : Pointer.tokens? "/prefixItems/0" = some ["prefixItems", "0"] := by decide +kernel
  have hpath : Pointer.tokens? "/0" = some ["0"] := by decide +kernel
  have hevaluates : validator.matcher.Evaluates (.array [.int 1]) "/prefixItems/0" "/0" :=
    ⟨_, .single (.intro hroot happlied (.item hasks rfl)), hpointer, hpath⟩
  exact ⟨validator, hcompile, listingSchema_wellFormed, listingSchema_refFree, listingCall, hcall,
    hevaluates, (calls_evaluated_iff hcompile listingSchema_wellFormed listingSchema_refFree hcall).1
      hevaluates⟩

end Validator

end SchemaAlgebra
