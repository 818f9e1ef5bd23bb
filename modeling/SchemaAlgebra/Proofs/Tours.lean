import Mathlib.Data.List.Sigma
import Mathlib.Order.Bounds.Basic
import SchemaAlgebra.Proofs.Records
import SchemaAlgebra.Proofs.Subschemas

/-!
# Tours of a document

On a tour of a document a visitor is called at each subschema, as soon as the walk comes there.  It is told
the pointer, which the walk has made up on its way, and shown the keywords.  It may keep a state, and the tour
is over when it fails.

* `Json.Encloses` — the schemas that stand directly in another one, with the tokens that lead to them.
* `Json.pairwise_inside` — none of these ways goes on from another, so no pointer comes up twice.
* `Json.thorough_subschemas` — every subschema is listed once, after the one that it stands in.
* `Json.tour_eq` — a tour calls its visitor with the listed subschemas, one after the other.
  `Fragment.checkNames_eq_tour` and `Plan.refuse_misplaced?` have the tours that compilation makes.
* `Visitor.Goes` — the calls of a visitor, the last of which may fail, and what comes of them.
* **`Json.tour_visits_each_once`** — a visitor that never fails is called once at each subschema, with the
  pointer that leads there; one that fails is not called again.
-/

namespace SchemaAlgebra

namespace Json

variable {document : Json} {keywords inner : Entries Json} {tokens path : List String} {pointer : Pointer}

/-! ## Schemas in a schema -/

/-- A schema has another one directly in it, where these tokens lead: under a name, in a list, or as the
argument of a keyword. -/
inductive Encloses (keywords : Entries Json) : List String → Entries Json → Prop
  | named {keyword name schemas inner} : keyword ∈ mapKeywords →
      Entries.lookup keyword keywords = some (.object schemas) → (name, .object inner) ∈ schemas →
      Encloses keywords [keyword, name] inner
  | listed {keyword index schemas inner} : keyword ∈ listKeywords →
      Entries.lookup keyword keywords = some (.array schemas) → schemas[index]? = some (.object inner) →
      Encloses keywords [keyword, Pointer.indexToken index] inner
  | single {keyword inner} : keyword ∈ singleKeywords →
      Entries.lookup keyword keywords = some (.object inner) → Encloses keywords [keyword] inner

lemma encloses_iff : Encloses keywords tokens inner ↔ (tokens, .object inner) ∈ inside keywords := by
  constructor
  · intro h
    cases h with
    | named hkeyword hlookup hname => exact mem_inside_named hkeyword hlookup hname
    | listed hkeyword hlookup hitem => exact mem_inside_listed hkeyword hlookup hitem
    | single hkeyword hlookup => exact mem_inside_single hkeyword hlookup rfl
  · intro h
    rcases mem_inside h with ⟨keyword, hkeyword, schemas, name, hlookup, hname, rfl⟩
      | ⟨keyword, hkeyword, schemas, index, hlookup, hitem, rfl⟩
      | ⟨keyword, hkeyword, value, hlookup, hvalue, rfl⟩
    · exact .named hkeyword hlookup hname
    · exact .listed hkeyword hlookup hitem
    · obtain rfl := object.inj hvalue
      exact .single hkeyword hlookup

lemma Encloses.holds (h : Encloses keywords tokens inner) : (object keywords).Holds tokens inner := by
  have hstep := Holds.step (encloses_iff.1 h) .self
  rwa [List.append_nil] at hstep

/-- The way into a schema is never empty. -/
lemma length_pos_of_mem_inside {value : Json} (h : (tokens, value) ∈ inside keywords) :
    0 < tokens.length := by
  obtain ⟨keyword, argument, -, hmem⟩ := mem_inside_iff.1 h
  obtain ⟨rest, rfl⟩ := exists_tail_of_mem_insideOf hmem
  exact Nat.succ_pos _

/-- A subschema is the schema itself, or it stands directly in another subschema. -/
lemma Holds.cases_last {value : Json} (h : value.Holds path inner) :
    path = [] ∧ value = .object inner ∨ ∃ above outer tokens,
      value.Holds above outer ∧ Encloses outer tokens inner ∧ path = above ++ tokens := by
  induction h with
  | self => exact Or.inl ⟨rfl, rfl⟩
  | @step keywords tokens value path inner hmem _ ih =>
    rcases ih with ⟨rfl, rfl⟩ | ⟨above, outer, last, habove, hlast, rfl⟩
    · exact Or.inr ⟨[], keywords, tokens, .self, encloses_iff.2 hmem, List.append_nil tokens⟩
    · refine Or.inr ⟨tokens ++ above, outer, last, .step hmem habove, hlast, ?_⟩
      rw [List.append_assoc]

/-! ### Ways that lie apart -/

/-- Neither of two ways goes on from the other. -/
def Apart (path other : List String) : Prop :=
  ¬ path <+: other ∧ ¬ other <+: path

lemma apart_of_head_ne {other : List String} {keyword another : String}
    (hpath : path.head? = some keyword) (hother : other.head? = some another) (hne : keyword ≠ another) :
    Apart path other := by
  obtain ⟨rest, rfl⟩ := List.head?_eq_some_iff.1 hpath
  obtain ⟨more, rfl⟩ := List.head?_eq_some_iff.1 hother
  exact ⟨fun h => hne (List.cons_prefix_cons.1 h).1, fun h => hne (List.cons_prefix_cons.1 h).1.symm⟩

lemma apart_of_token_ne {token other : String} (keyword : String) (h : token ≠ other) :
    Apart [keyword, token] [keyword, other] := by
  constructor
  · intro hprefix
    exact h (List.cons_prefix_cons.1 (List.cons_prefix_cons.1 hprefix).2).1
  · intro hprefix
    exact h (List.cons_prefix_cons.1 (List.cons_prefix_cons.1 hprefix).2).1.symm

lemma Apart.append (h : Apart path tokens) (rest more : List String) :
    ¬ tokens ++ more <+: path ++ rest := by
  intro hprefix
  have htokens : tokens <+: path ++ rest := (List.prefix_append _ _).trans hprefix
  rcases List.prefix_or_prefix_of_prefix htokens (List.prefix_append path rest) with hle | hle
  · exact h.2 hle
  · exact h.1 hle

/-- The ways under different keywords lie apart, so it is enough that those under each keyword do. -/
lemma pairwise_flatMap_keywords {under : String → List (List String × Json)} (names : List String)
    (hnames : names.Nodup) (hhead : ∀ keyword, ∀ entry ∈ under keyword, entry.1.head? = some keyword)
    (hunder : ∀ keyword, (under keyword).Pairwise fun first second => Apart first.1 second.1) :
    (names.flatMap under).Pairwise fun first second => Apart first.1 second.1 :=
  List.pairwise_flatMap.2 ⟨fun keyword _ => hunder keyword,
    hnames.imp fun hne first hfirst second hsecond =>
      apart_of_head_ne (hhead _ first hfirst) (hhead _ second hsecond) hne⟩

/-- The schemas that a keyword has under names. -/
def namedIn (keywords : Entries Json) (keyword : String) : List (List String × Json) :=
  match Entries.lookup keyword keywords with
  | some (.object schemas) => schemas.map fun (name, schema) => ([keyword, name], schema)
  | _ => []

/-- The schemas that a keyword has in a list. -/
def listedIn (keywords : Entries Json) (keyword : String) : List (List String × Json) :=
  match Entries.lookup keyword keywords with
  | some (.array schemas) =>
    schemas.zipIdx.map fun (schema, index) => ([keyword, Pointer.indexToken index], schema)
  | _ => []

/-- The schema that a keyword has as its argument. -/
def singleIn (keywords : Entries Json) (keyword : String) : List (List String × Json) :=
  match Entries.lookup keyword keywords with
  | some (.object schema) => [([keyword], .object schema)]
  | _ => []

lemma inside_eq (keywords : Entries Json) :
    inside keywords = mapKeywords.flatMap (namedIn keywords) ++ listKeywords.flatMap (listedIn keywords)
      ++ singleKeywords.flatMap (singleIn keywords) := rfl

lemma head_of_mem_namedIn {keyword : String} {entry : List String × Json}
    (h : entry ∈ namedIn keywords keyword) : entry.1.head? = some keyword := by
  unfold namedIn at h
  split at h
  · obtain ⟨member, -, rfl⟩ := List.mem_map.1 h
    rfl
  · simp at h

lemma head_of_mem_listedIn {keyword : String} {entry : List String × Json}
    (h : entry ∈ listedIn keywords keyword) : entry.1.head? = some keyword
      ∧ ∃ schemas, Entries.lookup keyword keywords = some (.array schemas) := by
  unfold listedIn at h
  split at h
  · rename_i schemas hlookup
    obtain ⟨item, -, rfl⟩ := List.mem_map.1 h
    exact ⟨rfl, schemas, hlookup⟩
  · simp at h

lemma head_of_mem_singleIn {keyword : String} {entry : List String × Json}
    (h : entry ∈ singleIn keywords keyword) : entry.1.head? = some keyword
      ∧ ∃ schema, Entries.lookup keyword keywords = some (.object schema) := by
  unfold singleIn at h
  split at h
  · rename_i schema hlookup
    obtain rfl := List.mem_singleton.1 h
    exact ⟨rfl, schema, hlookup⟩
  · simp at h

lemma pairwise_namedIn (hwf : (object keywords).WellFormed) (keyword : String) :
    (namedIn keywords keyword).Pairwise fun first second => Apart first.1 second.1 := by
  unfold namedIn
  split
  · rename_i schemas hlookup
    have hschemas := wellFormed_of_mem_members hwf.2 (Entries.mem_of_lookup hlookup)
    refine List.pairwise_map.2 (hschemas.1.imp fun {first second} hlt => ?_)
    exact apart_of_token_ne keyword fun heq => String.lt_irrefl second.1 (heq ▸ hlt)
  · exact List.Pairwise.nil

lemma pairwise_listedIn (keywords : Entries Json) (keyword : String) :
    (listedIn keywords keyword).Pairwise fun first second => Apart first.1 second.1 := by
  unfold listedIn
  split
  · rename_i schemas hlookup
    have hindices : schemas.zipIdx.Pairwise fun first second => first.2 ≠ second.2 :=
      List.pairwise_map.1 (List.nodup_zipIdx_map_snd schemas)
    exact List.pairwise_map.2 (hindices.imp fun hne =>
      apart_of_token_ne keyword fun heq => hne (Pointer.indexToken_injective heq))
  · exact List.Pairwise.nil

lemma pairwise_singleIn (keywords : Entries Json) (keyword : String) :
    (singleIn keywords keyword).Pairwise fun first second => Apart first.1 second.1 := by
  unfold singleIn
  split
  · exact List.pairwise_singleton _ _
  · exact List.Pairwise.nil

/-- **The ways into a schema lie apart.**  Only `items` may take one schema as well as a list of them, and
its argument cannot be both. -/
lemma pairwise_inside (hwf : (object keywords).WellFormed) :
    (inside keywords).Pairwise fun first second => Apart first.1 second.1 := by
  have hnamed := pairwise_flatMap_keywords mapKeywords (by decide)
    (fun _ _ => head_of_mem_namedIn) (pairwise_namedIn hwf)
  have hlisted := pairwise_flatMap_keywords listKeywords (by decide)
    (fun _ _ h => (head_of_mem_listedIn h).1) (pairwise_listedIn keywords)
  have hsingle := pairwise_flatMap_keywords singleKeywords (by decide)
    (fun _ _ h => (head_of_mem_singleIn h).1) (pairwise_singleIn keywords)
  have hmap : ∀ keyword ∈ mapKeywords, keyword ∉ listKeywords ∧ keyword ∉ singleKeywords := by decide
  rw [inside_eq]
  refine List.pairwise_append.2 ⟨List.pairwise_append.2 ⟨hnamed, hlisted, ?_⟩, hsingle, ?_⟩
  · intro first hfirst second hsecond
    obtain ⟨keyword, hkeyword, hfirst⟩ := List.mem_flatMap.1 hfirst
    obtain ⟨other, hother, hsecond⟩ := List.mem_flatMap.1 hsecond
    refine apart_of_head_ne (head_of_mem_namedIn hfirst) (head_of_mem_listedIn hsecond).1 ?_
    rintro rfl
    exact (hmap keyword hkeyword).1 hother
  · intro first hfirst second hsecond
    obtain ⟨other, hother, hsecond⟩ := List.mem_flatMap.1 hsecond
    obtain ⟨hhead, schema, hschema⟩ := head_of_mem_singleIn hsecond
    rcases List.mem_append.1 hfirst with hfirst | hfirst
    · obtain ⟨keyword, hkeyword, hfirst⟩ := List.mem_flatMap.1 hfirst
      refine apart_of_head_ne (head_of_mem_namedIn hfirst) hhead ?_
      rintro rfl
      exact (hmap keyword hkeyword).2 hother
    · obtain ⟨keyword, -, hfirst⟩ := List.mem_flatMap.1 hfirst
      obtain ⟨hhead', schemas, hschemas⟩ := head_of_mem_listedIn hfirst
      refine apart_of_head_ne hhead' hhead ?_
      rintro rfl
      simp [hschema] at hschemas

/-! ## The order of the walk -/

/-- What is met in a schema lies at the end of a way that goes on from its own. -/
lemma exists_way_of_mem_subschemasWithin {levels : ℕ} {base : List String} {value : Json}
    {entry : Pointer × Entries Json}
    (h : entry ∈ subschemasWithin levels (Pointer.join (Pointer.join "" base) tokens) value) :
    ∃ path, entry.1 = Pointer.join "" (base ++ (tokens ++ path)) := by
  obtain ⟨path, -, hpointer⟩ := exists_of_mem_subschemasWithin h
  exact ⟨path, by rw [hpointer, ← Pointer.join_append, ← Pointer.join_append]⟩

/-- The walk comes to nothing at or above a place where it has been. -/
lemma pairwise_subschemasWithin {value : Json} (hwf : value.WellFormed) (levels : ℕ) (base : List String) :
    (subschemasWithin levels (Pointer.join "" base) value).Pairwise fun earlier later =>
      Pointer.hasPrefix earlier.1 later.1 = false := by
  induction levels generalizing value base with
  | zero => exact List.Pairwise.nil
  | succ levels ih =>
    cases value with
    | object keywords =>
      refine List.pairwise_cons.2 ⟨?_, List.pairwise_flatMap.2 ⟨?_, ?_⟩⟩
      -- The schema itself lies above all that is in it.
      · intro entry hentry
        obtain ⟨⟨tokens, value⟩, hinside, hentry⟩ := List.mem_flatMap.1 hentry
        obtain ⟨path, hpath⟩ := exists_way_of_mem_subschemasWithin hentry
        rw [Bool.eq_false_iff, Ne, hpath, Pointer.hasPrefix_join]
        intro hprefix
        have hlength := hprefix.length_le
        have htokens := length_pos_of_mem_inside hinside
        simp only [List.length_append] at hlength
        omega
      -- In one of the schemas in it, the walk goes on in the same way.
      · rintro ⟨tokens, value⟩ hinside
        dsimp only
        rw [← Pointer.join_append]
        exact ih (wellFormed_of_walk? hwf (walk?_of_mem_inside hwf hinside)) (base ++ tokens)
      -- Two of them lie apart, and so does what is in them.
      · refine (pairwise_inside hwf).imp fun {first second} hapart earlier hearlier later hlater => ?_
        obtain ⟨path, hpath⟩ := exists_way_of_mem_subschemasWithin hearlier
        obtain ⟨more, hmore⟩ := exists_way_of_mem_subschemasWithin hlater
        rw [Bool.eq_false_iff, Ne, hpath, hmore, Pointer.hasPrefix_join, List.prefix_append_right_inj]
        exact hapart.append path more
    | _ => exact List.Pairwise.nil

/-- A set of positions with the root, if that is a schema, and with all that its schemas enclose. -/
structure ClosedInward (document : Json) (positions : Set Pointer) : Prop where
  root : document.isObject = true → "" ∈ positions
  enclosed : ∀ pointer ∈ positions, ∀ keywords tokens inner,
    document.resolve? pointer = some (.object keywords) → Encloses keywords tokens inner →
      Pointer.join pointer tokens ∈ positions

lemma resolve?_join_root (document : Json) (path : List String) :
    document.resolve? (Pointer.join "" path) = document.walk? path :=
  resolve?_join document "" path

/-- A closed set has all subschemas. -/
lemma ClosedInward.mem_of_holds {positions : Set Pointer} (h : ClosedInward document positions)
    (hwf : document.WellFormed) {value : Json} (hholds : value.Holds path inner) (base : List String)
    (hwalk : document.walk? base = some value)
    (hbase : value.isObject = true → Pointer.join "" base ∈ positions) :
    Pointer.join "" (base ++ path) ∈ positions := by
  induction hholds generalizing base with
  | self =>
    rw [List.append_nil]
    exact hbase rfl
  | @step keywords tokens value path inner hinside _ ih =>
    have hvalue := walk?_of_mem_inside (wellFormed_of_walk? hwf hwalk) hinside
    rw [← List.append_assoc]
    refine ih (base ++ tokens) (by rw [walk?_append, hwalk, Option.bind_some, hvalue]) fun hobject => ?_
    cases value with
    | object below =>
      rw [Pointer.join_append]
      exact h.enclosed _ (hbase rfl) keywords tokens below ((resolve?_join_root _ _).trans hwalk)
        (encloses_iff.2 hinside)
    | _ => simp [isObject] at hobject

/-- What has been visited, if that is each subschema of a document once, and schemas before those in them. -/
structure Thorough (document : Json) (visited : List (Pointer × Entries Json)) : Prop where
  /-- No pointer comes up twice. -/
  distinct : (visited.map Prod.fst).Nodup
  /-- Pointers lead to what is visited. -/
  resolves : ∀ entry ∈ visited, document.resolve? entry.1 = some (.object entry.2)
  /-- Before a schema inside the document, the one that it stands in has been visited. -/
  enclosed : ∀ before entry after, visited = before ++ entry :: after →
    entry.1 = "" ∨ ∃ outer ∈ before, ∃ tokens, Encloses outer.2 tokens entry.2
      ∧ entry.1 = Pointer.join outer.1 tokens
  /-- Nothing at or above a position is visited after it. -/
  inward : visited.Pairwise fun earlier later => Pointer.hasPrefix earlier.1 later.1 = false
  /-- The positions are those that there have to be, and no others. -/
  least : IsLeast {positions | ClosedInward document positions} {pointer | pointer ∈ visited.map Prod.fst}

/-- What is at or above something that is visited, and is something else, has been visited before. -/
lemma mem_before {visited before after : List (Pointer × Entries Json)}
    {entry outer : Pointer × Entries Json}
    (hinward : visited.Pairwise fun earlier later => Pointer.hasPrefix earlier.1 later.1 = false)
    (hvisited : visited = before ++ entry :: after) (houter : outer ∈ visited) (hne : outer ≠ entry)
    (habove : Pointer.hasPrefix entry.1 outer.1 = true) : outer ∈ before := by
  rw [hvisited, List.pairwise_append, List.pairwise_cons] at hinward
  rw [hvisited, List.mem_append, List.mem_cons] at houter
  rcases houter with hbefore | heq | hafter
  · exact hbefore
  · exact absurd heq hne
  · have hnot := hinward.2.1.1 outer hafter
    rw [habove] at hnot
    simp at hnot

/-- Before a schema inside the document, the one that it stands in has been visited. -/
lemma exists_mem_before (hwf : document.WellFormed) {before after : List (Pointer × Entries Json)}
    {entry : Pointer × Entries Json} (hvisited : document.subschemas = before ++ entry :: after) :
    entry.1 = "" ∨ ∃ outer ∈ before, ∃ tokens, Encloses outer.2 tokens entry.2
      ∧ entry.1 = Pointer.join outer.1 tokens := by
  have hentry : entry ∈ document.subschemas := by simp [hvisited]
  obtain ⟨path, hholds, hpointer⟩ := mem_subschemas.1 hentry
  rcases hholds.cases_last with ⟨rfl, -⟩ | ⟨above, outer, tokens, habove, hencloses, rfl⟩
  · exact Or.inl hpointer
  · refine Or.inr ⟨(Pointer.join "" above, outer), ?_, tokens, hencloses,
      by rw [hpointer, Pointer.join_append]⟩
    refine mem_before (pairwise_subschemasWithin hwf document.depth []) hvisited
      (mem_subschemas.2 ⟨above, habove, rfl⟩) (fun heq => ?_) ?_
    · have hpath : above = above ++ tokens :=
        Pointer.join_root_injective ((congrArg Prod.fst heq).trans hpointer)
      have htokens := length_pos_of_mem_inside (encloses_iff.1 hencloses)
      rw [List.self_eq_append_right.1 hpath] at htokens
      exact absurd htokens (Nat.lt_irrefl 0)
    · rw [hpointer, Pointer.hasPrefix_join]
      exact List.prefix_append above tokens

lemma mem_map_subschemas : pointer ∈ document.subschemas.map Prod.fst
    ↔ ∃ path keywords, document.Holds path keywords ∧ pointer = Pointer.join "" path := by
  constructor
  · intro hpointer
    obtain ⟨entry, hentry, rfl⟩ := List.mem_map.1 hpointer
    obtain ⟨path, hholds, hpointer⟩ := mem_subschemas.1 hentry
    exact ⟨path, entry.2, hholds, hpointer⟩
  · rintro ⟨path, keywords, hholds, rfl⟩
    exact List.mem_map.2 ⟨(_, keywords), mem_subschemas.2 ⟨path, hholds, rfl⟩, rfl⟩

/-- The positions of the subschemas are closed inward. -/
lemma closedInward_subschemas (hwf : document.WellFormed) :
    ClosedInward document {pointer | pointer ∈ document.subschemas.map Prod.fst} where
  root := by
    intro hobject
    cases document with
    | object keywords => exact mem_map_subschemas.2 ⟨[], keywords, .self, rfl⟩
    | _ => simp [isObject] at hobject
  enclosed := by
    intro pointer hpointer keywords tokens inner hvalue hencloses
    obtain ⟨path, outer, hholds, rfl⟩ := mem_map_subschemas.1 hpointer
    rw [resolve?_join_root, hholds.walk? hwf] at hvalue
    obtain rfl := object.inj (Option.some.inj hvalue)
    exact mem_map_subschemas.2
      ⟨path ++ tokens, inner, hholds.trans hencloses.holds, (Pointer.join_append _ _ _).symm⟩

/-- **The walk is thorough.** -/
lemma thorough_subschemas (hwf : document.WellFormed) : document.Thorough document.subschemas := by
  have hinward : document.subschemas.Pairwise fun earlier later =>
      Pointer.hasPrefix earlier.1 later.1 = false := pairwise_subschemasWithin hwf document.depth []
  refine ⟨?_, fun entry hentry => ?_, fun _ _ _ => exists_mem_before hwf, hinward,
    closedInward_subschemas hwf, fun positions hpositions pointer hpointer => ?_⟩
  · refine List.pairwise_map.2 (hinward.imp fun {earlier later} hprefix heq => ?_)
    rw [heq] at hprefix
    simp [Pointer.hasPrefix] at hprefix
  · obtain ⟨path, hholds, hpointer⟩ := mem_subschemas.1 hentry
    rw [hpointer, resolve?_join_root, hholds.walk? hwf]
  · obtain ⟨path, keywords, hholds, rfl⟩ := mem_map_subschemas.1 hpointer
    exact hpositions.mem_of_holds hwf hholds [] rfl hpositions.root

/-! ## Tours -/

/-- Goes over the subschemas of a value that stands at a pointer, and calls a visitor at each of them. -/
def tourFrom {m : Type → Type} [Monad m] (visitor : Pointer → Entries Json → m Unit) :
    Pointer → Json → m Unit
  | pointer, .object keywords => do
    visitor pointer keywords
    (inside keywords).attach.forM fun ⟨(tokens, value), _⟩ =>
      tourFrom visitor (Pointer.join pointer tokens) value
  | _, _ => pure ()
termination_by _ value => value.depth
decreasing_by
  rename_i hinside
  exact depth_lt_of_mem_inside hinside

/-- Goes over the subschemas of a document. -/
def tour {m : Type → Type} [Monad m] (document : Json) (visitor : Pointer → Entries Json → m Unit) :
    m Unit :=
  tourFrom visitor "" document

section

variable {m : Type → Type} [Monad m] [LawfulMonad m]

lemma forM_flatMap {α β : Type} (next : α → List β) (visit : β → m Unit) (items : List α) :
    (items.flatMap next).forM visit = items.forM fun a => (next a).forM visit := by
  induction items with
  | nil => rfl
  | cons a items ih =>
    simp only [List.forM_eq_forM] at ih
    simp only [List.flatMap_cons, List.forM_eq_forM, List.forM_append, List.forM_cons, ih]

lemma forM_attach {α : Type} (visit : α → m Unit) (items : List α) :
    (items.attach.forM fun a => visit a.1) = items.forM visit := by
  have hmap : forM (items.attach.map Subtype.val) visit = forM items.attach fun a => visit a.1 :=
    List.forM_map
  rw [List.attach_map_subtype_val] at hmap
  exact hmap.symm

lemma tourFrom_eq (visitor : Pointer → Entries Json → m Unit) {levels : ℕ} {value : Json}
    (hlevels : value.depth ≤ levels) (pointer : Pointer) :
    tourFrom visitor pointer value
      = (subschemasWithin levels pointer value).forM fun entry => visitor entry.1 entry.2 := by
  fun_induction tourFrom visitor pointer value generalizing levels with
  | case1 pointer keywords ih =>
    obtain ⟨fewer, rfl⟩ := Nat.exists_eq_succ_of_ne_zero
      (Nat.pos_iff_ne_zero.1 (Nat.lt_of_lt_of_le (Nat.succ_pos _) hlevels))
    set call : Pointer × Entries Json → m Unit := fun entry => visitor entry.1 entry.2
    set below : List String × Json → List (Pointer × Entries Json) :=
      fun entry => subschemasWithin fewer (Pointer.join pointer entry.1) entry.2
    calc (do
          visitor pointer keywords
          (inside keywords).attach.forM fun ⟨(tokens, value), _⟩ =>
            tourFrom visitor (Pointer.join pointer tokens) value)
      _ = (do
          visitor pointer keywords
          (inside keywords).attach.forM fun entry => (below entry.1).forM call) := by
        congr with _
        congr with ⟨⟨tokens, value⟩, hinside⟩
        exact ih tokens value hinside
          (Nat.le_of_lt_succ (Nat.lt_of_lt_of_le (depth_lt_of_mem_inside hinside) hlevels))
      _ = (do
          visitor pointer keywords
          ((inside keywords).flatMap below).forM call) := by
        rw [forM_attach fun entry => (below entry).forM call, forM_flatMap]
      _ = _ := rfl
  | case2 pointer value hvalue =>
    have hnone : subschemasWithin levels pointer value = [] := by
      cases value with
      | object keywords => exact absurd rfl (hvalue keywords)
      | _ => cases levels <;> rfl
    rw [hnone]
    rfl

/-- **A tour calls its visitor with the subschemas**, one after the other. -/
lemma tour_eq (document : Json) (visitor : Pointer → Entries Json → m Unit) :
    document.tour visitor = document.subschemas.forM fun entry => visitor entry.1 entry.2 :=
  tourFrom_eq visitor (Nat.le_refl _) ""

end

end Json

/-- **The check of names** is a tour. -/
lemma Fragment.checkNames_eq_tour (schema : Fragment) (options : Options) (registry : Registry) :
    schema.checkNames options registry = schema.json.tour (fun pointer keywords => do
      checkClasses registry pointer keywords
      schema.checkTransforms options pointer keywords) := by
  rw [Json.tour_eq]
  rfl

namespace Plan

/-- Fails over what has been found. -/
def refuse {ε : Type} : Option ε → Except ε Unit
  | some error => .error error
  | none => .ok ()

lemma forM_refuse {α ε : Type} (fault : α → Option ε) (items : List α) :
    (items.forM fun a => refuse (fault a)) = refuse (items.findSome? fault) := by
  induction items with
  | nil => rfl
  | cons a items ih =>
    have hcons : ((a :: items).forM fun a => refuse (fault a))
        = refuse (fault a) >>= fun _ => items.forM fun a => refuse (fault a) := rfl
    rw [hcons, ih, List.findSome?_cons]
    cases fault a <;> rfl

/-- A tour that is to fail at certain subschemas fails at the first of them. -/
lemma tour_refuse {ε : Type} (document : Json) (p : Entries Json → Bool) (error : Pointer → ε) :
    (document.tour fun pointer keywords => refuse (if p keywords then some (error pointer) else none))
      = refuse ((document.subschemas.find? fun entry => p entry.2).map fun entry => error entry.1) := by
  rw [Json.tour_eq, forM_refuse]
  congr 1
  induction document.subschemas with
  | nil => rfl
  | cons entry rest ih =>
    rw [List.findSome?_cons, List.find?_cons]
    cases p entry.2 with
    | true => rfl
    | false => exact ih

/-- **The search for transforms that never run** makes a tour of everything that no value is handed on to. -/
lemma refuse_misplaced? (pointer : Pointer) (keywords : Entries Json) :
    refuse (misplaced? pointer keywords) = (unvisited pointer keywords).forM fun (root, value) =>
      value.tour fun inner subschema =>
        refuse (if Entries.contains "transform" subschema then some (root ++ inner) else none) := by
  rw [misplaced?, ← forM_refuse]
  congr with ⟨root, value⟩
  exact (tour_refuse value (Entries.contains "transform") (root ++ ·)).symm

end Plan

/-! ## Visitors -/

/-- A visitor may fail, and may keep a state. -/
abbrev Visitor (ε σ : Type) := Pointer → Entries Json → ExceptT ε (StateM σ) Unit

namespace Visitor

variable {ε σ : Type}

/-- One call of a visitor, with its answer. -/
structure Call (ε : Type) where
  /-- Where the visitor is told that it is. -/
  pointer : Pointer
  /-- The keywords that it is shown. -/
  keywords : Entries Json
  /-- Whether it fails. -/
  answer : Except ε Unit

/-- What the visitor was called with. -/
def Call.entry (call : Call ε) : Pointer × Entries Json :=
  (call.pointer, call.keywords)

/-- The visitor does not fail, wherever it is called. -/
def NeverFails (visitor : Visitor ε σ) : Prop :=
  ∀ pointer keywords state, ((visitor pointer keywords).run.run state).1 = .ok ()

/-- The visitor, with a list of its calls besides its state. -/
def noting (visitor : Visitor ε σ) : Visitor ε (List (Call ε) × σ) :=
  fun pointer keywords => ExceptT.mk fun (calls, state) =>
    let (answer, left) := (visitor pointer keywords).run.run state
    (answer, calls ++ [⟨pointer, keywords, answer⟩], left)

/-- The calls of a visitor with subschemas, one after the other.  They end with the first that fails. -/
inductive Goes (visitor : Visitor ε σ) :
    σ → List (Pointer × Entries Json) → List (Call ε) → Except ε Unit → σ → Prop
  | done {state} : Goes visitor state [] [] (.ok ()) state
  | fails {state left pointer keywords rest error} :
      (visitor pointer keywords).run.run state = (.error error, left) →
      Goes visitor state ((pointer, keywords) :: rest) [⟨pointer, keywords, .error error⟩]
        (.error error) left
  | passes {state next left pointer keywords rest calls outcome} :
      (visitor pointer keywords).run.run state = (.ok (), next) →
      Goes visitor next rest calls outcome left →
      Goes visitor state ((pointer, keywords) :: rest) (⟨pointer, keywords, .ok ()⟩ :: calls) outcome left

lemma exists_goes (visitor : Visitor ε σ) (entries : List (Pointer × Entries Json)) (state : σ) :
    ∃ calls outcome left, visitor.Goes state entries calls outcome left := by
  induction entries generalizing state with
  | nil => exact ⟨[], .ok (), state, .done⟩
  | cons entry rest ih =>
    obtain ⟨pointer, keywords⟩ := entry
    cases hcall : (visitor pointer keywords).run.run state with
    | mk answer next =>
      cases answer with
      | error error => exact ⟨_, _, next, .fails hcall⟩
      | ok _ =>
        obtain ⟨calls, outcome, left, hrest⟩ := ih next
        exact ⟨_, outcome, left, .passes hcall hrest⟩

lemma run_cons (visitor : Visitor ε σ) (entry : Pointer × Entries Json)
    (rest : List (Pointer × Entries Json)) (state : σ) :
    ((entry :: rest).forM fun entry => visitor entry.1 entry.2).run.run state
      = match (visitor entry.1 entry.2).run.run state with
        | (.error error, left) => (.error error, left)
        | (.ok _, next) => (rest.forM fun entry => visitor entry.1 entry.2).run.run next := by
  have hcons : ((entry :: rest).forM fun entry => visitor entry.1 entry.2)
      = visitor entry.1 entry.2 >>= fun _ => rest.forM fun entry => visitor entry.1 entry.2 := rfl
  rw [hcons, ExceptT.run_bind, StateT.run_bind]
  cases hcall : (visitor entry.1 entry.2).run.run state with
  | mk answer next => cases answer <;> rfl

lemma run_noting_of {visitor : Visitor ε σ} {pointer : Pointer} {keywords : Entries Json} {state left : σ}
    {answer : Except ε Unit} (h : (visitor pointer keywords).run.run state = (answer, left))
    (calls : List (Call ε)) : (visitor.noting pointer keywords).run.run (calls, state)
      = (answer, calls ++ [⟨pointer, keywords, answer⟩], left) := by
  have hnoting : (visitor.noting pointer keywords).run.run (calls, state)
      = let (answer, left) := (visitor pointer keywords).run.run state
        (answer, calls ++ [⟨pointer, keywords, answer⟩], left) := rfl
  rw [hnoting, h]

namespace Goes

variable {visitor : Visitor ε σ} {state left : σ} {entries : List (Pointer × Entries Json)}
  {calls : List (Call ε)} {outcome : Except ε Unit}

lemma run (h : visitor.Goes state entries calls outcome left) :
    (entries.forM fun entry => visitor entry.1 entry.2).run.run state = (outcome, left) := by
  induction h with
  | done => rfl
  | fails hcall => rw [run_cons, hcall]
  | passes hcall _ ih =>
    rw [run_cons, hcall]
    exact ih

/-- What is noted are the calls. -/
lemma run_noting (h : visitor.Goes state entries calls outcome left) (before : List (Call ε)) :
    (entries.forM fun entry => visitor.noting entry.1 entry.2).run.run (before, state)
      = (outcome, before ++ calls, left) := by
  induction h generalizing before with
  | done => rw [List.append_nil]; rfl
  | fails hcall => rw [run_cons, run_noting_of hcall]
  | passes hcall _ ih =>
    rw [run_cons, run_noting_of hcall]
    exact (ih _).trans (by rw [List.append_assoc]; rfl)

/-- The subschemas are visited in their order. -/
lemma isPrefix (h : visitor.Goes state entries calls outcome left) : calls.map Call.entry <+: entries := by
  induction h with
  | done => exact List.prefix_rfl
  | fails => exact List.cons_prefix_cons.2 ⟨rfl, List.nil_prefix⟩
  | passes _ _ ih => exact List.cons_prefix_cons.2 ⟨rfl, ih⟩

/-- If no call fails, all subschemas are visited. -/
lemma map_entry_eq (h : visitor.Goes state entries calls outcome left) (hok : outcome = .ok ()) :
    calls.map Call.entry = entries := by
  induction h with
  | done => rfl
  | fails => cases hok
  | passes _ _ ih => exact congrArg _ (ih hok)

/-- A call that fails is the last, and decides the outcome. -/
lemma last_of_error (h : visitor.Goes state entries calls outcome left) {before after : List (Call ε)}
    {call : Call ε} {error : ε} (hcalls : calls = before ++ call :: after)
    (herror : call.answer = .error error) : after = [] ∧ outcome = .error error := by
  induction h generalizing before with
  | done => simp at hcalls
  | fails =>
    rcases List.cons_eq_append_iff.1 hcalls with ⟨rfl, hcall⟩ | ⟨rest, rfl, hrest⟩
    · obtain ⟨rfl, rfl⟩ := List.cons.inj hcall
      exact ⟨rfl, herror⟩
    · simp at hrest
  | passes _ _ ih =>
    rcases List.cons_eq_append_iff.1 hcalls with ⟨rfl, hcall⟩ | ⟨rest, rfl, hrest⟩
    · obtain ⟨rfl, rfl⟩ := List.cons.inj hcall
      cases herror
    · exact ih hrest

/-- An outcome that is a failure is that of a call. -/
lemma exists_of_error (h : visitor.Goes state entries calls outcome left) {error : ε}
    (herror : outcome = .error error) : ∃ call ∈ calls, call.answer = .error error := by
  induction h with
  | done => cases herror
  | fails => exact ⟨_, List.mem_cons_self, herror⟩
  | passes _ _ ih =>
    obtain ⟨call, hcall, hanswer⟩ := ih herror
    exact ⟨call, List.mem_cons_of_mem _ hcall, hanswer⟩

lemma outcome_of_neverFails (h : visitor.Goes state entries calls outcome left)
    (hnever : visitor.NeverFails) : outcome = .ok () := by
  induction h with
  | done => rfl
  | @fails state _ pointer keywords _ _ hcall =>
    have hok := hnever pointer keywords state
    rw [hcall] at hok
    cases hok
  | passes _ _ ih => exact ih

end Goes

end Visitor

namespace Json

/-- **Each subschema is visited once, at its own pointer.**  Calls are noted as they are made, which changes
nothing else.  A visitor that never fails is called thoroughly, at all subschemas that are listed.  Any
visitor is called at these, in this order, until it fails: that is the last call, and the outcome of the
tour. -/
theorem tour_visits_each_once {ε σ : Type} {document : Json} (hwf : document.WellFormed)
    (visitor : Visitor ε σ) (state : σ) :
    (document.tour visitor = document.subschemas.forM fun entry => visitor entry.1 entry.2)
      ∧ ∃ outcome calls left,
        (document.tour visitor.noting).run.run ([], state) = (outcome, calls, left)
          ∧ (document.tour visitor).run.run state = (outcome, left)
          ∧ (visitor.NeverFails → outcome = .ok () ∧ calls.map Visitor.Call.entry = document.subschemas
            ∧ document.Thorough (calls.map Visitor.Call.entry))
          ∧ calls.map Visitor.Call.entry <+: document.subschemas
          ∧ (∀ error, outcome = .error error ↔ ∃ call ∈ calls, call.answer = .error error)
          ∧ ∀ before call after error, calls = before ++ call :: after → call.answer = .error error →
            after = [] := by
  obtain ⟨calls, outcome, left, hgoes⟩ := visitor.exists_goes document.subschemas state
  refine ⟨tour_eq document visitor, outcome, calls, left, ?_, ?_, fun hnever => ?_, hgoes.isPrefix,
    fun error => ⟨hgoes.exists_of_error, ?_⟩, fun before call after error hcalls hanswer => ?_⟩
  · rw [tour_eq]
    exact hgoes.run_noting []
  · rw [tour_eq]
    exact hgoes.run
  · have hok := hgoes.outcome_of_neverFails hnever
    have hall := hgoes.map_entry_eq hok
    rw [hall]
    exact ⟨hok, rfl, thorough_subschemas hwf⟩
  · rintro ⟨call, hcall, hanswer⟩
    obtain ⟨before, after, hcalls⟩ := List.append_of_mem hcall
    exact (hgoes.last_of_error hcalls hanswer).2
  · exact (hgoes.last_of_error hcalls hanswer).1

/-- A document with schemas under names, in lists and as arguments, and with values that are none. -/
def nestedDocument : Json :=
  .object
    [("anyOf", .array [.object [("type", .string "null")], .bool true]),
      ("definitions", .object [("x", .object [("additionalProperties", .object [])])]),
      ("items", .array [.object [], .object []]),
      ("not", .object [("enum", .array [.object [("type", .string "object")]])]),
      ("properties", .object [("a/b", .object [("items", .object [("type", .string "string")])])])]

/-- Counts its calls, and fails at the pointer that is given, if any. -/
def counting (last? : Option Pointer) : Visitor Pointer ℕ :=
  fun pointer _ => do
    modify (· + 1)
    if last? = some pointer then throw pointer

/-- The tour has nine calls, and one that fails at the definition has four. -/
theorem nestedDocument_visited :
    nestedDocument.WellFormed ∧ (counting none).NeverFails
      ∧ (∃ calls, (nestedDocument.tour (counting none).noting).run.run ([], 0) = (.ok (), calls, 9)
        ∧ calls.map Visitor.Call.pointer
          = ["", "/properties/a~1b", "/properties/a~1b/items", "/definitions/x",
            "/definitions/x/additionalProperties", "/anyOf/0", "/items/0", "/items/1", "/not"]
        ∧ nestedDocument.Thorough (calls.map Visitor.Call.entry))
      ∧ ∃ before last, (nestedDocument.tour (counting (some "/definitions/x")).noting).run.run ([], 0)
          = (.error "/definitions/x", before ++ [last], 4)
        ∧ (before ++ [last]).map Visitor.Call.pointer
          = ["", "/properties/a~1b", "/properties/a~1b/items", "/definitions/x"]
        ∧ last.answer = .error "/definitions/x" := by
  have hwf : nestedDocument.WellFormed := by decide
  have hnever : (counting none).NeverFails := fun _ _ _ => rfl
  refine ⟨hwf, hnever, ?_, ?_⟩
  · obtain ⟨-, outcome, calls, left, hnoting, -, hall, -⟩ := tour_visits_each_once hwf (counting none) 0
    obtain ⟨rfl, -, hthorough⟩ := hall hnever
    have hrun := hnoting
    rw [tour_eq] at hrun
    obtain rfl : 9 = left := congrArg (fun result => result.2.2) hrun
    have hpointers := congrArg (fun result => result.2.1.map Visitor.Call.pointer) hrun
    exact ⟨calls, hnoting, hpointers.symm, hthorough⟩
  · obtain ⟨-, outcome, calls, left, hnoting, -, -, -, hfails, hlast⟩ :=
      tour_visits_each_once hwf (counting (some "/definitions/x")) 0
    have hrun := hnoting
    rw [tour_eq] at hrun
    obtain rfl : .error "/definitions/x" = outcome := congrArg Prod.fst hrun
    obtain rfl : 4 = left := congrArg (fun result => result.2.2) hrun
    have hpointers := congrArg (fun result => result.2.1.map Visitor.Call.pointer) hrun
    obtain ⟨last, hmem, hanswer⟩ := (hfails _).1 rfl
    obtain ⟨before, after, rfl⟩ := List.append_of_mem hmem
    obtain rfl := hlast before last after _ rfl hanswer
    exact ⟨before, last, hnoting, hpointers.symm, hanswer⟩

end Json

end SchemaAlgebra
