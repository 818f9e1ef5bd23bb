import SchemaAlgebra.Combinator.Union
import SchemaAlgebra.Proofs.Names

/-!
# What a fragment carries for its subschemas

A subschema is *sound* if what it names is legible, and the fragment carries the transforms it names.
Soundness is settled keyword by keyword: what stands beneath a keyword stays sound as long as the
argument of the keyword and the records beneath it stay (`Fragment.KeepsUnder`), and a keyword that takes
fragments has sound ones beneath it if those are sound (`Fragment.soundUnder_withChildren`,
`Fragment.soundUnder_withMembers`).

* `Fragment.Everywhere` — all subschemas are sound; `Fragment.Nested` — all but the schema itself.
* `Fragment.everywhere_of_checkNames` — where the check of names passes with nothing configured.
* `Fragment.Everywhere.at?` — what is taken out of such a fragment is such a fragment.
-/

namespace SchemaAlgebra

/-- What is under the keyword decides which names are looked up. -/
def IsNaming (keyword : String) : Prop :=
  keyword = "$ref" ∨ keyword = "instanceOf" ∨ keyword = "transform"

instance : DecidablePred IsNaming := fun keyword =>
  inferInstanceAs (Decidable (keyword = "$ref" ∨ keyword = "instanceOf" ∨ keyword = "transform"))

lemma IsNaming.ne {keyword other : String} (h : IsNaming keyword) (hother : ¬IsNaming other) :
    other ≠ keyword := by
  rintro rfl
  exact hother h

/-- A schema is legible, and the transforms that it names are `carried`. -/
structure Sound (known : String → Prop) (keywords : Entries Json)
    (carried : Option (Table Transform)) : Prop where
  legible : Legible known keywords
  carries : ∀ name ∈ namedTransforms keywords,
    ∃ table, carried = some table ∧ table.contains name = true

section
variable {known : String → Prop} {keywords others : Entries Json}
  {carried : Option (Table Transform)}

lemma Legible.of_lookup (h : Legible known keywords)
    (hkeeps : ∀ keyword argument, IsNaming keyword → Entries.lookup keyword others = some argument →
      Entries.lookup keyword keywords = some argument) : Legible known others where
  refFree := by
    by_contra href
    obtain ⟨argument, hargument⟩ := Option.ne_none_iff_exists'.1 href
    have hkept := hkeeps _ _ (Or.inl rfl) hargument
    simp [h.refFree] at hkept
  classes := fun argument hargument =>
    h.classes argument (hkeeps _ _ (Or.inr (Or.inl rfl)) hargument)
  transforms := fun argument hargument =>
    h.transforms argument (hkeeps _ _ (Or.inr (Or.inr rfl)) hargument)

lemma Sound.of_lookup (h : Sound known keywords carried)
    (hkeeps : ∀ keyword, IsNaming keyword →
      Entries.lookup keyword others = Entries.lookup keyword keywords) : Sound known others carried where
  legible := h.legible.of_lookup fun keyword _ hnaming hargument =>
    (hkeeps keyword hnaming).symm.trans hargument
  carries := fun name hname => h.carries name <| by
    rwa [namedTransforms, hkeeps "transform" (Or.inr (Or.inr rfl))] at hname

/-- A schema that says nothing about references, classes and transforms is sound. -/
lemma sound_of_silent (href : Entries.lookup "$ref" keywords = none)
    (hclasses : Entries.lookup "instanceOf" keywords = none)
    (htransforms : Entries.lookup "transform" keywords = none) : Sound known keywords carried where
  legible := ⟨href, by simp [hclasses], by simp [htransforms]⟩
  carries := by simp [namedTransforms, htransforms]

/-- What names no transform is sound whatever is carried. -/
lemma Sound.of_none (h : Sound known keywords none) : Sound known keywords carried where
  legible := h.legible
  carries := fun name hname => by
    obtain ⟨table, htable, -⟩ := h.carries name hname
    simp at htable

lemma Legible.mono {known' : String → Prop} (h : Legible known keywords)
    (hknown : ∀ name, known name → known' name) : Legible known' keywords where
  refFree := h.refFree
  classes := fun argument hargument => by
    obtain ⟨names, hnames, hall⟩ := h.classes argument hargument
    exact ⟨names, hnames, fun name hname => hknown name (hall name hname)⟩
  transforms := h.transforms

lemma Sound.mono {known' : String → Prop} (h : Sound known keywords carried)
    (hknown : ∀ name, known name → known' name) : Sound known' keywords carried where
  legible := h.legible.mono hknown
  carries := h.carries

end

namespace Json

/-- A keyword that takes no schemas has none inside. -/
lemma insideOf_of_not_mem {keyword : String}
    (h : keyword ∉ mapKeywords ++ listKeywords ++ singleKeywords) (argument : Json) :
    insideOf keyword argument = [] := by
  simp only [List.mem_append, not_or] at h
  cases argument <;> simp [insideOf, h]

end Json

namespace Fragment

variable {known : String → Prop} {f g child : Fragment} {keyword : String}

/-! ## Soundness, keyword by keyword -/

/-- The subschemas beneath a keyword are sound. -/
def SoundUnder (known : String → Prop) (f : Fragment) (keyword : String) : Prop :=
  ∀ argument tokens value rest inner, Entries.lookup keyword f.keywords = some argument →
    (tokens, value) ∈ Json.insideOf keyword argument → value.Holds rest inner →
      Sound known inner (f.transformsOn (tokens ++ rest))

/-- The subschemas inside the fragment are sound. -/
def Nested (known : String → Prop) (f : Fragment) : Prop :=
  ∀ keyword, f.SoundUnder known keyword

/-- All subschemas are sound. -/
structure Everywhere (known : String → Prop) (f : Fragment) : Prop where
  root : Sound known f.keywords (f.transformsOn [])
  nested : f.Nested known

lemma Everywhere.sound (h : f.Everywhere known) {path : List String} {inner : Entries Json}
    (hholds : f.json.Holds path inner) : Sound known inner (f.transformsOn path) := by
  rcases hholds.cases_keyword with ⟨rfl, rfl⟩ | ⟨keyword, argument, tokens, value, rest, hargument,
    hinside, hrest, rfl⟩
  · exact h.root
  · exact h.nested keyword argument tokens value rest inner hargument hinside hrest

lemma everywhere_of_sound
    (h : ∀ path inner, f.json.Holds path inner → Sound known inner (f.transformsOn path)) :
    f.Everywhere known where
  root := h [] _ .self
  nested := fun _ _ _ _ _ _ hargument hinside hrest =>
    h _ _ (Json.Holds.of_keyword hargument hinside hrest)

lemma Everywhere.mono {known' : String → Prop} (h : f.Everywhere known)
    (hknown : ∀ name, known name → known' name) : f.Everywhere known' :=
  everywhere_of_sound fun _ _ hholds => (h.sound hholds).mono hknown

lemma Everywhere.of_nested (h : f.Everywhere known) (hnested : g.Nested known)
    (hroot : g.root? = f.root?) (hkeeps : ∀ keyword, IsNaming keyword →
      Entries.lookup keyword g.keywords = Entries.lookup keyword f.keywords) :
    g.Everywhere known where
  root := by
    have hcarried : g.transformsOn [] = f.transformsOn [] :=
      congrArg (Option.bind · Metadata.transforms) hroot
    exact hcarried ▸ h.root.of_lookup hkeeps
  nested := hnested

/-- What `g` says under a keyword it has from `f`, and the records beneath it too. -/
def KeepsUnder (f g : Fragment) (keyword : String) : Prop :=
  ∀ argument, Entries.lookup keyword g.keywords = some argument →
    Entries.lookup keyword f.keywords = some argument
      ∧ ∀ path, path.head? = some keyword →
        g.recordAt? (Pointer.join "" path) = f.recordAt? (Pointer.join "" path)

lemma SoundUnder.of_keeps (h : f.SoundUnder known keyword) (hkeeps : KeepsUnder f g keyword) :
    g.SoundUnder known keyword := by
  intro argument tokens value rest inner hargument hinside hholds
  obtain ⟨hkept, hrecords⟩ := hkeeps argument hargument
  obtain ⟨more, rfl⟩ := Json.exists_tail_of_mem_insideOf hinside
  have hsame : g.transformsOn (keyword :: more ++ rest) = f.transformsOn (keyword :: more ++ rest) :=
    congrArg (Option.bind · Metadata.transforms) (hrecords _ rfl)
  exact hsame ▸ h argument _ value rest inner hkept hinside hholds

/-- What is directly beneath a keyword are some parts, which are carried along. -/
def EmbedsUnder (parts : List Fragment) (f : Fragment) (keyword : String) : Prop :=
  ∀ argument tokens value, Entries.lookup keyword f.keywords = some argument →
    (tokens, value) ∈ Json.insideOf keyword argument → ∃ part ∈ parts, value = part.json
      ∧ ∀ rest, f.transformsOn (tokens ++ rest) = part.transformsOn rest

/-- Beneath a keyword is as sound as the parts that are embedded there. -/
lemma EmbedsUnder.soundUnder {parts : List Fragment} (h : f.EmbedsUnder parts keyword)
    (hsound : ∀ part ∈ parts, part.Everywhere known) : f.SoundUnder known keyword := by
  intro argument tokens value rest inner hargument hmem hholds
  obtain ⟨part, hpart, rfl, hcarried⟩ := h argument tokens value hargument hmem
  exact hcarried rest ▸ (hsound part hpart).sound hholds

lemma EmbedsUnder.of_keeps {parts : List Fragment} (h : f.EmbedsUnder parts keyword)
    (hkeeps : KeepsUnder f g keyword) : g.EmbedsUnder parts keyword := by
  intro argument tokens value hargument hmem
  obtain ⟨hkept, hrecords⟩ := hkeeps argument hargument
  obtain ⟨part, hpart, hvalue, hcarried⟩ := h argument tokens value hkept hmem
  obtain ⟨more, rfl⟩ := Json.exists_tail_of_mem_insideOf hmem
  refine ⟨part, hpart, hvalue, fun rest => ?_⟩
  exact (congrArg (Option.bind · Metadata.transforms) (hrecords (keyword :: more ++ rest) rfl)).trans
    (hcarried rest)

/-- A keyword that takes no schemas has sound ones beneath it. -/
lemma soundUnder_of_not_mem
    (h : keyword ∉ Json.mapKeywords ++ Json.listKeywords ++ Json.singleKeywords) :
    f.SoundUnder known keyword := by
  intro argument tokens value rest inner _ hinside
  simp [Json.insideOf_of_not_mem h] at hinside

/-! ## Setting keywords -/

lemma keepsUnder_withKeyword {other : String} (h : other ≠ keyword) (value : Json) :
    KeepsUnder f (f.withKeyword other value) keyword := by
  intro argument hargument
  refine ⟨(Entries.lookup_insert_of_ne h _ _).symm.trans hargument, fun path hpath => ?_⟩
  exact lookup_withKeyword (by rw [hpath]; exact fun heq => h (Option.some.inj heq).symm) value

lemma lookup_withoutKeyword_keywords (other : String) :
    Entries.lookup keyword (f.withoutKeyword other).keywords
      = if keyword = other then none else Entries.lookup keyword f.keywords := by
  refine (Entries.lookup_filter (fun key => decide (key ≠ other)) f.keywords).trans ?_
  by_cases h : keyword = other <;> simp [h]

lemma keepsUnder_withoutKeyword (other : String) :
    KeepsUnder f (f.withoutKeyword other) keyword := by
  intro argument hargument
  rw [lookup_withoutKeyword_keywords] at hargument
  split at hargument
  · simp at hargument
  · rename_i hne
    refine ⟨hargument, fun path hpath => lookup_withoutKeyword ?_⟩
    rw [hpath]
    exact fun heq => hne (Option.some.inj heq)

lemma withRequired_eq (f : Fragment) (required : List Json) :
    (∃ value, f.withRequired required = f.withKeyword "required" value)
      ∨ f.withRequired required = f.withoutKeyword "required" := by
  unfold withRequired
  split
  · exact Or.inl ⟨_, rfl⟩
  · exact Or.inr rfl

lemma lookup_withRequired_keywords (h : keyword ≠ "required") (required : List Json) :
    Entries.lookup keyword (f.withRequired required).keywords = Entries.lookup keyword f.keywords := by
  rcases f.withRequired_eq required with ⟨value, heq⟩ | heq
  · exact heq ▸ Entries.lookup_insert_of_ne (Ne.symm h) _ _
  · rw [heq, lookup_withoutKeyword_keywords, if_neg h]

/-- The root lies beneath no keyword. -/
lemma head?_nil_ne (keyword : String) : ([] : List String).head? ≠ some keyword :=
  nofun

lemma root?_withRequired (f : Fragment) (required : List Json) :
    (f.withRequired required).root? = f.root? := by
  rcases f.withRequired_eq required with ⟨value, heq⟩ | heq
  · exact heq ▸ lookup_withKeyword (head?_nil_ne "required") value
  · exact heq ▸ lookup_withoutKeyword (head?_nil_ne "required")

lemma wellPlaced_withRequired (h : f.WellPlaced) (required : List Json) :
    (f.withRequired required).WellPlaced := by
  rcases f.withRequired_eq required with ⟨value, heq⟩ | heq
  · exact heq ▸ fun entry hentry => h entry (List.mem_filter.1 hentry).1
  · exact heq ▸ fun entry hentry => h entry (List.mem_filter.1 hentry).1

lemma Nested.withKeyword (h : f.Nested known) {other : String}
    (hother : other ∉ Json.mapKeywords ++ Json.listKeywords ++ Json.singleKeywords) (value : Json) :
    (f.withKeyword other value).Nested known := by
  intro keyword
  by_cases hkeyword : other = keyword
  · exact hkeyword ▸ soundUnder_of_not_mem hother
  · exact (h keyword).of_keeps (keepsUnder_withKeyword hkeyword value)

lemma Nested.withRequired (h : f.Nested known) (required : List Json) :
    (f.withRequired required).Nested known := by
  rcases f.withRequired_eq required with ⟨value, heq⟩ | heq
  · exact heq ▸ h.withKeyword (by decide) value
  · exact heq ▸ fun keyword => (h keyword).of_keeps (keepsUnder_withoutKeyword "required")

/-! ## Merging -/

lemma lookup_merged_keywords (hsorted : f.keywords.Sorted) (keyword : String) :
    Entries.lookup keyword (merged [f]).keywords
      = (Entries.lookup keyword f.keywords).filter fun value => !value.isNull := by
  have hmerge : (merged [f]).keywords = Entries.enter (Entries.trim f.keywords) [] := rfl
  have hnodup : ((Entries.trim f.keywords).map Prod.fst).Nodup :=
    Entries.nodup_of_sorted (hsorted.filter _)
  rw [hmerge, Entries.lookup_enter hnodup, Entries.lookup_nil, Option.or_none]
  exact Entries.lookup_filter_value (fun value : Json => !value.isNull)
    (Entries.nodup_of_sorted hsorted)

/-- One fragment merged keeps the keywords that are not `null`. -/
lemma keepsUnder_merged (hsorted : f.keywords.Sorted) : KeepsUnder f (merged [f]) keyword := by
  intro argument hargument
  rw [lookup_merged_keywords hsorted] at hargument
  obtain ⟨hkept, hnull⟩ := Option.filter_eq_some_iff.1 hargument
  have hkey : keyword ∈ Entries.keys (Entries.trim f.keywords) :=
    List.mem_map.2 ⟨_, List.mem_filter.2 ⟨Entries.mem_of_lookup hkept, hnull⟩, rfl⟩
  exact ⟨hkept, fun path hpath => by rw [lookup_merged, if_pos ⟨keyword, hkey, hpath⟩]⟩

/-- It has no record of its own. -/
lemma root?_merged (f : Fragment) : (merged [f]).root? = none := by
  refine (lookup_merged f []).trans (if_neg ?_)
  simp

/-! ## Embedding -/

lemma withChildren_eq (f : Fragment) (keyword : String) (children : List (String × Fragment)) :
    f.withChildren keyword children =
      { keywords := Entries.insert keyword
          (Json.ofMembers (children.map fun child => (child.1, child.2.json))) f.keywords
        records := adoptAll (Pointer.join "" [keyword]) (clearUnder f.records (keywordPointer keyword))
          children } :=
  rfl

/-- Of several children under one name the last one stands there. -/
lemma walk?_withChildren (f : Fragment) (keyword : String) (children : List (String × Fragment))
    (name : String) (rest : List String) :
    (f.withChildren keyword children).json.walk? (keyword :: name :: rest)
      = (Entries.lookup name children.reverse).bind fun child => child.json.walk? rest := by
  have hstep : (f.withChildren keyword children).json.walk? [keyword]
      = some (Json.ofMembers (children.map fun child => (child.1, child.2.json))) :=
    (congrArg (Option.bind · _) (Entries.lookup_insert_self _ _ _)).trans rfl
  have hchild : (Json.ofMembers (children.map fun child => (child.1, child.2.json))).walk? (name :: rest)
      = (Entries.lookup name (Entries.ofPairs (children.map fun child => (child.1, child.2.json)))).bind
          (·.walk? rest) := Json.walk?_cons _ _ _
  rw [show keyword :: name :: rest = [keyword] ++ name :: rest from rfl, Json.walk?_append, hstep,
    Option.bind_some, hchild, Entries.ofPairs, Entries.lookup_enter_reverse, Entries.lookup_nil,
    Option.or_none, ← List.map_reverse, Entries.lookup_map_value]
  cases Entries.lookup name children.reverse <;> rfl

lemma recordAt?_withChildren {children : List (String × Fragment)}
    (hplaced : ∀ child ∈ children, child.2.WellPlaced) (name : String) (rest : List String) :
    (f.withChildren keyword children).recordAt? (Pointer.join "" (keyword :: name :: rest))
      = adoptedAt? children name rest := by
  refine (lookup_adoptAll [keyword] hplaced _).trans ?_
  rw [lookup_clear, if_pos (by rfl), Option.or_none]

/-- The members of a list under the tokens of their indices. -/
def numbered (members : List Fragment) : List (String × Fragment) :=
  members.zipIdx.map fun (member, index) => (Pointer.indexToken index, member)

lemma withMembers_eq (f : Fragment) (keyword : String) (members : List Fragment) :
    f.withMembers keyword members =
      { keywords := Entries.insert keyword (.array (members.map json)) f.keywords
        records := adoptAll (Pointer.join "" [keyword]) (clearUnder f.records (keywordPointer keyword))
          (numbered members) } := by
  rw [numbered, adoptAll, List.foldl_map]
  rfl

lemma mem_numbered {members : List Fragment} {part : String × Fragment} :
    part ∈ numbered members
      ↔ ∃ index, members[index]? = some part.2 ∧ part.1 = Pointer.indexToken index := by
  simp only [numbered, List.mem_map, Prod.exists, List.mk_mem_zipIdx_iff_getElem?]
  constructor
  · rintro ⟨member, index, hmember, rfl⟩
    exact ⟨index, hmember, rfl⟩
  · rintro ⟨index, hmember, htoken⟩
    exact ⟨part.2, index, hmember, Prod.ext htoken.symm rfl⟩

lemma nodup_numbered (members : List Fragment) : ((numbered members).map Prod.fst).Nodup := by
  have htokens : (numbered members).map Prod.fst
      = (members.zipIdx.map Prod.snd).map Pointer.indexToken := by
    rw [numbered, List.map_map, List.map_map]
    rfl
  rw [htokens, List.zipIdx_map_snd]
  exact List.pairwise_map.2 ((List.nodup_range' 1).imp fun hne heq =>
    hne (Pointer.indexToken_injective heq))

/-- Adopting parts under a keyword leaves what is not beneath it. -/
lemma lookup_adoptAll_of_head {parts : List (String × Fragment)} {path : List String}
    (hplaced : ∀ part ∈ parts, part.2.WellPlaced) (h : path.head? ≠ some keyword) :
    (adoptAll (Pointer.join "" [keyword]) (clearUnder f.records (keywordPointer keyword))
        parts).lookup (Pointer.join "" path) = f.recordAt? (Pointer.join "" path) := by
  refine (lookup_adoptAll_of_not hplaced (fun part _ hbegins => h ?_) _).trans
    ((lookup_clear _ _ _).trans (if_neg h))
  obtain ⟨rest, rfl⟩ := hbegins
  rfl

/-- **Embedded fragments** are carried along, if each is embedded under its name. -/
lemma embedsUnder_adoptAll {parts : List (String × Fragment)}
    (hplaced : ∀ part ∈ parts, part.2.WellPlaced) (hnodup : (parts.map Prod.fst).Nodup)
    (hrecords : g.records = adoptAll (Pointer.join "" [keyword])
      (clearUnder f.records (keywordPointer keyword)) parts)
    (hinside : ∀ argument tokens value, Entries.lookup keyword g.keywords = some argument →
      (tokens, value) ∈ Json.insideOf keyword argument →
        ∃ part ∈ parts, tokens = [keyword, part.1] ∧ value = part.2.json) :
    g.EmbedsUnder (parts.map Prod.snd) keyword := by
  intro argument tokens value hargument hmem
  obtain ⟨part, hpart, rfl, rfl⟩ := hinside argument tokens value hargument hmem
  refine ⟨part.2, List.mem_map_of_mem hpart, rfl, fun rest => ?_⟩
  have hnone : transformsIn (clearUnder f.records (keywordPointer keyword))
      (Pointer.join "" ([keyword] ++ part.1 :: rest)) = none := by
    rw [transformsIn, lookup_clear]
    simp
  rw [transformsOn, hrecords]
  exact transformsIn_adoptAll hplaced hnodup hpart hnone

section
variable {children : List (String × Fragment)} {members : List Fragment}

lemma keepsUnder_withChildren {other : String} (h : other ≠ keyword)
    (hplaced : ∀ child ∈ children, child.2.WellPlaced) :
    KeepsUnder f (f.withChildren other children) keyword := by
  intro argument hargument
  refine ⟨(Entries.lookup_insert_of_ne h _ _).symm.trans hargument, fun path hpath => ?_⟩
  exact lookup_adoptAll_of_head hplaced
    (by rw [hpath]; exact fun heq => h (Option.some.inj heq).symm)

lemma embedsUnder_withChildren (hkeyword : keyword ∉ Json.singleKeywords)
    (hplaced : ∀ child ∈ children, child.2.WellPlaced) (hnodup : (children.map Prod.fst).Nodup) :
    (f.withChildren keyword children).EmbedsUnder (children.map Prod.snd) keyword := by
  refine embedsUnder_adoptAll hplaced hnodup (congrArg records (withChildren_eq f keyword _)) ?_
  intro argument tokens value hargument hmem
  obtain rfl := Option.some.inj ((Entries.lookup_insert_self _ _ _).symm.trans hargument)
  simp only [Json.insideOf, Json.ofMembers, hkeyword, if_false, List.append_nil] at hmem
  split at hmem
  · obtain ⟨⟨name, schema⟩, hschema, heq⟩ := List.mem_map.1 hmem
    obtain ⟨rfl, rfl⟩ := Prod.mk.inj heq
    rcases Entries.mem_enter hschema with hschema | hschema
    · obtain ⟨child, hchild, heq⟩ := List.mem_map.1 hschema
      obtain ⟨rfl, rfl⟩ := Prod.mk.inj heq
      exact ⟨child, hchild, rfl, rfl⟩
    · simp at hschema
  · simp at hmem

lemma soundUnder_withChildren (hkeyword : keyword ∉ Json.singleKeywords)
    (hplaced : ∀ child ∈ children, child.2.WellPlaced) (hnodup : (children.map Prod.fst).Nodup)
    (hsound : ∀ child ∈ children, child.2.Everywhere known) :
    (f.withChildren keyword children).SoundUnder known keyword := by
  refine (embedsUnder_withChildren hkeyword hplaced hnodup).soundUnder fun part hpart => ?_
  obtain ⟨child, hchild, rfl⟩ := List.mem_map.1 hpart
  exact hsound child hchild

lemma placed_numbered (h : ∀ member ∈ members, member.WellPlaced) :
    ∀ part ∈ numbered members, part.2.WellPlaced := fun _ hpart => by
  obtain ⟨index, hmember, -⟩ := mem_numbered.1 hpart
  exact h _ (List.mem_of_getElem? hmember)

lemma keepsUnder_withMembers {other : String} (h : other ≠ keyword)
    (hplaced : ∀ member ∈ members, member.WellPlaced) :
    KeepsUnder f (f.withMembers other members) keyword := by
  intro argument hargument
  rw [withMembers_eq] at hargument ⊢
  refine ⟨(Entries.lookup_insert_of_ne h _ _).symm.trans hargument, fun path hpath => ?_⟩
  exact lookup_adoptAll_of_head (placed_numbered hplaced)
    (by rw [hpath]; exact fun heq => h (Option.some.inj heq).symm)

lemma embedsUnder_withMembers (hkeyword : keyword ∈ Json.listKeywords)
    (hplaced : ∀ member ∈ members, member.WellPlaced) :
    (f.withMembers keyword members).EmbedsUnder members keyword := by
  have hembeds : (f.withMembers keyword members).EmbedsUnder ((numbered members).map Prod.snd)
      keyword := by
    refine embedsUnder_adoptAll (placed_numbered hplaced) (nodup_numbered members)
      (congrArg records (withMembers_eq f keyword members)) ?_
    intro argument tokens value hargument hmem
    obtain rfl := Option.some.inj ((Entries.lookup_insert_self _ _ _).symm.trans hargument)
    obtain ⟨index, hvalue, rfl⟩ := (Json.insideOf_list hkeyword _).1 hmem
    rw [List.getElem?_map, Option.map_eq_some_iff] at hvalue
    obtain ⟨member, hmember, rfl⟩ := hvalue
    exact ⟨(Pointer.indexToken index, member), mem_numbered.2 ⟨index, hmember, rfl⟩, rfl, rfl⟩
  have hmembers : (numbered members).map Prod.snd = members := by
    rw [numbered, List.map_map]
    exact List.zipIdx_map_fst 0 members
  rwa [hmembers] at hembeds

lemma wellPlaced_withMembers (h : f.WellPlaced) (keyword : String)
    (hplaced : ∀ member ∈ members, member.WellPlaced) : (f.withMembers keyword members).WellPlaced := by
  rw [withMembers_eq]
  exact rooted_adoptAll (placed_numbered hplaced) fun entry hentry =>
    h entry (List.mem_filter.1 hentry).1

lemma soundUnder_withMembers (hkeyword : keyword ∈ Json.listKeywords)
    (hplaced : ∀ member ∈ members, member.WellPlaced)
    (hsound : ∀ member ∈ members, member.Everywhere known) :
    (f.withMembers keyword members).SoundUnder known keyword :=
  (embedsUnder_withMembers hkeyword hplaced).soundUnder hsound

lemma root?_withMembers (f : Fragment) (keyword : String)
    (hplaced : ∀ member ∈ members, member.WellPlaced) :
    (f.withMembers keyword members).root? = f.root? := by
  rw [withMembers_eq]
  exact lookup_adoptAll_of_head (placed_numbered hplaced) (head?_nil_ne keyword)

end

lemma pushMember_array {items : List Json} (hitems : f.get? keyword = some (.array items))
    (child : Fragment) : f.pushMember keyword child =
      { keywords := Entries.insert keyword (.array (items ++ [child.json])) f.keywords
        records := adopt f.records (Pointer.join "" [keyword, Pointer.indexToken items.length])
          child.records } := by
  rw [pushMember, hitems]

lemma pushMember_eq {items : List Json} (hitems : f.get? keyword = some (.array items))
    (hnone : child.records.entries = []) : f.pushMember keyword child
      = ⟨Entries.insert keyword (.array (items ++ [child.json])) f.keywords, f.records⟩ := by
  rw [pushMember_array hitems]
  simp only [adopt, hnone]
  rfl

/-- One more member, which carries nothing, leaves the others as they are. -/
lemma Nested.pushMember {items : List Json} (h : f.Nested known)
    (hitems : f.get? keyword = some (.array items)) (hkeyword : keyword ∈ Json.listKeywords)
    (hchild : child.Everywhere known) (hnone : child.records.entries = []) :
    (f.pushMember keyword child).Nested known
      ∧ (f.pushMember keyword child).records = f.records
      ∧ ∀ other, keyword ≠ other → Entries.lookup other (f.pushMember keyword child).keywords
        = Entries.lookup other f.keywords := by
  rw [pushMember_eq hitems hnone]
  refine ⟨fun other => ?_, rfl, fun other hne => Entries.lookup_insert_of_ne hne _ _⟩
  by_cases hne : keyword = other
  · subst hne
    intro argument tokens value rest inner hargument hinside hholds
    obtain rfl := Option.some.inj ((Entries.lookup_insert_self _ _ _).symm.trans hargument)
    obtain ⟨index, hvalue, rfl⟩ := (Json.insideOf_list hkeyword _).1 hinside
    rcases Nat.lt_or_ge index items.length with hlt | hge
    · rw [List.getElem?_append_left hlt] at hvalue
      exact h keyword _ _ value rest inner hitems
        ((Json.insideOf_list hkeyword _).2 ⟨index, hvalue, rfl⟩) hholds
    · rw [List.getElem?_append_right hge, List.getElem?_singleton] at hvalue
      obtain rfl := Option.some.inj (Option.ite_none_right_eq_some.1 hvalue).2
      have hsound := hchild.sound hholds
      have hcarries : child.transformsOn rest = none := by
        rw [transformsOn, transformsIn, Table.lookup, hnone]
        rfl
      exact (hcarries ▸ hsound).of_none
  · exact (h other).of_keeps fun argument hargument =>
      ⟨(Entries.lookup_insert_of_ne hne _ _).symm.trans hargument, fun _ _ => rfl⟩

/-! ## Taking out -/

/-- **What is taken out** is sound everywhere if it was where it stood. -/
lemma Everywhere.at? (h : f.Everywhere known) {path : List String}
    (hat : f.at? path = some child) (hholds : f.json.Holds path child.keywords) :
    child.Everywhere known := by
  refine everywhere_of_sound fun rest inner hinner => ?_
  have hcarried : child.transformsOn rest = f.transformsOn (path ++ rest) :=
    congrArg (Option.bind · Metadata.transforms) (lookup_at? hat rest)
  exact hcarried ▸ h.sound (hholds.trans hinner)

lemma lookup?_of_at? {token : String} (h : f.at? [keyword, token] = some child) :
    ∃ argument, Entries.lookup keyword f.keywords = some argument
      ∧ Json.step? Pointer.lenientIndex? argument token = some child.json := by
  obtain ⟨keywords, hkeywords, rfl⟩ := Option.map_eq_some_iff.1 h
  unfold keywordsAt? at hkeywords
  split at hkeywords
  · rename_i inner hinner
    obtain rfl := Option.some.inj hkeywords
    obtain ⟨argument, hargument, hfollow⟩ := Option.bind_eq_some_iff.1 hinner
    rw [Json.follow?_cons] at hfollow
    obtain ⟨below, hbelow, hrest⟩ := Option.bind_eq_some_iff.1 hfollow
    obtain rfl := Option.some.inj hrest
    exact ⟨argument, hargument, hbelow⟩
  · simp at hkeywords

lemma mem_children {entry : String × Fragment} (h : entry ∈ f.children keyword) :
    f.at? [keyword, entry.1] = some entry.2 ∧ ∃ schemas,
      Entries.lookup keyword f.keywords = some (.object schemas)
        ∧ (entry.1, entry.2.json) ∈ schemas := by
  unfold children at h
  split at h
  · rename_i schemas hschemas
    obtain ⟨name, -, hname⟩ := List.mem_filterMap.1 h
    obtain ⟨child, hchild, rfl⟩ := Option.map_eq_some_iff.1 hname
    obtain ⟨argument, hargument, hstep⟩ := lookup?_of_at? hchild
    obtain rfl := Option.some.inj (hschemas.symm.trans hargument)
    exact ⟨hchild, schemas, hschemas, Entries.mem_of_lookup hstep⟩
  · simp at h

lemma mem_members (h : child ∈ f.members keyword) :
    ∃ index schemas, f.at? [keyword, Pointer.indexToken index] = some child
      ∧ Entries.lookup keyword f.keywords = some (.array schemas)
        ∧ schemas[index]? = some child.json := by
  unfold members at h
  split at h
  · rename_i schemas hschemas
    obtain ⟨index, -, hchild⟩ := List.mem_filterMap.1 h
    obtain ⟨argument, hargument, hstep⟩ := lookup?_of_at? hchild
    obtain rfl := Option.some.inj (hschemas.symm.trans hargument)
    have hindex : Pointer.lenientIndex? (Pointer.indexToken index) = some index :=
      Pointer.lenientIndex?_of_strictIndex? (Pointer.strictIndex?_eq_some.2 rfl)
    refine ⟨index, schemas, hchild, hschemas, ?_⟩
    rwa [Json.step?, hindex] at hstep
  · simp at h

lemma Everywhere.of_children (h : f.Everywhere known) (hkeyword : keyword ∈ Json.mapKeywords)
    {entry : String × Fragment} (hentry : entry ∈ f.children keyword) :
    entry.2.Everywhere known ∧ entry.2.WellPlaced := by
  obtain ⟨hat, schemas, hschemas, hmem⟩ := mem_children hentry
  refine ⟨h.at? hat ?_, wellPlaced_at? hat (by simp)⟩
  have hinside : ([keyword, entry.1], entry.2.json) ∈ Json.insideOf keyword (.object schemas) := by
    refine List.mem_append_left _ ?_
    rw [if_pos hkeyword]
    exact List.mem_map.2 ⟨_, hmem, rfl⟩
  exact Json.Holds.of_keyword hschemas hinside .self

lemma Everywhere.of_members (h : f.Everywhere known) (hkeyword : keyword ∈ Json.listKeywords)
    (hchild : child ∈ f.members keyword) : child.Everywhere known ∧ child.WellPlaced := by
  obtain ⟨index, schemas, hat, hschemas, hmem⟩ := mem_members hchild
  refine ⟨h.at? hat ?_, wellPlaced_at? hat (by simp)⟩
  exact Json.Holds.of_keyword hschemas ((Json.insideOf_list hkeyword _).2 ⟨index, hmem, rfl⟩) .self

/-! ## The check of names -/

/-- Classes that pass the check are in the registry. -/
lemma classes_of_checkClasses {registry : Registry} {pointer : Pointer} {keywords : Entries Json}
    {argument : Json} (h : checkClasses registry pointer keywords = .ok ())
    (hargument : Entries.lookup "instanceOf" keywords = some argument) :
    ∃ names, namesOf? argument = some names ∧ ∀ name ∈ names, registry.contains name = true := by
  simp only [checkClasses, hargument, Assertion.readInstanceOf] at h
  cases hnamed : namesOf? argument with
  | none => simp [hnamed] at h
  | some names =>
    refine ⟨names, rfl, fun name hname => ?_⟩
    cases hfind : names.find? fun name => !registry.contains name with
    | some unknown => simp [hnamed, hfind] at h
    | none => simpa using List.find?_eq_none.1 hfind name hname

/-- Transforms that pass the check are known. -/
lemma transforms_of_checkTransforms {options : Options} {pointer : Pointer} {keywords : Entries Json}
    {argument : Json} (h : f.checkTransforms options pointer keywords = .ok ())
    (hargument : Entries.lookup "transform" keywords = some argument) :
    ∃ names, argument.items?.bind namesOfItems? = some names
      ∧ ∀ name ∈ names, f.knowsTransform options pointer name = true := by
  simp only [checkTransforms, hargument] at h
  split at h
  · simp at h
  · rename_i names hnames
    split at h
    · simp at h
    · rename_i hfind
      exact ⟨names, hnames, by simpa using hfind⟩

lemma known_of_checkTransforms {options : Options} {pointer : Pointer} {keywords : Entries Json}
    (h : f.checkTransforms options pointer keywords = .ok ()) {name : String}
    (hname : name ∈ namedTransforms keywords) : f.knowsTransform options pointer name = true := by
  unfold namedTransforms at hname
  cases hargument : Entries.lookup "transform" keywords with
  | none => simp [hargument] at hname
  | some argument =>
    obtain ⟨names, hnamed, hknown⟩ := transforms_of_checkTransforms h hargument
    simp only [hargument, Option.bind_some, hnamed, Option.getD_some] at hname
    exact hknown name hname

/-- The check of names comes to every subschema. -/
lemma checked_of_checkNames {settings : Options} {registry : Registry}
    (h : f.checkNames settings registry = .ok ()) {path : List String} {keywords : Entries Json}
    (hholds : f.json.Holds path keywords) : checkClasses registry (Pointer.join "" path) keywords = .ok ()
      ∧ f.checkTransforms settings (Pointer.join "" path) keywords = .ok () := by
  have hmem : (Pointer.join "" path, keywords) ∈ f.json.subschemas :=
    Json.mem_subschemas.2 ⟨path, hholds, rfl⟩
  rcases forM_cases (f.checkAt settings registry) f.json.subschemas with
    ⟨-, hall⟩ | ⟨entry, -, error, -, hfails⟩
  · obtain ⟨_, hclasses, htransforms⟩ := bind_eq_ok.1 (hall _ hmem)
    exact ⟨hclasses, htransforms⟩
  · exact absurd (h.symm.trans hfails) (by simp)

/-- Where the check passes with nothing configured, the fragment itself carries what it names. -/
lemma everywhere_of_checkNames
    (href : ∀ entry ∈ f.json.subschemas, Entries.lookup "$ref" entry.2 = none)
    (h : f.checkNames {} (Registry.build {} f) = .ok ()) :
    f.Everywhere fun name => Class.builtins.contains name = true ∨ f.CarriesClass name := by
  refine everywhere_of_sound fun path inner hholds => ?_
  have hmem : (Pointer.join "" path, inner) ∈ f.json.subschemas :=
    Json.mem_subschemas.2 ⟨path, hholds, rfl⟩
  obtain ⟨hclasses, htransforms⟩ := checked_of_checkNames h hholds
  refine ⟨⟨href _ hmem, fun argument hargument => ?_, fun argument hargument => ?_⟩, ?_⟩
  · obtain ⟨names, hnames, hknown⟩ := classes_of_checkClasses hclasses hargument
    refine ⟨names, hnames, fun name hname => ?_⟩
    rcases Registry.contains_build_iff.1 (hknown name hname) with h | ⟨cls, hcls, -⟩ | h
    · exact Or.inl h
    · simp at hcls
    · exact Or.inr h
  · obtain ⟨names, hnames, -⟩ := transforms_of_checkTransforms htransforms hargument
    exact ⟨names, hnames⟩
  · intro name hname
    have hknows := known_of_checkTransforms htransforms hname
    simp only [knowsTransform, Bool.or_eq_true, Option.any_eq_true] at hknows
    rcases hknows with hknows | hknows
    · simp [Table.contains, Entries.contains, Table.empty] at hknows
    · exact hknows

end Fragment

end SchemaAlgebra
