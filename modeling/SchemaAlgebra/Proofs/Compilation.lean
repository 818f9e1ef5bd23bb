import SchemaAlgebra.Proofs.Nodes
import SchemaAlgebra.Validator

/-!
# What compilation makes

* `Plan.compile_ok` — a compiled plan has a node for each node of the document, and no others;
  `Plan.Compiled` says what the node at a pointer is made of.
* `Matcher.build_ok` — a matcher is of a document that has been checked.
* `Validator.compile_ok` — a compiled validator has the matcher and the plan of its schema.
-/

namespace SchemaAlgebra

/-! ## Results -/

lemma bind_eq_ok {ε α β : Type} {x : Except ε α} {f : α → Except ε β} {b : β} :
    x >>= f = .ok b ↔ ∃ a, x = .ok a ∧ f a = .ok b := by
  cases x <;> simp [bind, Except.bind]

lemma exists_of_isOk {ε α : Type} {x : Except ε α} (h : x.isOk = true) : ∃ a, x = .ok a := by
  cases x with
  | ok a => exact ⟨a, rfl⟩
  | error _ => simp [Except.isOk, Except.toBool] at h

/-- A traversal that succeeds has done so with each element, and has no results but theirs. -/
lemma mapM_eq_ok {ε α β : Type} {f : α → Except ε β} {items : List α} {results : List β}
    (h : items.mapM f = .ok results) :
    (∀ a ∈ items, ∃ b ∈ results, f a = .ok b) ∧ ∀ b ∈ results, ∃ a ∈ items, f a = .ok b := by
  induction items generalizing results with
  | nil =>
    have hresults : [] = results := by simpa [pure, Except.pure] using h
    simp [← hresults]
  | cons a items ih =>
    rw [List.mapM_cons] at h
    obtain ⟨b, hb, h⟩ := bind_eq_ok.1 h
    obtain ⟨rest, hrest, h⟩ := bind_eq_ok.1 h
    have hresults : b :: rest = results := Except.ok.inj h
    obtain ⟨hall, honly⟩ := ih hrest
    subst hresults
    refine ⟨fun c hc => ?_, fun c hc => ?_⟩
    · rcases List.mem_cons.1 hc with rfl | hc
      · exact ⟨b, List.mem_cons_self, hb⟩
      · obtain ⟨d, hd, hcd⟩ := hall c hc
        exact ⟨d, List.mem_cons_of_mem _ hd, hcd⟩
    · rcases List.mem_cons.1 hc with rfl | hc
      · exact ⟨a, List.mem_cons_self, hb⟩
      · obtain ⟨d, hd, hdc⟩ := honly c hc
        exact ⟨d, List.mem_cons_of_mem _ hd, hdc⟩

/-- A traversal without effects. -/
lemma mapM_eq_pure_map {m : Type → Type} [Monad m] [LawfulMonad m] {α β : Type} {f : α → m β} {k : α → β}
    {items : List α} (h : ∀ a ∈ items, f a = pure (k a)) : items.mapM f = pure (items.map k) := by
  induction items with
  | nil => rfl
  | cons a items ih =>
    obtain ⟨hfirst, hrest⟩ := List.forall_mem_cons.1 h
    rw [List.mapM_cons, hfirst, ih hrest, pure_bind, pure_bind, List.map_cons]

lemma mapM_congr {m : Type → Type} [Monad m] [LawfulMonad m] {α β : Type} {f g : α → m β} {items : List α}
    (h : ∀ a ∈ items, f a = g a) : items.mapM f = items.mapM g := by
  induction items with
  | nil => rfl
  | cons a items ih =>
    obtain ⟨hfirst, hrest⟩ := List.forall_mem_cons.1 h
    rw [List.mapM_cons, List.mapM_cons, hfirst, ih hrest]

lemma foldlM_congr {m : Type → Type} [Monad m] [LawfulMonad m] {α β : Type} {f g : β → α → m β}
    {items : List α} (h : ∀ b, ∀ a ∈ items, f b a = g b a) (b : β) : items.foldlM f b = items.foldlM g b := by
  induction items generalizing b with
  | nil => rfl
  | cons a items ih =>
    rw [List.foldlM_cons, List.foldlM_cons, h b a List.mem_cons_self]
    exact congrArg (g b a >>= ·) (funext fun c => ih (fun b a ha => h b a (List.mem_cons_of_mem _ ha)) c)

/-- A traversal that succeeds has one result an element, in order. -/
lemma mapM_forall₂ {ε α β : Type} {f : α → Except ε β} {items : List α} {results : List β}
    (h : items.mapM f = .ok results) : List.Forall₂ (fun a b => f a = .ok b) items results := by
  induction items generalizing results with
  | nil =>
    have hresults : [] = results := by simpa [pure, Except.pure] using h
    exact hresults ▸ List.Forall₂.nil
  | cons a items ih =>
    rw [List.mapM_cons] at h
    obtain ⟨b, hb, h⟩ := bind_eq_ok.1 h
    obtain ⟨rest, hrest, h⟩ := bind_eq_ok.1 h
    have hresults : b :: rest = results := Except.ok.inj h
    exact hresults ▸ List.Forall₂.cons hb (ih hrest)

/-! ## Plans -/

namespace Plan

variable {build : MatcherBuilder} {schema : Fragment} {options : Options} {plan : Plan}

/-- The names that the schema at a pointer lists under `transform`. -/
def transformNames (document : Json) (pointer : Pointer) : List String :=
  match (Outline.keywordsAt? document pointer).bind (Entries.lookup "transform") with
  | some (.array items) => items.map fun item => (item.string?).getD ""
  | _ => []

lemma names_of_resolveChain {pointer : Pointer} {items : List Json} {chain : Chain}
    (h : resolveChain schema options pointer items = .ok chain) :
    chain.map Prod.fst = items.map fun item => (item.string?).getD "" := by
  induction items generalizing chain with
  | nil =>
    have hchain : [] = chain := Except.ok.inj h
    simp [← hchain]
  | cons item items ih =>
    rw [resolveChain] at h
    split at h
    · simp at h
    · obtain ⟨rest, hrest, h⟩ := bind_eq_ok.1 h
      obtain rfl := Except.ok.inj h
      simp [ih hrest]

/-- The chain of a node is resolved from what its schema lists. -/
lemma resolveChain_of_chainAt {document : Json} {pointer : Pointer} {chain : Chain}
    (h : chainAt schema options document pointer = .ok chain) :
    ∃ items, resolveChain schema options pointer items = .ok chain
      ∧ transformNames document pointer = items.map fun item => (item.string?).getD "" := by
  unfold chainAt at h
  cases hkeywords : Outline.keywordsAt? document pointer with
  | none =>
    rw [hkeywords] at h
    exact ⟨[], h, by rw [transformNames, hkeywords]; rfl⟩
  | some keywords =>
    rw [hkeywords] at h
    have hlisted : transformNames document pointer
        = match Entries.lookup "transform" keywords with
          | some (.array items) => items.map fun item => (item.string?).getD ""
          | _ => [] := by
      rw [transformNames, hkeywords, Option.bind_some]
    dsimp only at h
    split at h
    · simp at h
    · split at h
      · rename_i items hitems
        exact ⟨items, h, by rw [hlisted, hitems]⟩
      · rename_i hnone
        refine ⟨[], h, ?_⟩
        rw [hlisted]
        split
        · rename_i items hitems
          exact absurd hitems (hnone items)
        · rfl

/-- **The chain of a node** has the functions that the schema names, in order. -/
lemma names_of_chainAt {document : Json} {pointer : Pointer} {chain : Chain}
    (h : chainAt schema options document pointer = .ok chain) :
    chain.map Prod.fst = transformNames document pointer := by
  obtain ⟨items, hitems, hnames⟩ := resolveChain_of_chainAt h
  rw [names_of_resolveChain hitems, hnames]

/-- What the node of a compiled plan at a pointer is made of. -/
structure Compiled (build : MatcherBuilder) (schema : Fragment) (options : Options)
    (pointer : Pointer) (node : PlanNode) : Prop where
  outline : node.outline = Outline.read schema.json pointer
  chain : chainAt schema options schema.json pointer = .ok node.chain
  patterns : patternMatchers build node.outline = .ok node.patterns

lemma assembleNode_ok {document : Json} {active : List Pointer} {entry : Pointer × Chain}
    {node : PlanNode} (h : assembleNode build document active entry = .ok node) :
    node.outline = Outline.read document entry.1 ∧ node.chain = entry.2
      ∧ patternMatchers build node.outline = .ok node.patterns := by
  obtain ⟨patterns, hpatterns, h⟩ := bind_eq_ok.1 h
  obtain ⟨branches, -, h⟩ := bind_eq_ok.1 h
  obtain ⟨condition, -, h⟩ := bind_eq_ok.1 h
  obtain rfl := Except.ok.inj h
  exact ⟨rfl, rfl, hpatterns⟩

lemma pointer_read (document : Json) (pointer : Pointer) :
    (Outline.read document pointer).pointer = pointer := by
  unfold Outline.read
  split <;> rfl

lemma Compiled.pointer_eq {pointer : Pointer} {node : PlanNode}
    (h : Compiled build schema options pointer node) : node.outline.pointer = pointer := by
  rw [h.outline, pointer_read]

/-- **Compiled plans** have a node for each node of the document, and no others. -/
lemma compile_ok (h : compile build schema options = .ok plan) :
    plan.document = schema.json
      ∧ (∀ pointer ∈ Outline.nodes schema.json, ∃ node ∈ plan.nodes,
        Compiled build schema options pointer node)
      ∧ ∀ node ∈ plan.nodes, ∃ pointer ∈ Outline.nodes schema.json,
        Compiled build schema options pointer node := by
  obtain ⟨chains, hchains, h⟩ := bind_eq_ok.1 h
  obtain ⟨nodes, hnodes, h⟩ := bind_eq_ok.1 h
  obtain rfl := Except.ok.inj h
  obtain ⟨hpointers, hchains⟩ := mapM_eq_ok hchains
  obtain ⟨hentries, hnodes⟩ := mapM_eq_ok hnodes
  refine ⟨rfl, fun pointer hpointer => ?_, fun node hnode => ?_⟩
  · obtain ⟨entry, hentry, hentry'⟩ := hpointers pointer hpointer
    obtain ⟨node, hnode, hnode'⟩ := hentries entry hentry
    obtain ⟨chain, hchain, h⟩ := bind_eq_ok.1 hentry'
    obtain rfl := Except.ok.inj h
    obtain ⟨houtline, rfl, hpatterns⟩ := assembleNode_ok hnode'
    exact ⟨node, hnode, houtline, hchain, hpatterns⟩
  · obtain ⟨entry, hentry, hnode'⟩ := hnodes node hnode
    obtain ⟨pointer, hpointer, hentry'⟩ := hchains entry hentry
    obtain ⟨chain, hchain, h⟩ := bind_eq_ok.1 hentry'
    obtain rfl := Except.ok.inj h
    obtain ⟨houtline, rfl, hpatterns⟩ := assembleNode_ok hnode'
    exact ⟨pointer, hpointer, houtline, hchain, hpatterns⟩

/-- The node that a compiled plan has at a pointer. -/
lemma compiled_node (h : compile build schema options = .ok plan) {pointer : Pointer}
    (hpointer : pointer ∈ Outline.nodes schema.json) :
    plan.node pointer ∈ plan.nodes ∧ Compiled build schema options pointer (plan.node pointer) := by
  obtain ⟨-, hall, honly⟩ := compile_ok h
  obtain ⟨node, hnode, hcompiled⟩ := hall pointer hpointer
  have hfound : plan.node? pointer = some (plan.node pointer) :=
    hcompiled.pointer_eq ▸ node?_of_mem hnode
  have hmem := List.mem_of_find?_eq_some hfound
  obtain ⟨other, -, hother⟩ := honly _ hmem
  exact ⟨hmem, ((plan.pointer_node pointer).symm.trans hother.pointer_eq) ▸ hother⟩

lemma outline_node (h : compile build schema options = .ok plan) {pointer : Pointer}
    (hpointer : pointer ∈ Outline.nodes schema.json) :
    (plan.node pointer).outline = Outline.read schema.json pointer :=
  (compiled_node h hpointer).2.outline

lemma pointer_mem_nodes (h : compile build schema options = .ok plan) {node : PlanNode}
    (hnode : node ∈ plan.nodes) : node.outline.pointer ∈ Outline.nodes schema.json := by
  obtain ⟨pointer, hpointer, hcompiled⟩ := (compile_ok h).2.2 node hnode
  rw [hcompiled.pointer_eq]
  exact hpointer

end Plan

/-! ## Matchers and validators -/

lemma Plan.patternDocument_eq (source : String) : patternDocument source
    = .object [("pattern", .string source), ("type", .string "string")] := by
  have hfirst : ¬ "type" < "pattern" := by decide
  simp [patternDocument, Json.ofMembers, Entries.ofPairs, Entries.enter, Entries.insert, hfirst]

lemma mapError_eq_ok {ε δ α : Type} {f : ε → δ} {x : Except ε α} {a : α} :
    x.mapError f = .ok a ↔ x = .ok a := by
  cases x <;> simp [Except.mapError]

lemma Matcher.build_ok {options : MatcherOptions} {extensions : List Extension}
    {registry : Registry} {value : Json} {m : Matcher}
    (h : Matcher.build options extensions registry value = .ok m) :
    m = ⟨.ofJson options.effectiveDraft value, options.enforcesFormats, extensions, registry⟩
      ∧ m.check value = .ok () := by
  obtain ⟨_, hcheck, h⟩ := bind_eq_ok.1 h
  obtain rfl := Except.ok.inj h
  exact ⟨rfl, hcheck⟩

lemma Validator.compile_ok {schema : Fragment} {options : Option Options} {validator : Validator}
    (h : Validator.compile schema options = .ok validator) :
    ∃ extensions, ∃ registry,
      Matcher.build (Options.merged schema.options? options).matcher extensions registry schema.json
          = .ok validator.matcher
        ∧ Plan.compile
          (Matcher.build (Options.merged schema.options? options).matcher extensions registry)
          schema (Options.merged schema.options? options) = .ok validator.plan := by
  obtain ⟨extensions, -, h⟩ := bind_eq_ok.1 h
  obtain ⟨_, -, h⟩ := bind_eq_ok.1 h
  obtain ⟨matcher, hmatcher, h⟩ := bind_eq_ok.1 h
  obtain ⟨plan, hplan, h⟩ := bind_eq_ok.1 h
  obtain rfl := Except.ok.inj h
  exact ⟨extensions, _, mapError_eq_ok.1 hmatcher, hplan⟩

end SchemaAlgebra
