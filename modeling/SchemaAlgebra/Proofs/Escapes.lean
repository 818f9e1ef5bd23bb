import SchemaAlgebra.Proofs.Records

/-!
# Paths in written form

A path is written with a slash before each of its tokens.  In a token, tildes and slashes are replaced,
first the ones everywhere and then the others, and reading a token undoes the two replacements in the
opposite order.

* `Pointer.replace` — a text in which another one is replaced wherever it occurs.
* `Pointer.escape_eq_replace`, `Pointer.unescape_eq_replace` — tokens are written and read by two
  replacements each.  What the first one puts in is never taken for what the second one looks for.
* **`Pointer.paths_faithful`** — a token can be read back, a path can be told from its written form, and one
  path goes on from another just when its written form does.
-/

namespace SchemaAlgebra

namespace Pointer

/-! ## Replacing -/

/-- Replaces `old` by `new`, wherever it occurs from the left on. -/
def replaceChars (old new : List Char) : List Char → List Char
  | [] => []
  | c :: rest =>
    if old <+: c :: rest then new ++ replaceChars old new (rest.drop (old.length - 1))
    else c :: replaceChars old new rest
termination_by cs => cs.length

/-- The text with `old` replaced by `new`, wherever it occurs from the left on. -/
def replace (text old new : String) : String :=
  String.ofList (replaceChars old.toList new.toList text.toList)

variable {old new rest : List Char} {c d : Char}

@[simp] lemma replaceChars_nil (old new : List Char) : replaceChars old new [] = [] := by
  rw [replaceChars]

lemma replaceChars_append (hold : old ≠ []) (new rest : List Char) :
    replaceChars old new (old ++ rest) = new ++ replaceChars old new rest := by
  obtain ⟨c, tail, rfl⟩ := List.exists_cons_of_ne_nil hold
  have hstart : c :: tail <+: c :: (tail ++ rest) := ⟨rest, rfl⟩
  rw [List.cons_append, replaceChars, if_pos hstart]
  simp

lemma replaceChars_cons_of_not_start (h : ¬ old <+: c :: rest) (new : List Char) :
    replaceChars old new (c :: rest) = c :: replaceChars old new rest := by
  rw [replaceChars, if_neg h]

lemma replaceChars_cons_of_ne (h : c ≠ d) (tail new rest : List Char) :
    replaceChars (d :: tail) new (c :: rest) = c :: replaceChars (d :: tail) new rest :=
  replaceChars_cons_of_not_start (fun hstart => h (List.cons_prefix_cons.1 hstart).1.symm) new

lemma replaceChars_single (d : Char) (new rest : List Char) :
    replaceChars [d] new (d :: rest) = new ++ replaceChars [d] new rest :=
  replaceChars_append (List.cons_ne_nil d []) new rest

lemma replaceChars_pair (c d : Char) (new rest : List Char) :
    replaceChars [c, d] new (c :: d :: rest) = new ++ replaceChars [c, d] new rest :=
  replaceChars_append (List.cons_ne_nil c [d]) new rest

/-! ## Tokens -/

/-- Tildes are replaced before slashes, so the tildes put in for slashes stay. -/
lemma escapeChars_eq_replaceChars (cs : List Char) :
    escapeChars cs = replaceChars ['/'] ['~', '1'] (replaceChars ['~'] ['~', '0'] cs) := by
  induction cs with
  | nil => simp [escapeChars]
  | cons c cs ih =>
    by_cases htilde : c = '~'
    · subst htilde
      rw [replaceChars_single, List.cons_append, List.singleton_append,
        replaceChars_cons_of_ne (by decide), replaceChars_cons_of_ne (by decide), ← ih, escapeChars]
    · rw [replaceChars_cons_of_ne htilde]
      by_cases hslash : c = '/'
      · subst hslash
        rw [replaceChars_single, ← ih, escapeChars]
        rfl
      · rw [replaceChars_cons_of_ne hslash, ← ih, escapeChars_cons htilde hslash]

/-- **Writing a token** takes two replacements. -/
lemma escape_eq_replace (token : String) :
    escape token = replace (replace token "~" "~0") "/" "~1" := by
  simp [escape, escapeChars_eq_replaceChars, replace]

/-- Slashes that are read begin no tilde followed by a zero, and neither does what is left as it is. -/
lemma zero_of_head?_replaceChars
    (h : (replaceChars ['~', '1'] ['/'] rest).head? = some '0') : rest.head? = some '0' := by
  cases rest with
  | nil => simp at h
  | cons c rest =>
    by_cases hstart : ['~', '1'] <+: c :: rest
    · obtain ⟨tail, htail⟩ := hstart
      rw [← htail, replaceChars_append (by simp)] at h
      exact absurd h (by simp)
    · rwa [replaceChars_cons_of_not_start hstart] at h

/-- Slashes are put in before tildes, so no tilde that is put in begins another escape. -/
lemma unescapeChars_eq_replaceChars (cs : List Char) :
    unescapeChars cs = replaceChars ['~', '0'] ['~'] (replaceChars ['~', '1'] ['/'] cs) := by
  induction cs using unescapeChars.induct with
  | case1 => simp [unescapeChars]
  | case2 cs ih =>
    rw [replaceChars_pair, List.singleton_append, replaceChars_cons_of_ne (by decide), ← ih, unescapeChars]
  | case3 cs ih =>
    have htilde : ¬ ['~', '1'] <+: '~' :: '0' :: cs := by simp
    have hzero : '0' ≠ '~' := by decide
    rw [replaceChars_cons_of_not_start htilde, replaceChars_cons_of_ne hzero, replaceChars_pair, ← ih,
      List.singleton_append, unescapeChars]
  | case4 c cs hone hzero ih =>
    have hslash : ¬ ['~', '1'] <+: c :: cs := by
      rintro ⟨tail, htail⟩
      obtain ⟨rfl, rfl⟩ := List.cons.inj htail
      exact hone tail rfl rfl
    have htilde : ¬ ['~', '0'] <+: c :: replaceChars ['~', '1'] ['/'] cs := by
      rintro ⟨tail, htail⟩
      obtain ⟨rfl, hcs⟩ := List.cons.inj htail
      have hhead : cs.head? = some '0' := zero_of_head?_replaceChars (by rw [← hcs]; rfl)
      obtain ⟨more, rfl⟩ := List.head?_eq_some_iff.1 hhead
      exact hzero more rfl rfl
    rw [replaceChars_cons_of_not_start hslash, replaceChars_cons_of_not_start htilde, ← ih, unescapeChars]
    · exact hone
    · exact hzero

/-- **Reading a token** takes two replacements, in the opposite order. -/
lemma unescape_eq_replace (written : String) :
    unescape written = replace (replace written "~1" "/") "~0" "~" := by
  simp [unescape, unescapeChars_eq_replaceChars, replace]

/-! ## Paths -/

/-- **Paths in written form.**  Tokens are written and read by two replacements each; what is written is
read back, and has no slash in it.  Different paths have different written forms, a written form can be
prolonged, and it lies at or beneath another one just when the path goes on from the other path. -/
theorem paths_faithful :
    (∀ token, escape token = replace (replace token "~" "~0") "/" "~1"
      ∧ unescape token = replace (replace token "~1" "/") "~0" "~"
      ∧ unescape (escape token) = token ∧ '/' ∉ (escape token).toList)
    ∧ Function.Injective (join "")
    ∧ (∀ path more, join (join "" path) more = join "" (path ++ more))
    ∧ ∀ path pre, hasPrefix (join "" path) (join "" pre) = true ↔ pre <+: path := by
  refine ⟨fun token => ⟨escape_eq_replace token, unescape_eq_replace token, ?_, ?_⟩,
    fun _ _ => join_root_injective, fun path more => (join_append "" path more).symm,
    fun _ _ => hasPrefix_join⟩
  · rw [unescape, escape, String.toList_ofList, unescapeChars_escapeChars, String.ofList_toList]
  · rw [escape, String.toList_ofList]
    exact slash_not_mem_escapeChars _

example : join "" ["~1", "a/b", ""] = "/~01/a~1b/" := by decide

end Pointer

end SchemaAlgebra
