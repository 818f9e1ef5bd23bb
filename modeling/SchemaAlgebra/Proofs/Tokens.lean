import Mathlib.Data.List.Induction
import SchemaAlgebra.Json.Pointer

/-!
# Pointers as ways through a document

A pointer is the written form of a list of tokens, and leads where the tokens lead one by one.

* `Pointer.tokens?_join` — the tokens of a prolonged pointer.  Escaping leaves no slash in a token,
  so what is between slashes is a token again.
* `Pointer.strictIndex?_eq_some` — an index has one written form, its digits.
* `Json.walk?` — the value a list of tokens leads to; `Json.resolve?_join` — prolonging a pointer
  prolongs the way.
-/

namespace SchemaAlgebra

namespace Pointer

/-! ## Escaping -/

lemma unescapeChars_cons {c : Char} (hc : c ≠ '~') (rest : List Char) :
    unescapeChars (c :: rest) = c :: unescapeChars rest := by
  conv_lhs => unfold unescapeChars
  split <;> simp_all

lemma escapeChars_cons {c : Char} (htilde : c ≠ '~') (hslash : c ≠ '/') (rest : List Char) :
    escapeChars (c :: rest) = c :: escapeChars rest := by
  conv_lhs => unfold escapeChars
  split <;> simp_all

/-- Escaping is undone. -/
lemma unescapeChars_escapeChars (cs : List Char) : unescapeChars (escapeChars cs) = cs := by
  induction cs with
  | nil => rfl
  | cons c cs ih =>
    by_cases htilde : c = '~'
    · subst htilde
      simp only [escapeChars, unescapeChars, ih]
    · by_cases hslash : c = '/'
      · subst hslash
        simp only [escapeChars, unescapeChars, ih]
      · rw [escapeChars_cons htilde hslash, unescapeChars_cons htilde, ih]

/-- No slash is left. -/
lemma slash_not_mem_escapeChars (cs : List Char) : '/' ∉ escapeChars cs := by
  induction cs with
  | nil => simp [escapeChars]
  | cons c cs ih =>
    by_cases htilde : c = '~'
    · subst htilde
      simpa [escapeChars] using ih
    · by_cases hslash : c = '/'
      · subst hslash
        simpa [escapeChars] using ih
      · rw [escapeChars_cons htilde hslash]
        simpa [Ne.symm hslash] using ih

/-! ## Splitting -/

lemma splitSlashes_ne_nil (cs : List Char) : splitSlashes cs ≠ [] := by
  unfold splitSlashes
  split
  · simp
  · simp
  · split <;> simp

lemma splitSlashes_cons {c : Char} (hc : c ≠ '/') {cs part : List Char}
    {parts : List (List Char)} (h : splitSlashes cs = part :: parts) :
    splitSlashes (c :: cs) = (c :: part) :: parts := by
  conv_lhs => unfold splitSlashes
  split <;> simp_all

lemma splitSlashes_of_no_slash {cs : List Char} (h : '/' ∉ cs) : splitSlashes cs = [cs] := by
  induction cs with
  | nil => rfl
  | cons c cs ih =>
    simp only [List.mem_cons, not_or] at h
    exact splitSlashes_cons (Ne.symm h.1) (ih h.2)

lemma splitSlashes_append (as bs : List Char) :
    splitSlashes (as ++ '/' :: bs) = splitSlashes as ++ splitSlashes bs := by
  induction as with
  | nil => rfl
  | cons c as ih =>
    by_cases hc : c = '/'
    · subst hc
      simp only [List.cons_append, splitSlashes, ih]
    · obtain ⟨part, parts, hparts⟩ := List.exists_cons_of_ne_nil (splitSlashes_ne_nil as)
      rw [hparts, List.cons_append] at ih
      rw [List.cons_append, splitSlashes_cons hc ih, splitSlashes_cons hc hparts]
      rfl

/-! ## Tokens -/

lemma toList_child (base : Pointer) (token : String) :
    (child base token).toList = base.toList ++ '/' :: escapeChars token.toList := by
  simp [child, join, escape]

lemma tokens?_child (base : Pointer) (token : String) :
    tokens? (child base token) = (tokens? base).map (· ++ [token]) := by
  have hpart : (splitSlashes (escapeChars token.toList)).map
      (fun part => String.ofList (unescapeChars part)) = [token] := by
    rw [splitSlashes_of_no_slash (slash_not_mem_escapeChars _), List.map_singleton,
      unescapeChars_escapeChars, String.ofList_toList]
  simp only [tokens?, toList_child]
  cases base.toList with
  | nil =>
    simp only [List.nil_append, hpart]
    rfl
  | cons c rest =>
    by_cases hc : c = '/'
    · subst hc
      simp only [List.cons_append, splitSlashes_append, List.map_append, hpart, Option.map_some]
    · simp [hc]

/-- The tokens of a prolonged pointer. -/
lemma tokens?_join (base : Pointer) (tokens : List String) :
    tokens? (join base tokens) = (tokens? base).map (· ++ tokens) := by
  induction tokens generalizing base with
  | nil => simp [join]
  | cons token tokens ih =>
    have hjoin : join base (token :: tokens) = join (child base token) tokens := rfl
    rw [hjoin, ih, tokens?_child, Option.map_map]
    congr 1
    funext path
    simp

lemma join_append (base : Pointer) (tokens more : List String) :
    join base (tokens ++ more) = join (join base tokens) more :=
  List.foldl_append

/-! ## Indices -/

lemma exists_digitChar {c : Char} (h : c.isDigit = true) : ∃ d < 10, c = d.digitChar := by
  obtain ⟨hlow, hhigh⟩ : 48 ≤ c.toNat ∧ c.toNat ≤ 57 := by
    simpa [Char.isDigit, UInt32.le_iff_toNat_le] using h
  refine ⟨c.toNat - 48, by omega, ?_⟩
  rw [← Char.toNat_inj, Nat.toNat_digitChar_of_lt_ten (by omega)]
  omega

/-- Digits without a needless zero in front are the digits of the number that they write. -/
lemma toDigits_decimal {ds : List Char} (hds : ds ≠ []) (hdigits : ∀ c ∈ ds, c.isDigit = true)
    (hzero : ds.head? = some '0' → ds = ['0']) : Nat.toDigits 10 (Numeral.decimal ds) = ds := by
  induction ds using List.reverseRecOn with
  | nil => exact absurd rfl hds
  | append_singleton ds c ih =>
    obtain ⟨d, hd, rfl⟩ := exists_digitChar (hdigits c (by simp))
    by_cases hnil : ds = []
    · subst hnil
      simp [Numeral.decimal, Nat.ofDigitChars_cons_digitChar_of_lt_ten hd,
        Nat.toDigits_of_lt_base hd]
    · have hhead : ds.head? ≠ some '0' := by
        intro h
        have := hzero (by rw [List.head?_append, h]; rfl)
        cases ds <;> simp_all
      have hrest : Nat.toDigits 10 (Numeral.decimal ds) = ds :=
        ih hnil (fun c hc => hdigits c (List.mem_append_left _ hc)) fun h => absurd h hhead
      have hpos : 0 < Numeral.decimal ds := by
        refine Nat.pos_of_ne_zero fun h => hhead ?_
        rw [← hrest, h]
        rfl
      have hvalue : Numeral.decimal (ds ++ [d.digitChar]) = 10 * Numeral.decimal ds + d := by
        rw [Numeral.decimal, Nat.ofDigitChars_append,
          Nat.ofDigitChars_cons_digitChar_of_lt_ten hd, Nat.ofDigitChars_nil]
        rfl
      rw [hvalue, ← Nat.toDigits_append_toDigits (by decide) hpos hd, hrest,
        Nat.toDigits_of_lt_base hd]

/-- The digits of no other number than zero begin with a zero. -/
lemma eq_zero_of_toDigits {n : ℕ} {rest : List Char} (h : Nat.toDigits 10 n = '0' :: rest) :
    n = 0 := by
  induction n using Nat.base_induction 10 (by decide) generalizing rest with
  | single m hm =>
    rw [Nat.toDigits_of_lt_base hm] at h
    have hvalue := congrArg Char.toNat (List.cons.inj h).1
    rw [Nat.toNat_digitChar_of_lt_ten hm] at hvalue
    simpa using hvalue
  | digit m k hk hm ih =>
    rw [← Nat.toDigits_append_toDigits (by decide) hm hk] at h
    obtain ⟨c, cs, hcs⟩ := List.exists_cons_of_ne_nil (Nat.toDigits_ne_nil (n := m) (b := 10))
    rw [hcs, List.cons_append, List.cons.injEq] at h
    have hzero : m = 0 := ih (h.1 ▸ hcs)
    omega

lemma toList_indexToken (index : ℕ) : (indexToken index).toList = Nat.toDigits 10 index := by
  simp [indexToken]

lemma digitsIndex?_eq_some {ds : List Char} {index : ℕ} :
    digitsIndex? ds = some index
      ↔ ds ≠ [] ∧ (∀ c ∈ ds, c.isDigit = true) ∧ Numeral.decimal ds = index := by
  unfold digitsIndex?
  split
  · rename_i h
    simp only [Bool.or_eq_true, List.isEmpty_iff, Bool.not_eq_true', List.all_eq_false] at h
    refine iff_of_false (by simp) fun ⟨hne, hdigits, _⟩ => ?_
    obtain h | ⟨c, hc, hdigit⟩ := h
    · exact hne h
    · exact hdigit (hdigits c hc)
  · rename_i h
    simp only [Bool.or_eq_true, List.isEmpty_iff, Bool.not_eq_true', List.all_eq_false,
      not_or, not_exists, not_and, not_not] at h
    simp only [Option.some.injEq, ne_eq, h.1, not_false_eq_true, true_and]
    exact ⟨fun hindex => ⟨fun c hc => by simpa using h.2 c hc, hindex⟩, fun h => h.2⟩

lemma digitsIndex?_toDigits (index : ℕ) : digitsIndex? (Nat.toDigits 10 index) = some index :=
  digitsIndex?_eq_some.2 ⟨Nat.toDigits_ne_nil,
    fun c hc => Nat.isDigit_of_mem_toDigits (by decide) (by decide) hc,
    Numeral.decimal_toDigits index⟩

/-- An index has one written form. -/
lemma strictIndex?_eq_some {token : String} {index : ℕ} :
    strictIndex? token = some index ↔ token = indexToken index := by
  constructor
  · intro h
    rw [← String.toList_inj, toList_indexToken]
    unfold strictIndex? at h
    split at h
    · rename_i hzero
      rw [hzero, ← Option.some.inj h]
      rfl
    · simp at h
    · rename_i hlone hzero
      obtain ⟨hne, hdigits, rfl⟩ := digitsIndex?_eq_some.1 h
      refine (toDigits_decimal hne hdigits fun hhead => ?_).symm
      obtain ⟨rest, hrest⟩ : ∃ rest, token.toList = '0' :: rest := by
        cases hcs : token.toList with
        | nil => exact absurd hcs hne
        | cons c rest => exact ⟨rest, by simp_all⟩
      exact absurd hrest (hzero rest)
  · rintro rfl
    have hdigits := digitsIndex?_toDigits index
    unfold strictIndex?
    rw [toList_indexToken]
    split
    · rename_i hzero
      rw [hzero] at hdigits
      exact hdigits
    · rename_i rest hlone hrest
      rw [eq_zero_of_toDigits hrest, Nat.toDigits_zero] at hrest
      exact absurd (List.cons.inj hrest).2.symm hlone
    · exact hdigits

/-- What is an index strictly is one leniently. -/
lemma lenientIndex?_of_strictIndex? {token : String} {index : ℕ}
    (h : strictIndex? token = some index) : lenientIndex? token = some index := by
  obtain rfl := strictIndex?_eq_some.1 h
  unfold lenientIndex?
  rw [toList_indexToken]
  split
  · rename_i ds hplus
    have hplus : '+' ∈ Nat.toDigits 10 index := hplus ▸ List.mem_cons_self
    exact absurd (Nat.isDigit_of_mem_toDigits (by decide) (by decide) hplus) (by decide)
  · exact digitsIndex?_toDigits index

lemma indexToken_injective : Function.Injective indexToken := by
  intro first second h
  have hindex : strictIndex? (indexToken first) = some second := strictIndex?_eq_some.2 h
  exact Option.some.inj ((strictIndex?_eq_some.2 rfl).symm.trans hindex)

end Pointer

lemma Entries.mem_of_lookup {α : Type} {key : String} {value : α} {members : Entries α}
    (h : Entries.lookup key members = some value) : (key, value) ∈ members := by
  induction members with
  | nil => simp at h
  | cons member rest ih =>
    obtain ⟨k, v⟩ := member
    by_cases hk : k = key
    · subst hk
      rw [Entries.lookup_cons_self] at h
      exact Option.some.inj h ▸ List.mem_cons_self
    · rw [Entries.lookup_cons_of_ne hk] at h
      exact List.mem_cons_of_mem _ (ih h)

lemma Entries.contains_eq_isSome {α : Type} (key : String) (entries : Entries α) :
    Entries.contains key entries = (Entries.lookup key entries).isSome := by
  induction entries with
  | nil => rfl
  | cons entry rest ih =>
    obtain ⟨k, v⟩ := entry
    by_cases hk : k = key
    · simp [Entries.contains, Entries.lookup, hk]
    · rw [Entries.lookup_cons_of_ne hk, ← ih]
      simp [Entries.contains, hk]

namespace Json

/-- The value a list of tokens leads to. -/
def walk? (value : Json) (path : List String) : Option Json :=
  path.foldlM (step? Pointer.strictIndex?) value

@[simp] lemma walk?_nil (value : Json) : value.walk? [] = some value := rfl

lemma walk?_cons (value : Json) (token : String) (path : List String) :
    value.walk? (token :: path)
      = (step? Pointer.strictIndex? value token).bind (·.walk? path) := by
  simp only [walk?, List.foldlM_cons]
  rfl

lemma walk?_append (value : Json) (path more : List String) :
    value.walk? (path ++ more) = (value.walk? path).bind (·.walk? more) := by
  simp only [walk?, List.foldlM_append]
  rfl

lemma resolve?_eq (value : Json) (pointer : Pointer) :
    value.resolve? pointer = (Pointer.tokens? pointer).bind value.walk? := rfl

lemma resolve?_join (value : Json) (base : Pointer) (tokens : List String) :
    value.resolve? (Pointer.join base tokens) = (value.resolve? base).bind (·.walk? tokens) := by
  rw [resolve?_eq, resolve?_eq, Pointer.tokens?_join]
  cases Pointer.tokens? base with
  | none => rfl
  | some path => simp [walk?_append]

end Json

end SchemaAlgebra
