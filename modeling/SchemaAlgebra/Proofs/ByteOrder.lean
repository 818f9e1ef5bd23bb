import Mathlib.Data.List.Basic

/-!
# The order of texts and of their bytes

Texts are compared by code point.  UTF-8 gives a larger code point larger bytes, so the bytes of texts
compare in the same way, and whatever is sorted by one is sorted by the other.

* `Text.encode_append_lt` — of two characters the one of the smaller code has the smaller bytes.
* **`Text.bytes_lt_bytes_iff`** — texts compare as their bytes do.
-/

namespace SchemaAlgebra.Text

/-- The bytes of a text in UTF-8. -/
def bytes (s : String) : List UInt8 :=
  s.toUTF8.data.toList

lemma bytes_eq (s : String) : bytes s = s.toList.flatMap String.utf8EncodeChar := by
  obtain ⟨cs, rfl⟩ : ∃ cs, s = String.ofList cs := ⟨s.toList, String.ofList_toList.symm⟩
  rw [bytes, String.toUTF8_eq_toByteArray, String.toByteArray_ofList, String.toList_ofList,
    List.utf8Encode, List.data_toByteArray]

/-! ## Characters -/

lemma ofNat_lt_iff {m n : ℕ} (hm : m < 256) (hn : n < 256) :
    UInt8.ofNat m < UInt8.ofNat n ↔ m < n := by
  rw [UInt8.lt_iff_toNat_lt, UInt8.toNat_ofNat', UInt8.toNat_ofNat', Nat.mod_eq_of_lt hm,
    Nat.mod_eq_of_lt hn]

lemma ofNat_eq_iff {m n : ℕ} (hm : m < 256) (hn : n < 256) :
    UInt8.ofNat m = UInt8.ofNat n ↔ m = n := by
  rw [← UInt8.toNat_inj, UInt8.toNat_ofNat', UInt8.toNat_ofNat', Nat.mod_eq_of_lt hm,
    Nat.mod_eq_of_lt hn]

lemma code_lt (c : Char) : c.val.toNat < 0x110000 := by
  have hvalid : c.val.toNat < 0xd800 ∨ 0xdfff < c.val.toNat ∧ c.val.toNat < 0x110000 := c.valid
  omega

/-- Numbers compare by the first digit of base 64 in which they differ. -/
lemma digits_lt {m n : ℕ} (h : m < n) : m / 262144 < n / 262144 ∨ m / 262144 = n / 262144
    ∧ (m / 4096 % 64 < n / 4096 % 64 ∨ m / 4096 % 64 = n / 4096 % 64
      ∧ (m / 64 % 64 < n / 64 % 64 ∨ m / 64 % 64 = n / 64 % 64 ∧ m % 64 < n % 64)) := by
  have hstep : ∀ {m n : ℕ}, m < n → m / 64 < n / 64 ∨ m / 64 = n / 64 ∧ m % 64 < n % 64 := by omega
  have hsecond : ∀ n : ℕ, n / 64 / 64 = n / 4096 := fun n => Nat.div_div_eq_div_mul n 64 64
  have hthird : ∀ n : ℕ, n / 4096 / 64 = n / 262144 := fun n => Nat.div_div_eq_div_mul n 4096 64
  rcases hstep h with hlt | ⟨heq, hlt⟩
  · rcases hstep hlt with hlt | ⟨heq, hlt⟩
    · rw [hsecond, hsecond] at hlt
      rcases hstep hlt with hlt | ⟨heq, hlt⟩
      · exact .inl (by rwa [hthird, hthird] at hlt)
      · exact .inr ⟨by rwa [hthird, hthird] at heq, .inl hlt⟩
    · rw [hsecond, hsecond] at heq
      exact .inr ⟨by rw [← hthird, heq, hthird], .inr ⟨by rw [heq], .inl hlt⟩⟩
  · have hupper : m / 4096 = n / 4096 := by rw [← hsecond, heq, hsecond]
    exact .inr ⟨by rw [← hthird, hupper, hthird], .inr ⟨by rw [hupper], .inr ⟨by rw [heq], hlt⟩⟩⟩

/-- A character of a smaller code has smaller bytes, whatever follows. -/
lemma encode_append_lt {c d : Char} (h : c < d) (rest more : List UInt8) :
    String.utf8EncodeChar c ++ rest < String.utf8EncodeChar d ++ more := by
  have hlt : c.val.toNat < d.val.toNat := h
  have htop : ∀ n < 0x110000, n / 262144 % 8 = n / 262144 := by omega
  have hdigits := digits_lt hlt
  rw [← htop _ (code_lt c), ← htop _ (code_lt d)] at hdigits
  unfold String.utf8EncodeChar
  dsimp only
  -- a first byte grows with the number of bytes that it announces; of as many, digits are compared
  split_ifs <;> simp (disch := omega) only [List.cons_append, List.nil_append, List.cons_lt_cons_iff,
    ofNat_lt_iff, ofNat_eq_iff] <;> omega

/-! ## Texts -/

lemma bytes_lt_bytes {s t : String} (h : s < t) : bytes s < bytes t := by
  have h : s.toList < t.toList := h
  rw [bytes_eq, bytes_eq]
  generalize s.toList = cs at h ⊢
  generalize t.toList = ds at h ⊢
  induction h with
  | @nil d ds =>
    obtain ⟨b, bs, hb⟩ := List.exists_cons_of_ne_nil (l := String.utf8EncodeChar d) (by simp)
    rw [List.flatMap_cons, hb]
    exact List.nil_lt_cons _ _
  | rel hlt => exact encode_append_lt hlt _ _
  | cons _ ih =>
    rw [List.flatMap_cons, List.flatMap_cons]
    exact List.append_left_lt ih

/-- **The order of texts** is that of their bytes. -/
theorem bytes_lt_bytes_iff {s t : String} : bytes s < bytes t ↔ s < t := by
  refine ⟨fun h => ?_, bytes_lt_bytes⟩
  by_contra hnot
  by_cases hlt : t < s
  · exact List.lt_asymm h (bytes_lt_bytes hlt)
  · obtain rfl : s = t := String.le_antisymm (String.not_lt.1 hlt) (String.not_lt.1 hnot)
    exact List.lt_irrefl _ h

lemma bytes_le_bytes_iff {s t : String} : bytes s ≤ bytes t ↔ s ≤ t :=
  (not_congr bytes_lt_bytes_iff).trans String.not_lt

end SchemaAlgebra.Text
