import Mathlib.Data.List.Basic
import SchemaAlgebra.Combinator.Object

/-!
# Lists without repetitions

Of items that are the same the first is kept, which is what erasing duplicates from left to right does.

* `dedupeBy_eq_eraseDupsBy` — the two are the same list.
* `dedupeBy_append_assoc` — of three lists it does not matter which two are put together first.
* `Json.dedupe_strings` — of names each is kept once.
* `Fragment.openObject_eq` — an object requires each name once that is not optional.
-/

namespace SchemaAlgebra

section

variable {α β : Type} {r : α → α → Bool} {items : List α}

lemma eraseDupsBy_sublist (r : α → α → Bool) : ∀ items : List α, (items.eraseDupsBy r).Sublist items
  | [] => List.Sublist.slnil
  | item :: rest => by
    rw [List.eraseDupsBy_cons]
    exact ((eraseDupsBy_sublist r _).trans List.filter_sublist).cons_cons item
termination_by items => items.length
decreasing_by exact Nat.lt_succ_of_le (List.length_filter_le _ _)

/-- No item that is left is like one before it. -/
lemma pairwise_eraseDupsBy (r : α → α → Bool) : ∀ items : List α,
    (items.eraseDupsBy r).Pairwise fun earlier later => r later earlier = false
  | [] => List.Pairwise.nil
  | item :: rest => by
    rw [List.eraseDupsBy_cons]
    refine List.pairwise_cons.2 ⟨fun later hlater => ?_, pairwise_eraseDupsBy r _⟩
    simpa using (List.mem_filter.1 ((eraseDupsBy_sublist r _).subset hlater)).2
termination_by items => items.length
decreasing_by exact Nat.lt_succ_of_le (List.length_filter_le _ _)

lemma eraseDupsBy_eq_self (h : items.Pairwise fun earlier later => r later earlier = false) :
    items.eraseDupsBy r = items := by
  induction items with
  | nil => rfl
  | cons item rest ih =>
    obtain ⟨hitem, hrest⟩ := List.pairwise_cons.1 h
    have hkept : (rest.filter fun later => r later item = false) = rest :=
      List.filter_eq_self.2 fun later hlater => decide_eq_true (hitem later hlater)
    rw [List.eraseDupsBy_cons, hkept, ih hrest]

lemma eraseDupsBy_map (r : β → β → Bool) (g : α → β) : ∀ items : List α,
    (items.map g).eraseDupsBy r = (items.eraseDupsBy fun later earlier => r (g later) (g earlier)).map g
  | [] => rfl
  | item :: rest => by
    rw [List.map_cons, List.eraseDupsBy_cons, List.eraseDupsBy_cons, List.map_cons, List.filter_map]
    exact congrArg _ (eraseDupsBy_map r g _)
termination_by items => items.length
decreasing_by exact Nat.lt_succ_of_le (List.length_filter_le _ _)

lemma eraseDups_eq_self [BEq α] [LawfulBEq α] (h : items.Nodup) : items.eraseDups = items :=
  eraseDupsBy_eq_self (h.imp fun hne => by simpa using hne.symm)

lemma nodup_eraseDups [BEq α] [LawfulBEq α] (items : List α) : items.eraseDups.Nodup :=
  (pairwise_eraseDupsBy _ items).imp fun hne heq => by simp [heq] at hne

end

/-! ## Items that are the same -/

variable {α : Type} {same : α → α → Bool} {items : List α}

/-- What is kept of further items are those unlike all before them, kept or further ones. -/
lemma foldl_dedupe (items kept : List α) :
    items.foldl (fun kept item => if kept.any (same · item) then kept else kept ++ [item]) kept
      = kept ++ (items.filter fun item => !kept.any (same · item)).eraseDupsBy
        fun later earlier => same earlier later := by
  induction items generalizing kept with
  | nil => simp
  | cons item rest ih =>
    rw [List.foldl_cons, ih]
    cases hitem : kept.any (same · item) with
    | true => simp [hitem]
    | false => simp [hitem, List.eraseDupsBy_cons, List.filter_filter, Bool.and_comm]

/-- **First ones.**  Of items that are the same the first is kept. -/
lemma dedupeBy_eq_eraseDupsBy (same : α → α → Bool) (items : List α) :
    dedupeBy same items = items.eraseDupsBy fun later earlier => same earlier later := by
  refine (foldl_dedupe items []).trans ?_
  simp

/-- Of further items those are added that are unlike all that are kept already. -/
lemma dedupeBy_append (items more : List α) :
    dedupeBy same (items ++ more) = dedupeBy same items
      ++ (more.filter fun item => !(dedupeBy same items).any (same · item)).eraseDupsBy
        fun later earlier => same earlier later :=
  List.foldl_append.trans (foldl_dedupe more (dedupeBy same items))

lemma dedupeBy_eq_self (h : items.Pairwise fun earlier later => same earlier later = false) :
    dedupeBy same items = items := by
  rw [dedupeBy_eq_eraseDupsBy, eraseDupsBy_eq_self h]

/-- Items can be selected before repetitions are dropped if, of items that are the same, the earlier one
is selected when the later one is. -/
lemma filter_eraseDupsBy {r : α → α → Bool} {p : α → Bool}
    (h : ∀ later earlier, r later earlier = true → p later = true → p earlier = true) :
    ∀ items : List α, (items.eraseDupsBy r).filter p = (items.filter p).eraseDupsBy r
  | [] => rfl
  | item :: rest => by
    rw [List.eraseDupsBy_cons]
    cases hitem : p item with
    | true =>
      rw [List.filter_cons_of_pos hitem, List.filter_cons_of_pos hitem, List.eraseDupsBy_cons,
        filter_eraseDupsBy h, List.filter_comm]
    | false =>
      rw [List.filter_cons_of_neg (by simp [hitem]), List.filter_cons_of_neg (by simp [hitem]),
        filter_eraseDupsBy h, List.filter_filter]
      refine congrArg (List.eraseDupsBy r) (List.filter_congr fun later _ => ?_)
      cases hlater : p later with
      | true =>
        have hunlike : r later item ≠ true := fun hsame => by simpa [hitem] using h _ _ hsame hlater
        simpa using hunlike
      | false => rfl
termination_by items => items.length
decreasing_by all_goals exact Nat.lt_succ_of_le (List.length_filter_le _ _)

lemma dedupeBy_dedupeBy (items : List α) : dedupeBy same (dedupeBy same items) = dedupeBy same items := by
  refine dedupeBy_eq_self ?_
  rw [dedupeBy_eq_eraseDupsBy]
  exact pairwise_eraseDupsBy _ items

/-- What is repeated as a whole adds nothing. -/
lemma dedupeBy_append_self (hrefl : ∀ item, same item item = true)
    (h : dedupeBy same items = items) : dedupeBy same (items ++ items) = items := by
  have hnone : (items.filter fun item => !items.any (same · item)) = [] := by
    refine List.filter_eq_nil_iff.2 fun item hitem => ?_
    simpa using ⟨item, hitem, hrefl item⟩
  rw [dedupeBy_append, h, hnone]
  exact List.append_nil items

/-- Repetitions may be dropped before more is appended. -/
lemma dedupeBy_dedupeBy_append (items more : List α) :
    dedupeBy same (dedupeBy same items ++ more) = dedupeBy same (items ++ more) := by
  rw [dedupeBy_append, dedupeBy_dedupeBy, ← dedupeBy_append]

/-- Repetitions may be dropped from what is appended. -/
lemma dedupeBy_append_dedupeBy (htrans : ∀ a b c, same a b = true → same b c = true → same a c = true)
    (items more : List α) :
    dedupeBy same (items ++ dedupeBy same more) = dedupeBy same (items ++ more) := by
  have hselect : ∀ later earlier, same earlier later = true →
      (!(dedupeBy same items).any (same · later)) = true →
        (!(dedupeBy same items).any (same · earlier)) = true := by
    intro later earlier hsame hlater
    simp only [Bool.not_eq_true', List.any_eq_false] at hlater ⊢
    exact fun kept hkept hearlier => hlater kept hkept (htrans kept earlier later hearlier hsame)
  rw [dedupeBy_append, dedupeBy_append, dedupeBy_eq_eraseDupsBy same more,
    filter_eraseDupsBy hselect, eraseDupsBy_eq_self (pairwise_eraseDupsBy _ _)]

/-- Repetitions are dropped from three lists alike, whichever two are put together first. -/
lemma dedupeBy_append_assoc (htrans : ∀ a b c, same a b = true → same b c = true → same a c = true)
    (first second third : List α) :
    dedupeBy same (dedupeBy same (first ++ second) ++ third)
      = dedupeBy same (first ++ dedupeBy same (second ++ third)) :=
  calc dedupeBy same (dedupeBy same (first ++ second) ++ third)
      = dedupeBy same (first ++ second ++ third) := dedupeBy_dedupeBy_append _ _
    _ = dedupeBy same (first ++ (second ++ third)) := by rw [List.append_assoc]
    _ = dedupeBy same (first ++ dedupeBy same (second ++ third)) :=
      (dedupeBy_append_dedupeBy htrans _ _).symm

namespace Json

lemma mem_of_mem_dedupe {item : Json} {items : List Json} (h : item ∈ dedupe items) : item ∈ items := by
  rw [dedupe, dedupeBy_eq_eraseDupsBy] at h
  exact (eraseDupsBy_sublist _ items).subset h

/-- **Names** are each kept once. -/
lemma dedupe_strings (names : List String) : dedupe (names.map .string) = names.eraseDups.map .string := by
  have hsame : (fun later earlier : String => Json.same (.string earlier) (.string later))
      = (· == ·) := by
    funext later earlier
    rw [Json.same, BEq.comm]
  rw [dedupe, dedupeBy_eq_eraseDupsBy, eraseDupsBy_map, hsame]
  rfl

end Json

namespace Fragment

/-- The names of the properties that are not optional. -/
def requiredNames (properties : List (String × Fragment)) : List String :=
  (properties.filter fun property => property.2.optionalMark? ≠ some true).map Prod.fst

/-- An object requires each of them once. -/
lemma openObject_eq (properties : List (String × Fragment)) : openObject properties
    = (objectOf properties).withRequired ((requiredNames properties).eraseDups.map .string) := by
  rw [openObject, ← Json.dedupe_strings, requiredNames, List.map_map]
  rfl

end Fragment

end SchemaAlgebra
