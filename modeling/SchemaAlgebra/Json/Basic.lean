import SchemaAlgebra.Json.Number
import SchemaAlgebra.Table

/-!
# JSON values

Documents, schemas and instances are all values of one type.  An object lists its members in
increasing key order, so two objects with the same members are the same value, and "document order"
means key order throughout.

* `Json.WellFormed` — every object in the value has strictly increasing keys.  The reader builds
  such values only.
* `DecidableEq Json` — equality of values as data.
* `Json.same` — equality of values as a program tests it: as data, but for the sign of a zero.
-/

namespace SchemaAlgebra

/-- A JSON value. -/
inductive Json where
  | null
  | bool (b : Bool)
  | number (n : Number)
  | string (s : String)
  | array (items : List Json)
  /-- Members, in increasing key order. -/
  | object (members : List (String × Json))
deriving Inhabited

namespace Json

/-- An integer value. -/
@[match_pattern] abbrev int (value : Int) : Json := .number (.int value)

/-- The object with these members; of two members with one key the later one stays. -/
def ofMembers (members : List (String × Json)) : Json :=
  .object (Entries.ofPairs members)

/-- The members of an object. -/
def members? : Json → Option (Entries Json)
  | .object members => some members
  | _ => none

/-- The items of an array. -/
def items? : Json → Option (List Json)
  | .array items => some items
  | _ => none

/-- The text of a string. -/
def string? : Json → Option String
  | .string s => some s
  | _ => none

/-- The truth value of a boolean. -/
def bool? : Json → Option Bool
  | .bool b => some b
  | _ => none

/-- Whether the value is `null`. -/
def isNull : Json → Bool
  | .null => true
  | _ => false

/-- Whether the value is an object. -/
def isObject : Json → Bool
  | .object _ => true
  | _ => false

/-- Whether the value is an array. -/
def isArray : Json → Bool
  | .array _ => true
  | _ => false

/-- The member of an object under `key`. -/
def member? (key : String) : Json → Option Json
  | .object members => Entries.lookup key members
  | _ => none

/-! ## Well-formed values -/

mutual

/-- Every object in the value has strictly increasing keys. -/
def WellFormed : Json → Prop
  | .array items => AllWellFormed items
  | .object members => Entries.Sorted members ∧ MembersWellFormed members
  | _ => True

/-- Each item is well formed. -/
def AllWellFormed : List Json → Prop
  | [] => True
  | item :: rest => item.WellFormed ∧ AllWellFormed rest

/-- Each member is well formed. -/
def MembersWellFormed : List (String × Json) → Prop
  | [] => True
  | (_, value) :: rest => value.WellFormed ∧ MembersWellFormed rest

end

/-! ## Equality -/

mutual

/-- Equality as data. -/
def beq : Json → Json → Bool
  | .null, .null => true
  | .bool a, .bool b => a == b
  | .number a, .number b => decide (a = b)
  | .string a, .string b => a == b
  | .array a, .array b => beqItems a b
  | .object a, .object b => beqMembers a b
  | _, _ => false

/-- Equality as data, item by item. -/
def beqItems : List Json → List Json → Bool
  | [], [] => true
  | a :: as, b :: bs => beq a b && beqItems as bs
  | _, _ => false

/-- Equality as data, member by member. -/
def beqMembers : List (String × Json) → List (String × Json) → Bool
  | [], [] => true
  | (k, a) :: as, (l, b) :: bs => k == l && beq a b && beqMembers as bs
  | _, _ => false

end

mutual

theorem eq_of_beq : ∀ {a b : Json}, beq a b = true → a = b
  | .null, b, h => by cases b <;> simp_all [beq]
  | .bool _, b, h => by cases b <;> simp_all [beq]
  | .number _, b, h => by cases b <;> simp_all [beq]
  | .string _, b, h => by cases b <;> simp_all [beq]
  | .array items, b, h => by
      cases b with
      | array others => exact congrArg _ (eq_of_beqItems (by simpa [beq] using h))
      | _ => simp [beq] at h
  | .object members, b, h => by
      cases b with
      | object others => exact congrArg _ (eq_of_beqMembers (by simpa [beq] using h))
      | _ => simp [beq] at h

theorem eq_of_beqItems : ∀ {as bs : List Json}, beqItems as bs = true → as = bs
  | [], [], _ => rfl
  | [], _ :: _, h => by simp [beqItems] at h
  | _ :: _, [], h => by simp [beqItems] at h
  | a :: as, b :: bs, h => by
      simp only [beqItems, Bool.and_eq_true] at h
      rw [eq_of_beq h.1, eq_of_beqItems h.2]

theorem eq_of_beqMembers :
    ∀ {as bs : List (String × Json)}, beqMembers as bs = true → as = bs
  | [], [], _ => rfl
  | [], _ :: _, h => by simp [beqMembers] at h
  | _ :: _, [], h => by simp [beqMembers] at h
  | (k, a) :: as, (l, b) :: bs, h => by
      simp only [beqMembers, Bool.and_eq_true, beq_iff_eq] at h
      rw [h.1.1, eq_of_beq h.1.2, eq_of_beqMembers h.2]

end

mutual

theorem beq_refl : ∀ a : Json, beq a a = true
  | .null => by simp [beq]
  | .bool _ => by simp [beq]
  | .number _ => by simp [beq]
  | .string _ => by simp [beq]
  | .array items => by simp [beq, beqItems_refl items]
  | .object members => by simp [beq, beqMembers_refl members]

theorem beqItems_refl : ∀ as : List Json, beqItems as as = true
  | [] => by simp [beqItems]
  | a :: as => by simp [beqItems, beq_refl a, beqItems_refl as]

theorem beqMembers_refl : ∀ as : List (String × Json), beqMembers as as = true
  | [] => by simp [beqMembers]
  | (_, a) :: as => by simp [beqMembers, beq_refl a, beqMembers_refl as]

end

instance : DecidableEq Json := fun a b =>
  if h : beq a b = true then .isTrue (eq_of_beq h)
  else .isFalse fun hab => h (hab ▸ beq_refl a)

mutual

/-- Equality of values as a program tests it: integers with integers, doubles with doubles, and the
sign of a zero does not count. -/
def same : Json → Json → Bool
  | .null, .null => true
  | .bool a, .bool b => a == b
  | .number a, .number b => a.same b
  | .string a, .string b => a == b
  | .array a, .array b => sameItems a b
  | .object a, .object b => sameMembers a b
  | _, _ => false

/-- Equality of two lists of items. -/
def sameItems : List Json → List Json → Bool
  | [], [] => true
  | a :: as, b :: bs => same a b && sameItems as bs
  | _, _ => false

/-- Equality of two lists of members. -/
def sameMembers : List (String × Json) → List (String × Json) → Bool
  | [], [] => true
  | (k, a) :: as, (l, b) :: bs => k == l && same a b && sameMembers as bs
  | _, _ => false

end

mutual

/-- Equality under which numbers of equal nearest doubles are equal, also inside containers. -/
def equivalent : Json → Json → Bool
  | .null, .null => true
  | .bool a, .bool b => a == b
  | .number a, .number b => a.equivalent b
  | .string a, .string b => a == b
  | .array a, .array b => equivalentItems a b
  | .object a, .object b => equivalentMembers a b
  | _, _ => false

/-- Equivalence of two lists of items. -/
def equivalentItems : List Json → List Json → Bool
  | [], [] => true
  | a :: as, b :: bs => equivalent a b && equivalentItems as bs
  | _, _ => false

/-- Equivalence of two lists of members. -/
def equivalentMembers : List (String × Json) → List (String × Json) → Bool
  | [], [] => true
  | (k, a) :: as, (l, b) :: bs => k == l && equivalent a b && equivalentMembers as bs
  | _, _ => false

end

/-- Whether no two of the values are equivalent. -/
def distinct : List Json → Bool
  | [] => true
  | value :: rest => (rest.all fun other => !value.equivalent other) && distinct rest

/-! ## Size -/

mutual

/-- How many arrays and objects lie on the longest way down. -/
def depth : Json → Nat
  | .array items => itemsDepth items + 1
  | .object members => membersDepth members + 1
  | _ => 0

/-- The greatest depth of an item. -/
def itemsDepth : List Json → Nat
  | [] => 0
  | item :: rest => max item.depth (itemsDepth rest)

/-- The greatest depth of a member. -/
def membersDepth : List (String × Json) → Nat
  | [] => 0
  | (_, value) :: rest => max value.depth (membersDepth rest)

end

theorem depth_le_of_mem_items {item : Json} {items : List Json} (h : item ∈ items) :
    item.depth ≤ itemsDepth items := by
  induction items with
  | nil => simp at h
  | cons head rest ih =>
    rcases List.mem_cons.1 h with rfl | h
    · exact Nat.le_max_left _ _
    · exact Nat.le_trans (ih h) (Nat.le_max_right _ _)

theorem depth_le_of_mem_members {member : String × Json} {members : Entries Json}
    (h : member ∈ members) : member.2.depth ≤ membersDepth members := by
  induction members with
  | nil => simp at h
  | cons head rest ih =>
    rcases List.mem_cons.1 h with rfl | h
    · exact Nat.le_max_left _ _
    · exact Nat.le_trans (ih h) (Nat.le_max_right _ _)

theorem depth_le_of_lookup {key : String} {value : Json} {members : Entries Json}
    (h : Entries.lookup key members = some value) : value.depth ≤ membersDepth members := by
  induction members with
  | nil => simp at h
  | cons member rest ih =>
    obtain ⟨k, v⟩ := member
    by_cases hk : k = key
    · subst hk
      rw [Entries.lookup_cons_self] at h
      exact Option.some.inj h ▸ Nat.le_max_left _ _
    · rw [Entries.lookup_cons_of_ne hk] at h
      exact Nat.le_trans (ih h) (Nat.le_max_right _ _)

mutual

/-- How many values the value contains, itself included. -/
def positions : Json → Nat
  | .array items => itemsPositions items + 1
  | .object members => membersPositions members + 1
  | _ => 1

/-- How many values the items contain. -/
def itemsPositions : List Json → Nat
  | [] => 0
  | item :: rest => item.positions + itemsPositions rest

/-- How many values the members contain. -/
def membersPositions : List (String × Json) → Nat
  | [] => 0
  | (_, value) :: rest => value.positions + membersPositions rest

end

end Json

end SchemaAlgebra
