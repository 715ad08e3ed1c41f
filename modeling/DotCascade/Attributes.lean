import DotCascade.Atom

/-!
# Attribute maps

An attribute map gives values to keys and remembers the order in which the keys
came in.  Setting a key that is already there changes its value and keeps its
place; a new key goes last.

The main statements describe every operation by look-up: `get?_set`,
`get?_overlay` and `get?_ofList`.  `same` compares two maps whatever the order of
their keys.
-/

namespace DotCascade

/-- A pair of a key and its value. -/
abbrev Attribute :=
  Atom × Atom

section Entries

/-- Gives a value to a key in a list of pairs. -/
def setEntry (key value : Atom) : List Attribute → List Attribute
  | [] => [(key, value)]
  | (k, v) :: rest =>
      if k = key then (key, value) :: rest
      else (k, v) :: setEntry key value rest

theorem mem_keys_setEntry
    {key value k : Atom} {entries : List Attribute} :
    k ∈ (setEntry key value entries).map Prod.fst ↔
      k = key ∨ k ∈ entries.map Prod.fst := by
  induction entries with
  | nil => simp [setEntry]
  | cons entry rest ih =>
      obtain ⟨k', v'⟩ := entry
      by_cases h : k' = key
      · simp [setEntry, h]
      · simp only [setEntry, if_neg h, List.map_cons, List.mem_cons, ih]
        exact or_left_comm

theorem nodup_keys_setEntry
    {entries : List Attribute}
    (h : (entries.map Prod.fst).Nodup)
    (key value : Atom) :
    ((setEntry key value entries).map Prod.fst).Nodup := by
  induction entries with
  | nil => simp [setEntry]
  | cons entry rest ih =>
      obtain ⟨k, v⟩ := entry
      rw [List.map_cons, List.nodup_cons] at h
      by_cases hk : k = key
      · subst hk
        simpa only [setEntry, if_pos, List.map_cons, List.nodup_cons] using h
      · simp only [setEntry, if_neg hk, List.map_cons, List.nodup_cons, mem_keys_setEntry]
        exact ⟨fun hm => hm.elim hk h.1, ih h.2⟩

theorem lookup_setEntry
    (key value k : Atom) (entries : List Attribute) :
    (setEntry key value entries).lookup k =
      if k = key then some value else entries.lookup k := by
  induction entries with
  | nil =>
      by_cases h : k = key
      · simp [setEntry, h]
      · simp [setEntry, List.lookup_cons, beq_false_of_ne h, h]
  | cons entry rest ih =>
      obtain ⟨k', v'⟩ := entry
      by_cases h : k' = key
      · subst h
        by_cases hk : k = k'
        · simp [setEntry, hk]
        · simp [setEntry, List.lookup_cons, beq_false_of_ne hk, hk]
      · by_cases hk : k = k'
        · simp [setEntry, h, hk]
        · simp [setEntry, List.lookup_cons, h, beq_false_of_ne hk, ih]

end Entries

/-- An attribute map: its pairs in order, no key twice. -/
structure Attributes where
  entries : List Attribute
  nodup : (entries.map Prod.fst).Nodup
deriving DecidableEq

namespace Attributes

/-- The map without keys. -/
def empty : Attributes :=
  ⟨[], List.nodup_nil⟩

/-- The keys in their order. -/
def keys (attributes : Attributes) : List Atom :=
  attributes.entries.map Prod.fst

/-- The value of a key. -/
def get? (attributes : Attributes) (key : Atom) : Option Atom :=
  attributes.entries.lookup key

/-- The map has no keys. -/
def isEmpty (attributes : Attributes) : Bool :=
  attributes.entries.isEmpty

/-- The same map with one key set. -/
def set (attributes : Attributes) (key value : Atom) : Attributes :=
  ⟨setEntry key value attributes.entries, nodup_keys_setEntry attributes.nodup key value⟩

/-- The same map with several keys set, one after the other. -/
def setAll (attributes : Attributes) (pairs : List Attribute) : Attributes :=
  pairs.foldl (fun done (key, value) => done.set key value) attributes

/-- The map that results from setting keys one after the other. -/
def ofList (pairs : List Attribute) : Attributes :=
  empty.setAll pairs

/-- The first map with every key of the second one set. -/
def overlay (lower upper : Attributes) : Attributes :=
  lower.setAll upper.entries

/-- Two maps with the same pairs, in whatever order their keys came in. -/
def same (a b : Attributes) : Bool :=
  a.entries.length = b.entries.length &&
    a.entries.all fun (key, value) => b.get? key = some value

section LookUp

@[ext] theorem ext
    {a b : Attributes} (h : a.entries = b.entries) :
    a = b := by
  cases a
  cases b
  simpa using h

@[simp] theorem get?_empty
    (key : Atom) :
    empty.get? key = none := by
  rfl

theorem get?_set
    (attributes : Attributes) (key value k : Atom) :
    (attributes.set key value).get? k =
      if k = key then some value else attributes.get? k :=
  lookup_setEntry key value k attributes.entries

/-- The last pair of a key counts, and without one the map below. -/
theorem get?_setAll
    (attributes : Attributes) (pairs : List Attribute) (k : Atom) :
    (attributes.setAll pairs).get? k =
      (pairs.reverse.lookup k).or (attributes.get? k) := by
  induction pairs generalizing attributes with
  | nil => simp [setAll]
  | cons pair rest ih =>
      obtain ⟨key, value⟩ := pair
      have hstep :
          attributes.setAll ((key, value) :: rest) =
            (attributes.set key value).setAll rest := rfl
      rw [hstep, ih, get?_set, List.reverse_cons, List.lookup_append]
      by_cases h : k = key
      · simp [h]
      · simp [h, List.lookup_cons, beq_false_of_ne h]

theorem get?_ofList
    (pairs : List Attribute) (k : Atom) :
    (ofList pairs).get? k = pairs.reverse.lookup k := by
  simp [ofList, get?_setAll]

/-- Where no key occurs twice, a look-up may start from either end. -/
theorem lookup_reverse
    {pairs : List Attribute}
    (h : (pairs.map Prod.fst).Nodup)
    (k : Atom) :
    pairs.reverse.lookup k = pairs.lookup k := by
  induction pairs with
  | nil => rfl
  | cons pair rest ih =>
      obtain ⟨key, value⟩ := pair
      rw [List.map_cons, List.nodup_cons] at h
      rw [List.reverse_cons, List.lookup_append, ih h.2]
      by_cases hk : k = key
      · subst hk
        have hnone : rest.lookup k = none := by
          rw [List.lookup_eq_none_iff]
          intro entry hentry
          exact bne_iff_ne.2 fun he =>
            h.1 (List.mem_map.2 ⟨entry, hentry, he.symm⟩)
        simp [hnone]
      · simp [List.lookup_cons, beq_false_of_ne hk]

theorem get?_overlay
    (lower upper : Attributes) (k : Atom) :
    (lower.overlay upper).get? k = (upper.get? k).or (lower.get? k) := by
  rw [overlay, get?_setAll, lookup_reverse upper.nodup]
  rfl

end LookUp

end Attributes
end DotCascade
