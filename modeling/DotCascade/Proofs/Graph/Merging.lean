import DotCascade.Graph.Basic

/-!
# Pairs and statements in a row

A map is made again by setting its own pairs one after the other, and contents of
statements in a row merge into one.

How contents in a row are grouped does not matter (`merge_assoc`), not even for the
order of their attributes: a key that is set again stays at its place.
-/

namespace DotCascade

section Entries

theorem mem_entries_iff
    {attributes : Attributes} {key value : Atom} :
    (key, value) ∈ attributes.entries ↔ attributes.get? key = some value := by
  rw [Attributes.get?, List.lookup_eq_some_iff]
  constructor
  · intro hmem
    obtain ⟨before, behind, hcut⟩ := List.append_of_mem hmem
    refine ⟨before, behind, hcut, fun pair hpair => bne_iff_ne.2 ?_⟩
    have hnodup := attributes.nodup
    rw [hcut, List.map_append, List.nodup_append] at hnodup
    exact (hnodup.2.2 pair.1 (List.mem_map_of_mem hpair) key List.mem_cons_self).symm
  · rintro ⟨before, behind, hcut, -⟩
    rw [hcut]
    exact List.mem_append_right _ List.mem_cons_self

theorem setEntry_of_notMem
    {key : Atom} (value : Atom) {entries : List Attribute}
    (h : key ∉ entries.map Prod.fst) :
    setEntry key value entries = entries ++ [(key, value)] := by
  induction entries with
  | nil =>
      rfl
  | cons entry rest ih =>
      obtain ⟨k, v⟩ := entry
      rw [List.map_cons, List.mem_cons, not_or] at h
      rw [setEntry, if_neg (Ne.symm h.1), ih h.2]
      rfl

/-- Pairs with new keys go behind the others when they are set one after the other. -/
theorem entries_setAll
    (attributes : Attributes) {pairs : List Attribute}
    (h : ((attributes.entries ++ pairs).map Prod.fst).Nodup) :
    (attributes.setAll pairs).entries = attributes.entries ++ pairs := by
  induction pairs generalizing attributes with
  | nil =>
      simp [Attributes.setAll]
  | cons pair rest ih =>
      obtain ⟨key, value⟩ := pair
      have hnew : key ∉ attributes.entries.map Prod.fst := by
        intro hmem
        rw [List.map_append, List.nodup_append] at h
        exact h.2.2 key hmem key (by simp) rfl
      have hset : (attributes.set key value).entries = attributes.entries ++ [(key, value)] :=
        setEntry_of_notMem value hnew
      have hstep :
          attributes.setAll ((key, value) :: rest) = (attributes.set key value).setAll rest := rfl
      rw [hstep, ih (attributes.set key value) (by simpa [hset] using h), hset]
      simp

/-- A map is the one that its own pairs make. -/
theorem ofList_entries
    (attributes : Attributes) :
    Attributes.ofList attributes.entries = attributes := by
  refine Attributes.ext ?_
  exact entries_setAll Attributes.empty attributes.nodup

theorem merge_ofStatements
    (before : Content) (statements later : List Statement) :
    (before.merge (.ofStatements statements)).merge (.ofStatements later) =
      before.merge (.ofStatements (statements ++ later)) := by
  simp [Content.merge, Content.ofStatements, Attributes.overlay, Attributes.setAll,
    Attributes.empty]

/-- Nothing comes of the empty content in front of another one. -/
theorem empty_merge
    (content : Content) :
    Content.empty.merge content = content := by
  obtain ⟨attributes, statements⟩ := content
  have hattributes : Attributes.empty.overlay attributes = attributes := ofList_entries attributes
  simp [Content.merge, Content.empty, hattributes]

theorem merge_empty
    (content : Content) :
    content.merge Content.empty = content := by
  simp [Content.merge, Content.empty, Attributes.overlay, Attributes.setAll, Attributes.empty]

end Entries

section Grouping

theorem setEntry_setEntry
    (key value first : Atom) (entries : List Attribute) :
    setEntry key value (setEntry key first entries) = setEntry key value entries := by
  induction entries with
  | nil =>
      simp [setEntry]
  | cons entry rest ih =>
      obtain ⟨k, v⟩ := entry
      by_cases h : k = key
      · simp [setEntry, h]
      · simp [setEntry, h, ih]

/-- A key that is there already may be set before or after another one. -/
theorem setEntry_comm
    {key other : Atom} (hne : key ≠ other) (value further : Atom) {entries : List Attribute}
    (h : key ∈ entries.map Prod.fst) :
    setEntry key value (setEntry other further entries) =
      setEntry other further (setEntry key value entries) := by
  induction entries with
  | nil =>
      cases h
  | cons entry rest ih =>
      obtain ⟨k, v⟩ := entry
      by_cases hkey : k = key
      · subst hkey
        simp [setEntry, hne]
      · have hlater : key ∈ rest.map Prod.fst :=
          (List.mem_cons.1 h).resolve_left (Ne.symm hkey)
        by_cases hother : k = other
        · subst hother
          simp [setEntry, hkey]
        · simp [setEntry, hkey, hother, ih hlater]

variable (lower attributes : Attributes) (key value : Atom)

theorem setAll_cons
    (pairs : List Attribute) :
    attributes.setAll ((key, value) :: pairs) = (attributes.set key value).setAll pairs :=
  rfl

/-- A key that is there already may be set before or after other ones. -/
theorem set_setAll
    {attributes : Attributes} {pairs : List Attribute} (hmem : key ∈ attributes.keys)
    (hpairs : key ∉ pairs.map Prod.fst) :
    (attributes.setAll pairs).set key value = (attributes.set key value).setAll pairs := by
  induction pairs generalizing attributes with
  | nil =>
      rfl
  | cons pair rest ih =>
      obtain ⟨k, v⟩ := pair
      rw [List.map_cons, List.mem_cons, not_or] at hpairs
      have hcomm : (attributes.set k v).set key value = (attributes.set key value).set k v :=
        Attributes.ext (setEntry_comm hpairs.1 value v hmem)
      have hlater : key ∈ (attributes.set k v).keys := mem_keys_setEntry.2 (Or.inr hmem)
      rw [setAll_cons, ih hlater hpairs.2, hcomm, setAll_cons]

theorem setAll_setEntry
    {entries : List Attribute} (h : (entries.map Prod.fst).Nodup) :
    lower.setAll (setEntry key value entries) = (lower.setAll entries).set key value := by
  induction entries generalizing lower with
  | nil =>
      rfl
  | cons entry rest ih =>
      obtain ⟨k, v⟩ := entry
      rw [List.map_cons, List.nodup_cons] at h
      rw [setEntry]
      split
      case isTrue heq =>
        subst heq
        have hagain : (lower.set k v).set k value = lower.set k value :=
          Attributes.ext (setEntry_setEntry k value v lower.entries)
        have hmem : k ∈ (lower.set k v).keys := mem_keys_setEntry.2 (Or.inl rfl)
        rw [setAll_cons, setAll_cons, set_setAll k value hmem h.1, hagain]
      case isFalse =>
        rw [setAll_cons, setAll_cons, ih _ h.2]

theorem overlay_setAll
    (pairs : List Attribute) :
    lower.overlay (attributes.setAll pairs) = (lower.overlay attributes).setAll pairs := by
  induction pairs generalizing attributes with
  | nil =>
      rfl
  | cons pair rest ih =>
      obtain ⟨k, v⟩ := pair
      have hset : lower.overlay (attributes.set k v) = (lower.overlay attributes).set k v :=
        setAll_setEntry lower k v attributes.nodup
      rw [setAll_cons, setAll_cons, ih, hset]

theorem overlay_assoc
    (upper : Attributes) :
    (lower.overlay attributes).overlay upper = lower.overlay (attributes.overlay upper) :=
  (overlay_setAll lower attributes upper.entries).symm

/-- A key that has a value already may be set to it once more. -/
theorem setEntry_of_lookup
    {key value : Atom} {entries : List Attribute} (h : entries.lookup key = some value) :
    setEntry key value entries = entries := by
  induction entries with
  | nil =>
      cases h
  | cons entry rest ih =>
      obtain ⟨k, v⟩ := entry
      rw [setEntry]
      split
      case isTrue heq =>
        subst heq
        rw [List.lookup_cons_self, Option.some.injEq] at h
        rw [h]
      case isFalse hne =>
        rw [List.lookup_cons, beq_false_of_ne (Ne.symm hne)] at h
        rw [ih h]

theorem setAll_of_get?
    {pairs : List Attribute} (h : ∀ pair ∈ pairs, attributes.get? pair.1 = some pair.2) :
    attributes.setAll pairs = attributes := by
  induction pairs with
  | nil =>
      rfl
  | cons pair rest ih =>
      rw [List.forall_mem_cons] at h
      have hset : attributes.set pair.1 pair.2 = attributes :=
        Attributes.ext (setEntry_of_lookup h.1)
      rw [setAll_cons, hset, ih h.2]

theorem overlay_self :
    attributes.overlay attributes = attributes :=
  setAll_of_get? attributes fun _ hpair => mem_entries_iff.1 hpair

/-- What has been put on top of a map may be put on top of it once more. -/
theorem overlay_overlay_self :
    lower.overlay (lower.overlay attributes) = lower.overlay attributes := by
  rw [← overlay_assoc, overlay_self]

/-- Contents in a row merge into the same one however they are grouped. -/
theorem merge_assoc
    (first second third : Content) :
    (first.merge second).merge third = first.merge (second.merge third) := by
  simp only [Content.merge, overlay_assoc, List.append_assoc]

end Grouping

end DotCascade
