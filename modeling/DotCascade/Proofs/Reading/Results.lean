import DotCascade.Proofs.Reading.Spaced
import DotCascade.Reading.Source

/-!
# What a reading gives

A graph that was read is the meaning of a tree, and so is a stylesheet unless its
source holds no words.  What fails to be read as a graph or as a stylesheet fails in
the same way to be read as a phrase.
-/

namespace DotCascade

open Grammar Reading

section Results

theorem map_eq_ok_iff
    {ε α β : Type} {f : α → β} {found : Except ε α} {value : β} :
    found.map f = .ok value ↔ ∃ a, found = .ok a ∧ f a = value := by
  constructor
  · intro h
    cases found with
    | error failure =>
        cases h
    | ok a =>
        exact ⟨a, rfl, Except.ok.inj h⟩
  · rintro ⟨a, rfl, rfl⟩
    rfl

theorem mapError_eq_ok_iff
    {ε ε' α : Type} {f : ε → ε'} {found : Except ε α} {value : α} :
    found.mapError f = .ok value ↔ found = .ok value := by
  cases found with
  | error failure =>
      constructor
      · intro h
        cases h
      · intro h
        cases h
  | ok a =>
      constructor
      · intro h
        exact congrArg Except.ok (Except.ok.inj h)
      · intro h
        exact congrArg Except.ok (Except.ok.inj h)

theorem Reading.readTracked_eq_ok_iff
    {goal : Phrase} {source : List Char} {tree : Tree (.phrase goal)} :
    Reading.readTracked goal source = .ok tree ↔ Reading.read goal source = .ok tree :=
  mapError_eq_ok_iff.symm

theorem reported_eq_ok_iff
    {α : Type} {text : String} {reader : List Char → Except Located α} {value : α} :
    reported text reader = .ok value ↔ reader text.toList = .ok value :=
  mapError_eq_ok_iff

theorem eq_ok_of_toOption
    {ε α : Type} {found : Except ε α} {value : α} (h : found.toOption = some value) :
    found = .ok value := by
  cases found with
  | error failure =>
      cases h
  | ok a =>
      exact congrArg Except.ok (Option.some.inj h)

theorem exists_of_toOption_any
    {ε α : Type} {found : Except ε α} {p : α → Bool} (h : found.toOption.any p = true) :
    ∃ value, found = .ok value ∧ p value = true := by
  obtain ⟨value, hfound, hvalue⟩ := (Option.any_eq_true p _).1 h
  exact ⟨value, eq_ok_of_toOption hfound, hvalue⟩

/-- A graph that was read is the meaning of a tree. -/
theorem Graph.parse_eq_ok_iff
    {source : String} {graph : Graph} :
    Graph.parse source = .ok graph ↔
      ∃ tree, Reading.read .graph source.toList = .ok tree ∧ tree.meaning = graph := by
  rw [Graph.parse, reported_eq_ok_iff, Graph.readTracked]
  exact map_eq_ok_iff.trans (exists_congr fun _ => and_congr_left' Reading.readTracked_eq_ok_iff)

/-- A stylesheet without words is empty. -/
theorem Stylesheet.parse_of_skipGap_eq_nil
    {source : String} (h : skipGap source.toList = []) :
    Stylesheet.parse source = .ok Stylesheet.empty := by
  rw [Stylesheet.parse, reported_eq_ok_iff, Stylesheet.readTracked, h]
  rfl

/-- A stylesheet with words that was read is the meaning of a tree. -/
theorem Stylesheet.parse_eq_ok_iff
    {source : String} {stylesheet : Stylesheet} (h : skipGap source.toList ≠ []) :
    Stylesheet.parse source = .ok stylesheet ↔
      ∃ tree, Reading.read .rules source.toList = .ok tree ∧ ⟨tree.meaning⟩ = stylesheet := by
  have hfilled : ¬ (skipGap source.toList).isEmpty = true := fun hempty =>
    h (List.isEmpty_iff.1 hempty)
  rw [Stylesheet.parse, reported_eq_ok_iff, Stylesheet.readTracked, if_neg hfilled]
  exact map_eq_ok_iff.trans (exists_congr fun _ => and_congr_left' Reading.readTracked_eq_ok_iff)

/-- A source without words is not read as a row of rules, so what is read as one is a
stylesheet. -/
theorem Stylesheet.parse_of_read
    {source : String} {tree : Tree (.phrase .rules)}
    (h : Reading.read .rules source.toList = .ok tree) :
    Stylesheet.parse source = .ok ⟨tree.meaning⟩ := by
  have hfilled : skipGap source.toList ≠ [] := by
    intro hempty
    have hwhole : whole? .rules (settle .rules .finish []) = some tree := whole?_of_run hempty (run_of_read h)
    rw [settle_nil (Or.inr rfl)] at hwhole
    cases hwhole
  exact (Stylesheet.parse_eq_ok_iff hfilled).2 ⟨tree, h, rfl⟩

end Results

section Failures

theorem exists_of_mapError
    {ε ε' α : Type} {f : ε → ε'} {found : Except ε α} {failure : ε'}
    (h : found.mapError f = .error failure) :
    ∃ cause, found = .error cause ∧ f cause = failure := by
  cases found with
  | error cause =>
      exact ⟨cause, rfl, Except.error.inj h⟩
  | ok value =>
      cases h

/-- What was not read failed at some place, and the failure is reported. -/
theorem exists_located_of_reported
    {α : Type} {text : String} {reader : List Char → Except Located α} {error : ReadError}
    (h : reported text reader = .error error) :
    ∃ located, reader text.toList = .error located ∧ located.report? = error.report? := by
  obtain ⟨located, hread, rfl⟩ := exists_of_mapError h
  exact ⟨located, hread, rfl⟩

theorem eq_error_of_map
    {ε α β : Type} {f : α → β} {found : Except ε α} {failure : ε}
    (h : found.map f = .error failure) :
    found = .error failure := by
  cases found with
  | error other =>
      rw [Except.error.inj h]
  | ok value =>
      cases h

theorem Reading.read_of_error
    {goal : Phrase} {source : List Char} {located : Located}
    (h : Reading.readTracked goal source = .error located) :
    Reading.read goal source = .error located.failure := by
  rw [Reading.read, h]
  rfl

theorem Graph.readTracked_of_error
    {source : List Char} {located : Located} (h : Graph.readTracked source = .error located) :
    Reading.readTracked .graph source = .error located :=
  eq_error_of_map h

theorem Graph.read_of_error
    {source : List Char} {failure : Failure} (h : Graph.read source = .error failure) :
    Reading.read .graph source = .error failure := by
  obtain ⟨located, hread, rfl⟩ := exists_of_mapError h
  exact Reading.read_of_error (Graph.readTracked_of_error hread)

theorem Stylesheet.readTracked_of_error
    {source : List Char} {located : Located} (h : Stylesheet.readTracked source = .error located) :
    Reading.readTracked .rules source = .error located := by
  unfold Stylesheet.readTracked at h
  split at h
  case isTrue =>
    cases h
  case isFalse =>
    exact eq_error_of_map h

theorem Stylesheet.read_of_error
    {source : List Char} {failure : Failure} (h : Stylesheet.read source = .error failure) :
    Reading.read .rules source = .error failure := by
  obtain ⟨located, hread, rfl⟩ := exists_of_mapError h
  exact Reading.read_of_error (Stylesheet.readTracked_of_error hread)

end Failures

end DotCascade
