import DotCascade.CommandLine.Disk

/-!
# Storing bytes on a disk

A file is read under every name that leads to it step by step, and written under
the path to which a name leads (`Disk.LeadsTo`).  When bytes are stored at this
path, all directories on the way there stay what they were (`walk_store`).  So
whoever follows the name again finds these bytes (`find_store`).
-/

namespace DotCascade
namespace CommandLine

section Paths

theorem notMem_of_mem_pieces
    {separator : Char} {text piece : List Char} (h : piece ∈ Text.pieces separator text) :
    separator ∉ piece := by
  induction text generalizing piece with
  | nil =>
      obtain rfl := List.mem_singleton.1 h
      exact List.not_mem_nil
  | cons c rest ih =>
      by_cases hc : c = separator
      · have hpieces : Text.pieces separator (c :: rest) = [] :: Text.pieces separator rest := by
          simp [Text.pieces, Text.piecesBetween, hc]
        rw [hpieces] at h
        rcases List.mem_cons.1 h with rfl | hlater
        · exact List.not_mem_nil
        · exact ih hlater
      · have hpieces :
            Text.pieces separator (c :: rest) =
              (c :: (Text.piecesBetween separator rest).1) ::
                (Text.piecesBetween separator rest).2 := by
          simp [Text.pieces, Text.piecesBetween, hc]
        rw [hpieces] at h
        rcases List.mem_cons.1 h with rfl | hlater
        · rw [List.mem_cons, not_or]
          exact ⟨Ne.symm hc, ih List.mem_cons_self⟩
        · exact ih (List.mem_cons_of_mem _ hlater)

namespace Path

/-- Every step of a path is something between two slashes. -/
def IsProper (path : Path) : Prop :=
  ∀ step ∈ path.steps, step ≠ [] ∧ '/' ∉ step

theorem isProper_ofName
    (name : String) :
    (ofName name).IsProper := by
  intro step hstep
  obtain ⟨hpiece, hstays⟩ := List.mem_filter.1 hstep
  refine ⟨?_, notMem_of_mem_pieces hpiece⟩
  rintro rfl
  exact absurd hstays (by decide)

theorem absolute_enter
    (path : Path) (step : PathStep) :
    (path.enter step).absolute = path.absolute := by
  unfold enter
  split
  · split
    · split <;> rfl
    · split <;> rfl
  · rfl

theorem steps_enter_subset
    (path : Path) (step : PathStep) :
    (path.enter step).steps ⊆ path.steps ++ [step] := by
  unfold enter
  split
  · split
    · split
      · exact List.Subset.refl _
      · exact List.subset_append_of_subset_left _ (List.dropLast_subset _)
    · split
      · exact List.subset_append_left _ _
      · exact List.Subset.refl _
  · exact List.Subset.refl _

theorem IsProper.enter
    {path : Path} {step : PathStep} (h : path.IsProper) (hstep : step ≠ [] ∧ '/' ∉ step) :
    (path.enter step).IsProper := by
  intro other hother
  rcases List.mem_append.1 (steps_enter_subset path step hother) with hmem | hmem
  · exact h other hmem
  · rw [List.mem_singleton.1 hmem]
    exact hstep

/-- Proper steps can be told from the characters of the path. -/
theorem IsProper.steps_eq
    {path other : Path} (h : path.IsProper) (hother : other.IsProper)
    (habsolute : path.absolute = other.absolute) (hwritten : path.written = other.written) :
    path.steps = other.steps := by
  have hsteps : List.intercalate ['/'] path.steps = List.intercalate ['/'] other.steps := by
    simp only [written, habsolute] at hwritten
    split at hwritten
    · exact List.tail_eq_of_cons_eq hwritten
    · exact hwritten
  -- Without steps nothing is written, and the pieces of nothing are one empty piece.
  have hfilled {steps : List PathStep} (hproper : ∀ step ∈ steps, step ≠ [] ∧ '/' ∉ step)
      (hne : steps ≠ []) : List.intercalate ['/'] steps ≠ [] := by
    intro hnil
    have hsplit := List.splitOn_intercalate '/' (fun step hstep => (hproper step hstep).2) hne
    rw [hnil, List.splitOn_nil] at hsplit
    exact (hproper [] (hsplit ▸ List.mem_singleton_self [])).1 rfl
  by_cases hpath : path.steps = []
  · rw [hpath] at hsteps ⊢
    by_cases hnil : other.steps = []
    · exact hnil.symm
    · exact absurd hsteps.symm (hfilled hother hnil)
  · by_cases hnil : other.steps = []
    · rw [hnil] at hsteps
      exact absurd hsteps (hfilled h hpath)
    · rw [← List.splitOn_intercalate '/' (fun step hstep => (h step hstep).2) hpath, hsteps,
        List.splitOn_intercalate '/' (fun step hstep => (hother step hstep).2) hnil]

end Path

end Paths

namespace Disk

variable {disk : Disk} {bytes : ByteArray}

section Walks

theorem enter_eq_ok_iff
    {place next : Place} {step : PathStep} :
    disk.enter place step = .ok next ↔
      place.entry = .directory ∧ encodedLength step ≤ maxStepLength ∧
        next.path = place.path.enter step ∧ disk.entry? next.path = some next.entry := by
  obtain ⟨path, entry⟩ := next
  unfold enter
  cases place.entry with
  | file => simp
  | directory =>
      by_cases hlength : encodedLength step ≤ maxStepLength
      · simp only [if_pos hlength]
        split
        case h_1 found hfound =>
          simp only [Except.ok.injEq, Place.mk.injEq, true_and]
          constructor
          · rintro ⟨rfl, rfl⟩
            exact ⟨hlength, rfl, hfound⟩
          · rintro ⟨-, rfl, hentry⟩
            exact ⟨rfl, Option.some.inj (hfound.symm.trans hentry)⟩
        case h_2 hnone =>
          simp only [reduceCtorEq, true_and, false_iff]
          rintro ⟨-, rfl, hentry⟩
          rw [hnone] at hentry
          cases hentry
      · simp [hlength]

theorem enter_eq_missing
    {place : Place} {step : PathStep} (h : disk.enter place step = .error .missing) :
    place.entry = .directory ∧ encodedLength step ≤ maxStepLength ∧
      disk.entry? (place.path.enter step) = none := by
  unfold enter at h
  split at h
  case h_1 =>
    cases h
  case h_2 hplace =>
    split at h
    case isTrue hlength =>
      simp only at h
      split at h
      case h_1 =>
        cases h
      case h_2 hnone =>
        exact ⟨hplace, hlength, hnone⟩
    case isFalse =>
      cases h

theorem walk_cons_eq_ok_iff
    {place final : Place} {step : PathStep} {rest : List PathStep} :
    disk.walk place (step :: rest) = .ok final ↔
      ∃ next, disk.enter place step = .ok next ∧ disk.walk next rest = .ok final := by
  rw [walk]
  cases disk.enter place step with
  | ok next => simp
  | error fault => simp

theorem walk_concat_eq_ok_iff
    {place final : Place} {front : List PathStep} {last : PathStep} :
    disk.walk place (front ++ [last]) = .ok final ↔
      ∃ middle, disk.walk place front = .ok middle ∧ disk.enter middle last = .ok final := by
  induction front generalizing place with
  | nil =>
      rw [List.nil_append, walk_cons_eq_ok_iff]
      simp [walk]
  | cons step rest ih =>
      simp only [List.cons_append, walk_cons_eq_ok_iff, ih]
      constructor
      · rintro ⟨next, hstep, middle, hmiddle, hlast⟩
        exact ⟨middle, ⟨next, hstep, hmiddle⟩, hlast⟩
      · rintro ⟨middle, ⟨next, hstep, hmiddle⟩, hlast⟩
        exact ⟨next, hstep, middle, hmiddle, hlast⟩

/-- Only from a directory one can go on. -/
theorem directory_of_walk
    {place final : Place} {steps : List PathStep} (h : disk.walk place steps = .ok final)
    (hfinal : final.entry = .directory) :
    place.entry = .directory := by
  cases steps with
  | nil =>
      obtain rfl := Except.ok.inj h
      exact hfinal
  | cons step rest =>
      obtain ⟨next, hnext, -⟩ := walk_cons_eq_ok_iff.1 h
      exact (enter_eq_ok_iff.1 hnext).1

theorem absolute_walk
    {place final : Place} {steps : List PathStep} (h : disk.walk place steps = .ok final) :
    final.path.absolute = place.path.absolute := by
  induction steps generalizing place with
  | nil =>
      obtain rfl := Except.ok.inj h
      rfl
  | cons step rest ih =>
      obtain ⟨next, hnext, hrest⟩ := walk_cons_eq_ok_iff.1 h
      rw [ih hrest, (enter_eq_ok_iff.1 hnext).2.2.1, Path.absolute_enter]

theorem isProper_walk
    {place final : Place} {steps : List PathStep} (h : disk.walk place steps = .ok final)
    (hplace : place.path.IsProper) (hsteps : ∀ step ∈ steps, step ≠ [] ∧ '/' ∉ step) :
    final.path.IsProper := by
  induction steps generalizing place with
  | nil =>
      obtain rfl := Except.ok.inj h
      exact hplace
  | cons step rest ih =>
      rw [List.forall_mem_cons] at hsteps
      obtain ⟨next, hnext, hrest⟩ := walk_cons_eq_ok_iff.1 h
      refine ih hrest ?_ hsteps.2
      rw [(enter_eq_ok_iff.1 hnext).2.2.1]
      exact hplace.enter hsteps.1

end Walks

section Storing

/-- The disk with some bytes in the file at a path. -/
def store (disk : Disk) (path : Path) (bytes : ByteArray) : Disk :=
  ⟨(path.name, bytes) :: disk.files, disk.directories⟩

/-- The disk with other bytes in the file under a name. -/
def overwrite (disk : Disk) (name : String) (bytes : ByteArray) : Disk :=
  match disk.find name with
  | .ok ⟨path, .file _⟩ => disk.store path bytes
  | _ => disk

theorem entry?_store_self
    (path : Path) :
    entry? (disk.store path bytes) path = some (.file bytes) := by
  simp [store, entry?]

/-- What is a directory stays one unless the file that is stored bears its name. -/
theorem entry?_store_of_ne
    {path other : Path} (hne : other.name ≠ path.name)
    (h : disk.entry? other = some .directory) :
    entry? (disk.store path bytes) other = some .directory := by
  have hlookup :
      (disk.store path bytes).files.lookup other.name = disk.files.lookup other.name := by
    rw [store, List.lookup_cons, beq_false_of_ne hne]
  unfold entry? at h ⊢
  rw [hlookup]
  split at h
  case h_1 =>
    cases h
  case h_2 =>
    split at h
    case isTrue hdirectory =>
      rw [if_pos]
      unfold hasDirectory at hdirectory ⊢
      simp only [store, List.any_cons, Bool.or_eq_true] at hdirectory ⊢
      exact hdirectory.imp_right Or.inr
    case isFalse =>
      cases h

/-- Two ways to write the path of one place lead to the same directory. -/
theorem entry?_of_name_eq
    {path other : Path} (hpath : path.IsProper) (hother : other.IsProper)
    (habsolute : path.absolute = other.absolute) (hname : path.name = other.name) :
    disk.entry? path = disk.entry? other := by
  have hwritten : path.written = other.written := String.ofList_injective hname
  have hsame : path = other := by
    obtain ⟨absolute, steps⟩ := path
    obtain ⟨absolute', steps'⟩ := other
    obtain rfl : absolute = absolute' := habsolute
    exact congrArg (Path.mk absolute) (hpath.steps_eq hother rfl hwritten)
  rw [hsame]

/-- Storing bytes where there is no directory changes no walk through directories. -/
theorem walk_store
    {path : Path} (hpath : path.IsProper) (hentry : disk.entry? path ≠ some .directory)
    {place final : Place} {steps : List PathStep} (hplace : place.path.IsProper)
    (hsteps : ∀ step ∈ steps, step ≠ [] ∧ '/' ∉ step)
    (habsolute : place.path.absolute = path.absolute)
    (h : disk.walk place steps = .ok final) (hfinal : final.entry = .directory) :
    (disk.store path bytes).walk place steps = .ok final := by
  induction steps generalizing place with
  | nil =>
      exact h
  | cons step rest ih =>
      rw [List.forall_mem_cons] at hsteps
      obtain ⟨next, hnext, hrest⟩ := walk_cons_eq_ok_iff.1 h
      obtain ⟨hdirectory, hlength, hentered, hfound⟩ := enter_eq_ok_iff.1 hnext
      rw [directory_of_walk hrest hfinal] at hfound
      have hproper : next.path.IsProper := hentered ▸ hplace.enter hsteps.1
      have hsame : next.path.absolute = path.absolute := by
        rw [hentered, Path.absolute_enter, habsolute]
      have hne : next.path.name ≠ path.name := fun hname =>
        hentry (entry?_of_name_eq hproper hpath hsame hname ▸ hfound)
      have hstored : entry? (disk.store path bytes) next.path = some .directory :=
        entry?_store_of_ne hne hfound
      rw [← directory_of_walk hrest hfinal] at hstored
      have hagain := enter_eq_ok_iff.2 ⟨hdirectory, hlength, hentered, hstored⟩
      exact walk_cons_eq_ok_iff.2 ⟨next, hagain, ih hproper hsteps.2 hsame hrest⟩

end Storing

section Names

/-- A name leads through directories to a path where there is no directory. -/
def LeadsTo (disk : Disk) (name path : Path) : Prop :=
  ∃ front last place,
    name.steps = front ++ [last] ∧ disk.walk ⟨name.origin, .directory⟩ front = .ok place ∧
      place.entry = .directory ∧ encodedLength last ≤ maxStepLength ∧
        place.path.enter last = path ∧ disk.entry? path ≠ some .directory

theorem leadsTo_of_walk
    {name path : Path}
    (h : disk.walk ⟨name.origin, .directory⟩ name.steps = .ok ⟨path, .file bytes⟩) :
    disk.LeadsTo name path := by
  obtain hnil | ⟨front, last, hsteps⟩ := List.eq_nil_or_concat name.steps
  · rw [hnil] at h
    cases h
  · rw [List.concat_eq_append] at hsteps
    rw [hsteps] at h
    obtain ⟨middle, hfront, hlast⟩ := walk_concat_eq_ok_iff.1 h
    obtain ⟨hdirectory, hlength, hpath, hentry⟩ := enter_eq_ok_iff.1 hlast
    refine ⟨front, last, middle, hsteps, hfront, hdirectory, hlength, hpath.symm, ?_⟩
    rw [hentry]
    simp

theorem leadsTo_of_target
    {name : String} {path : Path} (h : disk.target name = .ok path) :
    disk.LeadsTo (.ofName name) path := by
  unfold target at h
  simp only at h
  split at h
  case isTrue =>
    cases h
  case isFalse =>
    split at h
    case h_1 =>
      cases h
    case h_2 last hlast =>
      obtain ⟨front, hsteps⟩ := List.getLast?_eq_some_iff.1 hlast
      rw [hsteps, List.dropLast_concat] at h
      split at h
      case h_1 =>
        cases h
      case h_2 place hplace =>
        split at h
        case h_1 found bytes hfound =>
          obtain rfl := Except.ok.inj h
          obtain ⟨hdirectory, hlength, hpath, hentry⟩ := enter_eq_ok_iff.1 hfound
          refine ⟨front, last, place, hsteps, hplace, hdirectory, hlength, hpath.symm, ?_⟩
          rw [hentry]
          simp
        case h_2 =>
          cases h
        case h_3 hmissing =>
          obtain rfl := Except.ok.inj h
          obtain ⟨hdirectory, hlength, hentry⟩ := enter_eq_missing hmissing
          refine ⟨front, last, place, hsteps, hplace, hdirectory, hlength, rfl, ?_⟩
          rw [hentry]
          simp
        case h_4 =>
          cases h

/-- Bytes that are stored at a path are found when the name is followed again. -/
theorem LeadsTo.walk
    {name path : Path} (h : disk.LeadsTo name path) (hname : name.IsProper) (bytes : ByteArray) :
    (disk.store path bytes).walk ⟨name.origin, .directory⟩ name.steps =
      .ok ⟨path, .file bytes⟩ := by
  obtain ⟨front, last, place, hsteps, hfront, hdirectory, hlength, hpath, hentry⟩ := h
  have hproper := hname
  rw [Path.IsProper, hsteps, List.forall_mem_append] at hproper
  have horigin : name.origin.IsProper := fun _ hstep => absurd hstep List.not_mem_nil
  have hplace : place.path.IsProper := isProper_walk hfront horigin hproper.1
  have htarget : path.IsProper := hpath ▸ hplace.enter (hproper.2 last List.mem_cons_self)
  have habsolute : name.origin.absolute = path.absolute := by
    rw [← hpath, Path.absolute_enter, absolute_walk hfront]
  rw [hsteps]
  refine walk_concat_eq_ok_iff.2
    ⟨place, walk_store htarget hentry horigin hproper.1 habsolute hfront hdirectory, ?_⟩
  exact enter_eq_ok_iff.2 ⟨hdirectory, hlength, hpath.symm, entry?_store_self path⟩

/-- A name under which a file can be found. -/
structure IsFileName (name : String) : Prop where
  noNull : '\x00' ∉ name.toList
  filled : name.toList ≠ []
  length : encodedLength name.toList ≤ maxNameLength
  inside : endsInPlace name = false

/-- A file name is followed step by step. -/
theorem find_eq_walk
    {name : String} (h : IsFileName name) :
    disk.find name =
      disk.walk ⟨(Path.ofName name).origin, .directory⟩ (Path.ofName name).steps := by
  have hnull : name.toList.contains '\x00' = false := by
    simpa using h.noNull
  have hfilled : name.toList.isEmpty = false := by
    simpa using h.filled
  have hlength : ¬ maxNameLength < encodedLength name.toList :=
    Nat.not_lt.2 h.length
  simp only [find, hnull, hfilled, hlength, h.inside, if_false, Bool.false_eq_true]
  split
  case h_1 hwalk =>
    exact hwalk.symm
  case h_2 =>
    rfl

/-- Files are found under file names only. -/
theorem isFileName_of_find
    {name : String} {path : Path} (h : disk.find name = .ok ⟨path, .file bytes⟩) :
    IsFileName name := by
  unfold find at h
  simp only at h
  split at h
  case isTrue =>
    cases h
  case isFalse hnull =>
    split at h
    case isTrue =>
      cases h
    case isFalse hfilled =>
      split at h
      case isTrue =>
        cases h
      case isFalse hlength =>
        split at h
        case h_1 =>
          split at h
          case isTrue =>
            cases h
          case isFalse hinside =>
            exact ⟨by simpa using hnull, by simpa using hfilled, Nat.not_lt.1 hlength,
              by simpa using hinside⟩
        case h_2 hother =>
          exact absurd h (hother path bytes)

/-- Whoever follows a name to the path at which bytes are stored finds them. -/
theorem find_store
    {name : String} {path : Path} (h : disk.LeadsTo (.ofName name) path) (hname : IsFileName name)
    (bytes : ByteArray) :
    (disk.store path bytes).find name = .ok ⟨path, .file bytes⟩ := by
  rw [find_eq_walk hname]
  exact h.walk (Path.isProper_ofName name) bytes

theorem bytes?_eq_some_iff
    {name : String} :
    disk.bytes? name = some bytes ↔ ∃ path, disk.find name = .ok ⟨path, .file bytes⟩ := by
  unfold bytes?
  split
  case h_1 path found hfound =>
    simp [hfound]
  case h_2 hother =>
    simp only [reduceCtorEq, false_iff, not_exists]
    exact fun path hpath => hother path bytes hpath

/-- A file that is overwritten holds the other bytes. -/
theorem bytes?_overwrite
    {name : String} (h : disk.bytes? name = some bytes) (later : ByteArray) :
    (disk.overwrite name later).bytes? name = some later := by
  obtain ⟨path, hfind⟩ := bytes?_eq_some_iff.1 h
  have hname := isFileName_of_find hfind
  have hwalk := find_eq_walk hname ▸ hfind
  have hstored : disk.overwrite name later = disk.store path later := by
    rw [overwrite, hfind]
  rw [hstored]
  exact bytes?_eq_some_iff.2 ⟨path, find_store (leadsTo_of_walk hwalk) hname later⟩

/-- What was written under a name is found under every name of the same path. -/
theorem bytes?_store_of_target
    {name other : String} {path : Path} (h : disk.target name = .ok path)
    (hother : Path.ofName other = Path.ofName name) (hname : IsFileName other)
    (bytes : ByteArray) :
    (disk.store path bytes).bytes? other = some bytes := by
  have hleads := leadsTo_of_target h
  rw [← hother] at hleads
  exact bytes?_eq_some_iff.2 ⟨path, find_store hleads hname bytes⟩

end Names

end Disk

end CommandLine
end DotCascade
