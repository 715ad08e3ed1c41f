import DotCascade.Proofs.Atom.Legible
import DotCascade.Proofs.Atom.RoundTrip
import DotCascade.Proofs.Grammar.Respelling
import DotCascade.Proofs.Reading.Insertion
import DotCascade.Proofs.Reading.Seams

/-!
# Other spellings of a word

A bare word or a number may stand between quotes, an edge may be written in either
way, and a separator may be left out: the same is read (`parse_respelled`).

A word is taken at some place of the source.  The new spelling continues no word in
front of the place and nothing behind it, so the words on both sides stay what they
are (`exists_occurs`).  With the words of the new spelling between them
they make a derivation that means the same.
-/

namespace DotCascade

open Grammar Reading

section Spellings

/-- A piece of a source, with what stands before and behind it, is taken as a word of some kind. -/
def IsTakenAs
    (terminal : Terminal) (goal : Phrase) (before piece behind : List Char) : Prop :=
  let source := before ++ piece ++ behind
  ∃ taken ∈ (Progress.start source).words goal source.length,
    taken.terminal = terminal ∧ taken.piece = piece ∧ taken.text = piece ++ behind

instance decidableIsTakenAs
    (terminal : Terminal) (goal : Phrase) (before piece behind : List Char) :
    Decidable (IsTakenAs terminal goal before piece behind) :=
  inferInstanceAs (Decidable (∃ _ ∈ _, _ = _ ∧ _ = _ ∧ _ = _))

/-- A piece of a source is taken as a semicolon or comma that ends a statement, a declaration or a
pair in brackets. -/
def IsSeparatorOf (goal : Phrase) (before piece behind : List Char) : Prop :=
  let source := before ++ piece ++ behind
  ∃ tree, read goal source = .ok tree ∧
    ∃ entry ∈ ((Progress.start source).words goal source.length).zip tree.separators,
      entry.1.terminal ∈ [Terminal.semicolon, .comma] ∧ entry.1.piece = piece ∧
        entry.1.text = piece ++ behind ∧ entry.2 = true

instance decidableIsSeparatorOf
    (goal : Phrase) (before piece behind : List Char) :
    Decidable (IsSeparatorOf goal before piece behind) :=
  let source := before ++ piece ++ behind
  match h : read goal source with
  | .error _ => isFalse fun ⟨tree, htree, _⟩ => by
      rw [h] at htree
      cases htree
  | .ok tree =>
      decidable_of_iff
        (∃ entry ∈ ((Progress.start source).words goal source.length).zip tree.separators,
          entry.1.terminal ∈ [Terminal.semicolon, .comma] ∧ entry.1.piece = piece ∧
            entry.1.text = piece ++ behind ∧ entry.2 = true) <| by
        constructor
        · exact fun hentry => ⟨tree, h, hentry⟩
        · rintro ⟨other, hother, hentry⟩
          rw [h] at hother
          obtain rfl := Except.ok.inj hother
          exact hentry

/-- Another spelling of a word of a source. -/
inductive Respells (goal : Phrase) (before piece behind : List Char) : List Char → Prop
  /-- A bare word is put between quotes. -/
  | quotedWord (h : IsTakenAs .identifier goal before piece behind) :
      Respells goal before piece behind ('"' :: (piece ++ ['"']))
  /-- A number is put between quotes. -/
  | quotedNumber (h : IsTakenAs .number goal before piece behind) :
      Respells goal before piece behind ('"' :: (piece ++ ['"']))
  /-- An edge is written with an arrow. -/
  | arrow (h : IsTakenAs .edgeOperator goal before piece behind) :
      Respells goal before piece behind ['-', '>']
  /-- An edge is written with a line. -/
  | line (h : IsTakenAs .edgeOperator goal before piece behind) :
      Respells goal before piece behind ['-', '-']
  /-- A space stands in the place of a separator. -/
  | space (h : IsSeparatorOf goal before piece behind) :
      Respells goal before piece behind [' ']

end Spellings

section Places

variable {goal : Phrase} {tree : Tree (.phrase goal)}

/-- In front of the place where a word is taken, as many words have been read as are taken
before. -/
theorem exists_reaches_of_getElem?
    {length : Nat} {progress : Progress} {n : Nat} {taken : Taken}
    (h : (progress.words goal length)[n]? = some taken) :
    ∃ place next, Reaches goal length progress place ∧
      step goal length place = .more taken next ∧
      (framesYield place.frames).length = (framesYield progress.frames).length + n := by
  fun_induction Progress.words goal length progress generalizing n with
  | case1 progress first next hstep _ ih =>
      cases n with
      | zero =>
          obtain rfl := Option.some.inj h
          exact ⟨progress, next, .here, hstep, rfl⟩
      | succ n =>
          obtain ⟨place, behind, hplace, htaken, hlength⟩ := ih h
          refine ⟨place, behind, .taken hstep hplace, htaken, ?_⟩
          have houtcome : Outcome goal length progress (.more first next) := hstep ▸ outcome_step
          cases houtcome with
          | taken word hfirst htells hread =>
              rw [hlength, framesYield_readWord? hread, List.length_append]
              simp only [List.length_cons, List.length_nil]
              omega
  | case2 =>
      cases h

/-- A word of a tree with the words in front of it and behind it, and the piece of the source that
spells it. -/
structure Occurs (goal : Phrase) (before piece behind : List Char) (tree : Tree (.phrase goal))
    (front : List Word) (word : Word) (back : List Word) : Prop where
  yield : tree.yield = front ++ word :: back
  spelling : Spelling word.terminal piece
  tells : lexeme word.terminal piece = .ok word.lexeme
  scans : Scans behind back []
  place : ∃ place gap,
    Reaches goal (before ++ piece ++ behind).length
        (Progress.start (before ++ piece ++ behind)) place ∧
      place.text = gap ++ (piece ++ behind) ∧ IsGap gap ∧ framesYield place.frames = front

/-- The word that is taken as the one of some number stands at that place of the tree. -/
theorem exists_occurs
    (hgoal : IsGoal goal) {before piece behind : List Char} {n : Nat} {taken : Taken}
    (htaken : ((Progress.start (before ++ piece ++ behind)).words goal
      (before ++ piece ++ behind).length)[n]? = some taken)
    (hpiece : taken.piece = piece) (htext : taken.text = piece ++ behind)
    (hstrict : taken.terminal ≠ .strict)
    (hread : Reading.read goal (before ++ piece ++ behind) = .ok tree) :
    ∃ front word back, front.length = n ∧ word.terminal = taken.terminal ∧
      Occurs goal before piece behind tree front word back := by
  obtain ⟨place, next, hplace, hstep, hlength⟩ := exists_reaches_of_getElem? htaken
  obtain ⟨-, words, -, hwords, -⟩ := hplace.exists_front
  have hframed : Framed goal place.frames := framed_readWords? .nil hwords
  have hrun : next.run goal (before ++ piece ++ behind).length = .ok tree := by
    rw [← (hplace.trans (.taken hstep .here)).run_eq]
    exact run_of_read hread
  have houtcome : Outcome goal (before ++ piece ++ behind).length place (.more taken next) :=
    hstep ▸ outcome_step
  cases houtcome with
  | @taken word piece' frames hfirst htells hword =>
      subst hpiece
      have htext : skipGap place.text = piece' ++ behind := htext
      have hfound := piece?_of_firstWord? hfirst
      obtain ⟨gap, hplaced, -, hgap⟩ := skipsGap place.text
      rw [htext] at hplaced hgap
      have hfilled : piece' ++ behind ≠ [] :=
        List.append_ne_nil_of_left_ne_nil (piece?_ne_nil hfound) behind
      obtain ⟨back, hscans, hyield⟩ := scans_of_run hgoal (framed_readWord? hframed hword)
        (begun_readWord? hgoal hframed hstrict hword) hrun
      rw [htext, List.drop_left] at hscans
      rw [framesYield_readWord? hword, List.append_assoc] at hyield
      refine ⟨framesYield place.frames, word, back, ?_, rfl, hyield, spelling_of_piece? hfound,
        htells, hscans, place, gap, hplace, hplaced, hgap hfilled, rfl⟩
      rw [hlength]
      exact Nat.zero_add n

/-- Another text that continues no word can stand in the place of a word if its words and those
around the place mean the same as before. -/
theorem Occurs.exists_read
    (hgoal : IsGoal goal) {before piece behind : List Char} {front back : List Word} {word : Word}
    (h : Occurs goal before piece behind tree front word back)
    {respelled : List Char} (hrespelled : Detached (respelled ++ behind)) (words : List Word)
    (hscans : Scans (respelled ++ behind) (words ++ back) [])
    (hmeans : tree.Means (front ++ (words ++ back))) :
    ∃ other, Reading.read goal (before ++ respelled ++ behind) = .ok other ∧
      other.meaning = tree.meaning := by
  obtain ⟨place, gap, hplace, htext, hgap, rfl⟩ := h.place
  obtain ⟨other, hyield, hmeaning⟩ := hmeans
  refine ⟨other, ?_, hmeaning⟩
  have hskip : skipGap (gap ++ (respelled ++ behind)) = skipGap (respelled ++ behind) :=
    hgap (respelled ++ behind)
  rw [List.append_assoc]
  exact read_of_exchange hgoal hplace (List.append_assoc ..) htext hrespelled
    (.gap hskip hscans) hyield

end Places

section Exchanges

variable {goal : Phrase} {before piece behind : List Char} {tree : Tree (.phrase goal)}

/-- A word that is taken as a word of some kind stands in the tree. -/
theorem exists_occurs_of_isTakenAs
    (hgoal : IsGoal goal) {terminal : Terminal}
    (h : IsTakenAs terminal goal before piece behind) (hstrict : terminal ≠ .strict)
    (hread : Reading.read goal (before ++ piece ++ behind) = .ok tree) :
    ∃ front word back, word.terminal = terminal ∧
      Occurs goal before piece behind tree front word back := by
  obtain ⟨taken, htaken, rfl, hpiece, htext⟩ := h
  obtain ⟨n, hn⟩ := List.mem_iff_getElem?.1 htaken
  obtain ⟨front, word, back, -, hterminal, hoccurs⟩ :=
    exists_occurs hgoal hn hpiece htext hstrict hread
  exact ⟨front, word, back, hterminal, hoccurs⟩

/-- A text without quotes and backslashes is written as it is, between quotes. -/
theorem written_of_isBareChar
    {text : List Char} (h : ∀ c ∈ text, isBareChar c = true) :
    (Atom.text (String.ofList text)).written = '"' :: (text ++ ['"']) := by
  have hplain : text.flatMap writtenTextChar = text := by
    induction text with
    | nil =>
        rfl
    | cons c rest ih =>
        rw [List.forall_mem_cons] at h
        have hquote : c ≠ '"' := by
          rintro rfl
          exact absurd h.1 (by decide)
        rw [List.flatMap_cons, writtenTextChar, if_neg hquote, ih h.2]
        rfl
  rw [Atom.written, String.toList_ofList, hplain]
  rfl

theorem exists_read_quoted
    (hgoal : IsGoal goal) {terminal : Terminal}
    (hterminal : terminal = .identifier ∨ terminal = .number)
    (h : IsTakenAs terminal goal before piece behind)
    (hread : Reading.read goal (before ++ piece ++ behind) = .ok tree) :
    ∃ other, Reading.read goal (before ++ '"' :: (piece ++ ['"']) ++ behind) = .ok other ∧
      other.meaning = tree.meaning := by
  have hstrict : terminal ≠ .strict := by
    rcases hterminal with rfl | rfl <;> decide
  obtain ⟨front, word, back, rfl, hoccurs⟩ := exists_occurs_of_isTakenAs hgoal h hstrict hread
  have hbare := isBareChar_of_spelling hoccurs.spelling hterminal
  have htext : word.bareText? = some (String.ofList piece) := by
    obtain ⟨kind, lexeme⟩ := word
    rcases hterminal with rfl | rfl <;> exact congrArg some (Except.ok.inj hoccurs.tells).symm
  have hfaithful : (Atom.text (String.ofList piece)).isFaithful = true := by
    rw [Atom.isFaithful, String.toList_ofList]
    exact escapeSafe_of_isBareChar hbare
  have hstands := Atom.stands_written hfaithful behind
  rw [written_of_isBareChar hbare] at hstands
  exact hoccurs.exists_read hgoal (detached_cons (by decide) (by decide))
    [⟨.string, String.ofList piece⟩] (.word hstands hoccurs.scans)
    (tree.means_of_bare hoccurs.yield htext)

theorem exists_read_edge
    (hgoal : IsGoal goal) (h : IsTakenAs .edgeOperator goal before piece behind)
    {spelling : List Char} (hspelling : Spelling .edgeOperator spelling)
    (hread : Reading.read goal (before ++ piece ++ behind) = .ok tree) :
    ∃ other, Reading.read goal (before ++ spelling ++ behind) = .ok other ∧
      other.meaning = tree.meaning := by
  obtain ⟨front, ⟨_, lexeme⟩, back, rfl, hoccurs⟩ :=
    exists_occurs_of_isTakenAs hgoal h (by decide) hread
  have hdetached : Detached (spelling ++ behind) := by
    rcases hspelling with rfl | rfl <;> exact detached_cons (by decide) (by decide)
  have hstands : Stands ⟨.edgeOperator, lexeme⟩ spelling behind :=
    stands_of_spelling hspelling (Or.inl rfl) rfl
  exact hoccurs.exists_read hgoal hdetached [⟨.edgeOperator, lexeme⟩]
    (.word hstands hoccurs.scans) ⟨tree, hoccurs.yield, rfl⟩

theorem exists_read_space
    (hgoal : IsGoal goal) (h : IsSeparatorOf goal before piece behind)
    (hread : Reading.read goal (before ++ piece ++ behind) = .ok tree) :
    ∃ other, Reading.read goal (before ++ [' '] ++ behind) = .ok other ∧
      other.meaning = tree.meaning := by
  obtain ⟨tree', hread', entry, hentry, hterminal, hpiece, htext, hmark⟩ := h
  rw [hread] at hread'
  obtain rfl := Except.ok.inj hread'
  obtain ⟨n, hn⟩ := List.mem_iff_getElem?.1 hentry
  obtain ⟨htaken, hseparator⟩ := List.getElem?_zip_eq_some.1 hn
  have hstrict : entry.1.terminal ≠ .strict := by
    intro heq
    rw [heq] at hterminal
    exact absurd hterminal (by decide)
  obtain ⟨front, word, back, rfl, -, hoccurs⟩ :=
    exists_occurs hgoal htaken hpiece htext hstrict hread
  rw [hmark] at hseparator
  exact hoccurs.exists_read hgoal (detached_of_opensGap (by decide) behind) []
    (.gap (isGap_space behind) hoccurs.scans) (tree.means_of_separator hoccurs.yield hseparator)

/-- The source with another spelling of one of its words is read as a tree with the same meaning. -/
theorem exists_read_of_respells
    (hgoal : IsGoal goal) {respelled : List Char} (h : Respells goal before piece behind respelled)
    (hread : Reading.read goal (before ++ piece ++ behind) = .ok tree) :
    ∃ other, Reading.read goal (before ++ respelled ++ behind) = .ok other ∧
      other.meaning = tree.meaning := by
  cases h with
  | quotedWord hword =>
      exact exists_read_quoted hgoal (Or.inl rfl) hword hread
  | quotedNumber hword =>
      exact exists_read_quoted hgoal (Or.inr rfl) hword hread
  | arrow hword =>
      exact exists_read_edge hgoal hword (Or.inl rfl) hread
  | line hword =>
      exact exists_read_edge hgoal hword (Or.inr rfl) hread
  | space hword =>
      exact exists_read_space hgoal hword hread

theorem IsTakenAs.isWordOf
    {terminal : Terminal} (h : IsTakenAs terminal goal before piece behind) :
    IsWordOf goal before piece behind := by
  obtain ⟨taken, htaken, -, hpiece, htext⟩ := h
  exact ⟨taken, htaken, hpiece, htext⟩

theorem Respells.isWordOf
    {respelled : List Char} (h : Respells goal before piece behind respelled) :
    IsWordOf goal before piece behind := by
  cases h with
  | quotedWord hword | quotedNumber hword | arrow hword | line hword =>
      exact hword.isWordOf
  | space hword =>
      obtain ⟨_, _, ⟨taken, _⟩, hentry, -, hpiece, htext, -⟩ := hword
      exact ⟨taken, (List.of_mem_zip hentry).1, hpiece, htext⟩

end Exchanges

section Results

/-- Another spelling of a word changes neither the graph nor the stylesheet that a source
describes. -/
theorem parse_respelled
    (before piece behind respelled : String) :
    (Respells .graph before.toList piece.toList behind.toList respelled.toList →
      ∀ graph, Graph.parse (before ++ piece ++ behind) = .ok graph →
        Graph.parse (before ++ respelled ++ behind) = .ok graph) ∧
    (Respells .rules before.toList piece.toList behind.toList respelled.toList →
      ∀ stylesheet, Stylesheet.parse (before ++ piece ++ behind) = .ok stylesheet →
        Stylesheet.parse (before ++ respelled ++ behind) = .ok stylesheet) := by
  constructor
  · intro hrespells graph h
    obtain ⟨tree, hread, rfl⟩ := Graph.parse_eq_ok_iff.1 h
    simp only [String.toList_append] at hread
    obtain ⟨other, hother, hmeaning⟩ := exists_read_of_respells (Or.inl rfl) hrespells hread
    simp only [← String.toList_append] at hother
    exact Graph.parse_eq_ok_iff.2 ⟨other, hother, hmeaning⟩
  · intro hrespells stylesheet h
    have hfilled := hrespells.isWordOf.skipGap_ne_nil
    simp only [← String.toList_append] at hfilled
    obtain ⟨tree, hread, rfl⟩ := (Stylesheet.parse_eq_ok_iff hfilled).1 h
    simp only [String.toList_append] at hread
    obtain ⟨other, hother, hmeaning⟩ := exists_read_of_respells (Or.inr rfl) hrespells hread
    simp only [← String.toList_append] at hother
    rw [Stylesheet.parse_of_read hother, hmeaning]

/-- Quotes around a word and a number, a line for an arrow, and spaces for a comma in brackets and
for semicolons behind a pair, a statement and a declaration. -/
theorem parse_respelled_each :
    ∃ graph stylesheet,
      Graph.parse "digraph\x7ba->1[b=c,d=e;]f;\x7d" = .ok graph ∧
      Graph.parse ("digraph\x7b" ++ "\"a\"" ++ "->1[b=c,d=e;]f;\x7d") = .ok graph ∧
      Graph.parse ("digraph\x7ba->" ++ "\"1\"" ++ "[b=c,d=e;]f;\x7d") = .ok graph ∧
      Graph.parse ("digraph\x7ba" ++ "--" ++ "1[b=c,d=e;]f;\x7d") = .ok graph ∧
      Graph.parse ("digraph\x7ba->1[b=c" ++ " " ++ "d=e;]f;\x7d") = .ok graph ∧
      Graph.parse ("digraph\x7ba->1[b=c,d=e" ++ " " ++ "]f;\x7d") = .ok graph ∧
      Graph.parse ("digraph\x7ba->1[b=c,d=e;]f" ++ " " ++ "\x7d") = .ok graph ∧
      Stylesheet.parse "node\x7ba:b;c:d\x7d" = .ok stylesheet ∧
      Stylesheet.parse ("node\x7ba:b" ++ " " ++ "c:d\x7d") = .ok stylesheet := by
  have hgraph : (Graph.parse "digraph\x7ba->1[b=c,d=e;]f;\x7d").toOption.isSome = true := by
    decide +kernel
  have hstylesheet : (Stylesheet.parse "node\x7ba:b;c:d\x7d").toOption.isSome = true := by
    decide +kernel
  obtain ⟨graph, hgraph⟩ := Option.isSome_iff_exists.1 hgraph
  obtain ⟨stylesheet, hstylesheet⟩ := Option.isSome_iff_exists.1 hstylesheet
  have hgraph := eq_ok_of_toOption hgraph
  have hstylesheet := eq_ok_of_toOption hstylesheet
  obtain ⟨hname, -⟩ := parse_respelled "digraph\x7b" "a" "->1[b=c,d=e;]f;\x7d" "\"a\""
  obtain ⟨hnumber, -⟩ := parse_respelled "digraph\x7ba->" "1" "[b=c,d=e;]f;\x7d" "\"1\""
  obtain ⟨hedge, -⟩ := parse_respelled "digraph\x7ba" "->" "1[b=c,d=e;]f;\x7d" "--"
  obtain ⟨hcomma, -⟩ := parse_respelled "digraph\x7ba->1[b=c" "," "d=e;]f;\x7d" " "
  obtain ⟨hpair, -⟩ := parse_respelled "digraph\x7ba->1[b=c,d=e" ";" "]f;\x7d" " "
  obtain ⟨hentry, -⟩ := parse_respelled "digraph\x7ba->1[b=c,d=e;]f" ";" "\x7d" " "
  obtain ⟨-, hdeclaration⟩ := parse_respelled "node\x7ba:b" ";" "c:d\x7d" " "
  exact ⟨graph, stylesheet, hgraph,
    hname (.quotedWord (by decide +kernel)) graph hgraph,
    hnumber (.quotedNumber (by decide +kernel)) graph hgraph,
    hedge (.line (by decide +kernel)) graph hgraph,
    hcomma (.space (by decide +kernel)) graph hgraph,
    hpair (.space (by decide +kernel)) graph hgraph,
    hentry (.space (by decide +kernel)) graph hgraph,
    hstylesheet,
    hdeclaration (.space (by decide +kernel)) stylesheet hstylesheet⟩

end Results

end DotCascade
