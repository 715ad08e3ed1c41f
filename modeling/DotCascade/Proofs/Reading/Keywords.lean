import DotCascade.Proofs.Reading.Results
import DotCascade.Proofs.Reading.Seams

/-!
# Keywords are whole words

Keywords are found by their letters alone.  Yet behind the words that open a graph,
and anywhere in a stylesheet, a keyword or a bare word that is read goes as far as its
letters do: where bare words are admitted they are tried first, and elsewhere no word
can stand behind a keyword that begins with a letter (`isWhole_of_run`).

Only the one or two words that open a graph may be followed by letters
(`parse_keywords`, `not_isWhole_opening`).
-/

namespace DotCascade

open Grammar Reading

namespace Reading

section Words

/-- A word is taken as a whole: no letter stands behind a keyword or a bare word, and letters that
make no keyword are one bare word. -/
structure Taken.IsWhole (taken : Taken) : Prop where
  ends : taken.terminal ∈ letterKinds → Unlettered (taken.text.drop taken.piece.length)
  bare : ∀ letters, Text.word? taken.text = some letters → String.ofList letters ∉ keywords →
    taken.terminal = .identifier ∧ taken.piece = letters

/-- A word that stands in a text is taken as a whole. -/
theorem Stands.isWhole
    {word : Word} {piece text : List Char} (h : Stands word piece text)
    (hstrict : word.terminal ≠ .strict) :
    Taken.IsWhole ⟨word.terminal, piece, piece ++ text⟩ := by
  constructor
  · intro hletter
    simp only [List.drop_left]
    exact h.unlettered hstrict hletter
  · intro letters hletters hkeyword
    have hbare : piece? .identifier (piece ++ text) = some letters :=
      identifierPiece?_eq_some_iff.2 ⟨hletters, hkeyword⟩
    have hterminal : word.terminal = .identifier := by
      by_contra hne
      rw [h.piece?_identifier hstrict hne] at hbare
      cases hbare
    have hfound := h.found
    rw [hterminal, hbare] at hfound
    exact ⟨hterminal, (Option.some.inj hfound).symm⟩

end Words

section Runs

variable {goal : Phrase} {length : Nat}

/-- Once a graph has begun, all words that are read are taken as a whole. -/
theorem isWhole_of_run
    (hgoal : IsGoal goal) {progress : Progress} (hframed : Framed goal progress.frames)
    (hbegun : Begun goal progress.frames) {tree : Tree (.phrase goal)}
    (h : progress.run goal length = .ok tree) :
    ∀ taken ∈ progress.words goal length, taken.IsWhole := by
  fun_induction Progress.words goal length progress with
  | case1 progress taken next hstep _ ih =>
      have hnext : next.run goal length = .ok tree := by
        rw [run_eq, hstep] at h
        exact h
      have houtcome : Outcome goal length progress (.more taken next) := hstep ▸ outcome_step
      cases houtcome with
      | @taken word piece behind hfirst htells hread =>
          have hstrict := ne_strict_of_begun hbegun (found_of_firstWord? hfirst).1
          obtain ⟨rest, htext, hstands⟩ := stands_of_run hgoal hframed hbegun hfirst htells h
          rw [List.forall_mem_cons]
          refine ⟨?_, ih (framed_readWord? hframed hread)
            (begun_readWord? hgoal hframed hstrict hread) hnext⟩
          rw [htext]
          exact hstands.isWhole hstrict
  | case2 =>
      exact fun taken htaken => absurd htaken List.not_mem_nil

end Runs

section Openings

/-- The kinds of the words that open a graph. -/
def graphOpenings : List (List Terminal) :=
  [[.graph], [.digraph], [.strict, .graph], [.strict, .digraph]]

theorem terminals_at_start :
    ∀ terminal, (State.start .graph).admits terminal = true →
      terminal = .strict ∨ [terminal] ∈ graphOpenings := by
  intro terminal
  cases terminal <;> decide

theorem terminals_behind_strict :
    ∀ terminal, ((State.start .graph).advance (.word .strict)).admits terminal = true →
      [.strict, terminal] ∈ graphOpenings := by
  intro terminal
  cases terminal <;> decide

variable {length : Nat}

/-- Reading that succeeds where nothing but the words that open a graph are admitted takes one of
them. -/
theorem exists_step_of_run
    {progress : Progress} {tree : Tree (.phrase .graph)}
    (hunfinished : whole? .graph (settle .graph .finish progress.frames) = none)
    (h : progress.run .graph length = .ok tree) :
    ∃ (taken : Taken) (next : Progress) (word : Word),
      step .graph length progress = .more taken next ∧ taken.terminal = word.terminal ∧
        (stateBehind .graph progress.frames).admits word.terminal = true ∧
        readWord? .graph progress.frames word = some next.frames ∧
        next.run .graph length = .ok tree := by
  rcases cases_of_run h with ⟨-, hwhole⟩ | ⟨word, piece, behind, hfirst, htells, hread, hrun⟩
  · rw [hunfinished] at hwhole
    cases hwhole
  · exact ⟨_, _, word, step_of_readWord? rfl hfirst htells hread, rfl,
      (found_of_firstWord? hfirst).1, hread, hrun⟩

/-- Behind the word for a strict graph, all words but the next one are taken as a whole. -/
theorem opening_of_run_behind_strict
    {progress : Progress} {tree : Tree (.phrase .graph)}
    (hframes : progress.frames = push .graph (.leaf .strict ()) [])
    (h : progress.run .graph length = .ok tree) :
    ∃ opening later, progress.words .graph length = opening :: later ∧
      [.strict, opening.terminal] ∈ graphOpenings ∧ ∀ taken ∈ later, taken.IsWhole := by
  have hgoal : IsGoal .graph := Or.inl rfl
  have hunfinished : whole? .graph (settle .graph .finish progress.frames) = none := by
    have hnone : complete? .graph .finish (push .graph (.leaf .strict ()) []) = none := rfl
    rw [hframes, settle_of_none hnone]
    rfl
  obtain ⟨taken, next, word, hstep, hterminal, hadmitted, hread, hrun⟩ :=
    exists_step_of_run hunfinished h
  have hframed : Framed .graph progress.frames := hframes ▸ .push _ .nil
  rw [hframes] at hadmitted
  have hopening := terminals_behind_strict word.terminal hadmitted
  have hstrict : word.terminal ≠ .strict := by
    intro heq
    rw [heq] at hopening
    exact absurd hopening (by decide)
  refine ⟨taken, _, words_of_step hstep, hterminal ▸ hopening, ?_⟩
  exact isWhole_of_run hgoal (framed_readWord? hframed hread)
    (begun_readWord? hgoal hframed hstrict hread) hrun

/-- All words behind the one or two words that open a graph are taken as a whole. -/
theorem exists_opening_of_read
    {source : List Char} {tree : Tree (.phrase .graph)}
    (h : read .graph source = .ok tree) :
    ∃ opening later,
      (Progress.start source).words .graph source.length = opening ++ later ∧
        opening.map Taken.terminal ∈ graphOpenings ∧ ∀ taken ∈ later, taken.IsWhole := by
  have hgoal : IsGoal .graph := Or.inl rfl
  have hunfinished : whole? .graph (settle .graph .finish []) = none := by
    rw [settle_nil hgoal]
    rfl
  obtain ⟨taken, next, word, hstep, hterminal, hadmitted, hread, hrun⟩ :=
    exists_step_of_run hunfinished (run_of_read h)
  have hwords := words_of_step hstep
  by_cases hstrict : word.terminal = .strict
  · obtain ⟨terminal, lexeme⟩ := word
    obtain rfl : terminal = .strict := hstrict
    obtain ⟨-, hframes⟩ := eq_push_of_strict hgoal hread
    obtain ⟨second, later, hlater, hopening, hwhole⟩ :=
      opening_of_run_behind_strict hframes hrun
    refine ⟨[taken, second], later, ?_, ?_, hwhole⟩
    · rw [hwords, hlater]
      rfl
    · simpa [hterminal] using hopening
  · refine ⟨[taken], _, hwords, ?_, ?_⟩
    · simpa [hterminal] using (terminals_at_start _ hadmitted).resolve_left hstrict
    · exact isWhole_of_run hgoal (framed_readWord? .nil hread)
        (begun_readWord? hgoal .nil hstrict hread) hrun

/-- The kinds of the words with which a graph can begin. -/
def firstKinds : List Terminal :=
  [.digraph, .strict, .graph]

theorem firstWord?_at_start
    {keyword : Terminal} (hkeyword : keyword ∈ firstKinds) (text : List Char) :
    firstWord? (fun terminal => (State.start .graph).admits terminal)
        ((fixedSpelling keyword).toList ++ text) =
      some (keyword, (fixedSpelling keyword).toList) := by
  have hadmitted :
      (Terminal.all.filter fun terminal => (State.start .graph).admits terminal) = firstKinds := by
    decide
  unfold firstWord?
  rw [hadmitted]
  simp only [firstKinds, List.mem_cons, List.not_mem_nil, or_false] at hkeyword
  rcases hkeyword with rfl | rfl | rfl <;> rfl

/-- A keyword at the beginning of a graph is taken, whatever stands behind it. -/
theorem exists_frames_of_opening
    {keyword : Terminal} (hkeyword : keyword ∈ firstKinds) :
    ∃ frames, ∀ (length : Nat) (text : List Char),
      (Progress.start ((fixedSpelling keyword).toList ++ text)).run .graph length =
        Progress.run .graph length ⟨frames, (fixedSpelling keyword).toList ++ text, text⟩ := by
  obtain ⟨word, rfl, htells, htakes⟩ : ∃ word : Word, word.terminal = keyword ∧
      lexeme word.terminal (fixedSpelling word.terminal).toList = .ok word.lexeme ∧
      (State.start .graph).takes word.terminal = true := by
    simp only [firstKinds, List.mem_cons, List.not_mem_nil, or_false] at hkeyword
    rcases hkeyword with rfl | rfl | rfl
    · exact ⟨⟨.digraph, ()⟩, rfl, rfl, by decide⟩
    · exact ⟨⟨.strict, ()⟩, rfl, rfl, by decide⟩
    · exact ⟨⟨.graph, ()⟩, rfl, rfl, by decide⟩
  refine ⟨push .graph (.leaf word.terminal word.lexeme) [], fun length text => ?_⟩
  have hfirst : firstWord? (fun terminal => (stateBehind .graph []).admits terminal)
      ((fixedSpelling word.terminal).toList ++ text) =
        some (word.terminal, (fixedSpelling word.terminal).toList) :=
    firstWord?_at_start hkeyword text
  have hskip := skipGap_eq_self (List.ne_nil_of_mem (mem_kindsAt (piece?_of_firstWord? hfirst)))
  have hread : readWord? .graph [] word =
      some (push .graph (.leaf word.terminal word.lexeme) []) := by
    simp only [readWord?, settle_nil (Or.inl rfl)]
    exact if_pos htakes
  rw [run_eq, Progress.start, step_of_readWord? hskip hfirst htells hread, List.drop_left]

/-- What stands right behind the first keyword of a graph is read as if a blank stood between
them. -/
theorem read_opening_space
    {keyword : Terminal} (hkeyword : keyword ∈ firstKinds) (text : List Char)
    (tree : Tree (.phrase .graph)) :
    read .graph ((fixedSpelling keyword).toList ++ ' ' :: text) = .ok tree ↔
      read .graph ((fixedSpelling keyword).toList ++ text) = .ok tree := by
  obtain ⟨frames, hrun⟩ := exists_frames_of_opening hkeyword
  have hspace : skipGap (' ' :: text) = skipGap text := isGap_space text
  rw [read_eq_run, read_eq_run, hrun, hrun, run_congr_gap _ hspace]
  exact ⟨fun h => run_eq_ok_congr h _ _, fun h => run_eq_ok_congr h _ _⟩

end Openings

/-- All words of a stylesheet are taken as a whole. -/
theorem isWhole_of_stylesheet
    {source : String} {stylesheet : Stylesheet} (h : Stylesheet.parse source = .ok stylesheet) :
    ∀ taken ∈ (Progress.start source.toList).words .rules source.toList.length,
      taken.IsWhole := by
  by_cases hfilled : skipGap source.toList = []
  · have hnone : (Progress.start source.toList).words .rules source.toList.length = [] := by
      rw [Progress.words_eq, step, Progress.start]
      simp only [hfilled, finish, settle_nil (Or.inr rfl)]
      rfl
    simp [hnone]
  · obtain ⟨tree, hread, -⟩ := (Stylesheet.parse_eq_ok_iff hfilled).1 h
    exact isWhole_of_run (Or.inr rfl) .nil begun_rules (run_of_read hread)

end Reading

section Keywords

/-- All words of a graph behind the one or two that open it, and all words of a stylesheet, are
taken as a whole.  But what stands right behind the first keyword of a graph is read as if a blank
stood between them. -/
theorem parse_keywords
    (source : String) :
    (∀ graph, Graph.parse source = .ok graph →
      ∃ opening later,
        (Progress.start source.toList).words .graph source.toList.length = opening ++ later ∧
          opening.map Taken.terminal ∈ graphOpenings ∧ ∀ taken ∈ later, taken.IsWhole) ∧
    (∀ stylesheet, Stylesheet.parse source = .ok stylesheet →
      ∀ taken ∈ (Progress.start source.toList).words .rules source.toList.length,
        taken.IsWhole) ∧
    (∀ keyword ∈ firstKinds, ∀ graph,
      Graph.parse (fixedSpelling keyword ++ " " ++ source) = .ok graph ↔
        Graph.parse (fixedSpelling keyword ++ source) = .ok graph) := by
  refine ⟨fun graph h => ?_, fun stylesheet => isWhole_of_stylesheet, ?_⟩
  · obtain ⟨tree, hread, -⟩ := Graph.parse_eq_ok_iff.1 h
    exact exists_opening_of_read hread
  · intro keyword hkeyword graph
    have hspace : (fixedSpelling keyword ++ " " ++ source).toList =
        (fixedSpelling keyword).toList ++ ' ' :: source.toList := by
      simp
    simp only [Graph.parse_eq_ok_iff, hspace, String.toList_append, read_opening_space hkeyword]

/-- Behind the words that open a graph, letters behind those of a keyword make a bare word. -/
theorem parse_keywords_behind_opening :
    let source := "strictgraph strict\x7bnodes;node[a=b]subgraph edge1\x7b\x7d\x7d"
    let sheet := "node.nodes\x7bgraphs:edge_1;\x7d"
    (∃ opening later,
      (Progress.start source.toList).words .graph source.toList.length = opening ++ later ∧
        opening.map Taken.terminal ∈ graphOpenings ∧ ∀ taken ∈ later, taken.IsWhole) ∧
    (∀ taken ∈ (Progress.start sheet.toList).words .rules sheet.toList.length,
      taken.IsWhole) := by
  intro source sheet
  have hgraph : (Graph.parse source).toOption.any (fun graph => graph.id = some (.text "strict")) =
      true := by
    decide +kernel
  have hsheet : (Stylesheet.parse sheet).toOption.any (fun sheet => sheet.rules.length = 1) =
      true := by
    decide +kernel
  obtain ⟨graph, hparse, -⟩ := exists_of_toOption_any hgraph
  obtain ⟨stylesheet, hparse', -⟩ := exists_of_toOption_any hsheet
  exact ⟨(parse_keywords source).1 graph hparse, (parse_keywords sheet).2.1 stylesheet hparse'⟩

/-- A word that merely begins with the word for a directed graph is read as that word and a
name. -/
theorem not_isWhole_opening :
    let source := "digraphG\x7b\x7d"
    Graph.parse source = .ok ⟨some (.text "G"), false, true, Content.empty⟩ ∧
      ∃ taken ∈ (Progress.start source.toList).words .graph source.toList.length,
        taken.terminal = .digraph ∧
          ∃ c ∈ (taken.text.drop taken.piece.length).head?, Text.isWordPart c = true := by
  intro source
  have hword : ((Progress.start source.toList).words .graph source.toList.length).any
      (fun taken => taken.terminal = .digraph ∧
        (taken.text.drop taken.piece.length).head?.any Text.isWordPart) = true := by
    decide +kernel
  obtain ⟨taken, htaken, hletter⟩ := List.any_eq_true.1 hword
  obtain ⟨hterminal, hletter⟩ := of_decide_eq_true hletter
  obtain ⟨c, hc, hpart⟩ := (Option.any_eq_true _ _).1 hletter
  exact ⟨eq_ok_of_toOption (by decide +kernel), taken, htaken, hterminal, c, hc, hpart⟩

end Keywords

end DotCascade
