import DotCascade.Proofs.Reading.Respelling

/-!
# Parts of a source

Once a graph has begun, the words in front of a place are the same whatever stands
behind the place, as long as it continues no word (`Reaches.exists_scans`,
`Occurs.scans_front`).  And a text spells only one row of words: of two rows that a text
spells up to some rest, one is the beginning of the other (`Scans.linear`).

So a part of a source between two words that were taken can stand elsewhere, and it
spells there what it spelled in the source.
-/

namespace DotCascade

open Grammar Reading

namespace Reading

section Cuts

/-- A word stands in a text that is cut off behind it. -/
theorem Stands.of_isCut
    {word : Word} {piece text cut : List Char} (h : Stands word piece text)
    (hstrict : word.terminal ≠ .strict) (hcut : IsCut text cut) :
    Stands word piece cut := by
  obtain ⟨rest, hrest, hcuts⟩ := steadyAt_piece? _ _ _ h.found
  obtain rfl := List.append_cancel_left hrest
  refine stands_of_found (spelling_of_piece? h.found) (hcuts cut hcut) (fun hletter => ?_) h.tells
  exact hcut.head (fun _ hc => hc) (h.unlettered hstrict hletter)

/-- The words up to a place that reading reaches are spelled as well when the text is cut off behind
the place. -/
theorem Reaches.exists_scans
    {goal : Phrase} (hgoal : IsGoal goal) {length : Nat} {progress place : Progress}
    {tree : Tree (.phrase goal)} (h : Reaches goal length progress place)
    (hframed : Framed goal progress.frames) (hbegun : Begun goal progress.frames)
    (hrun : progress.run goal length = .ok tree) :
    ∃ front words, progress.text = front ++ place.text ∧
      framesYield place.frames = framesYield progress.frames ++ words ∧
      ∀ cut, IsCut place.text cut → Scans (front ++ cut) words cut := by
  induction h with
  | here =>
      exact ⟨[], [], rfl, (List.append_nil _).symm, fun _ _ => .done rfl⟩
  | @taken _ progress next _ hstep _ ih =>
      have houtcome : Outcome goal length progress (.more _ next) := hstep ▸ outcome_step
      have hnext : next.run goal length = .ok tree := by
        rw [Reading.run_eq, hstep] at hrun
        exact hrun
      cases houtcome with
      | @taken word piece behind hfirst htells hread =>
          have hstrict := ne_strict_of_begun hbegun (found_of_firstWord? hfirst).1
          obtain ⟨rest, htext, hstands⟩ :=
            stands_of_run hgoal hframed hbegun hfirst htells hrun
          obtain ⟨front, words, hplace, hyield, hscans⟩ :=
            ih (framed_readWord? hframed hread) (begun_readWord? hgoal hframed hstrict hread) hnext
          obtain ⟨gap, hgap, -, hskip⟩ := skipsGap progress.text
          rw [htext] at hgap hskip hplace
          simp only [List.drop_left] at hplace
          have hfilled : piece ++ rest ≠ [] :=
            List.append_ne_nil_of_left_ne_nil (piece?_ne_nil hstands.found) rest
          refine ⟨gap ++ piece ++ front, word :: words, ?_, ?_, fun cut hcut => ?_⟩
          · rw [hgap, hplace]
            simp only [List.append_assoc]
          · rw [hyield, framesYield_readWord? hread, List.append_assoc]
            rfl
          · have hcuts : IsCut rest (front ++ cut) := hplace ▸ hcut.behind front
            rw [List.append_assoc, List.append_assoc]
            exact .gap (hskip hfilled _) (.word (hstands.of_isCut hstrict hcuts) (hscans cut hcut))

end Cuts

section Uniqueness

/-- A row of words is empty, or its first word stands behind the gap at the front of the text. -/
theorem Scans.cases_words
    {text rest : List Char} {words : List Word} (h : Scans text words rest) :
    (words = [] ∧ skipGap text = skipGap rest) ∨
      ∃ word later piece behind, words = word :: later ∧ skipGap text = piece ++ behind ∧
        Stands word piece behind ∧ Scans behind later rest := by
  induction h with
  | done hgap =>
      exact Or.inl ⟨rfl, hgap⟩
  | gap hgap _ ih =>
      rwa [hgap]
  | @word word words piece text rest hstands h _ =>
      exact Or.inr ⟨word, words, piece, text, rfl, hstands.skipGap_eq, hstands, h⟩

/-- No other word stands at the front of a text. -/
theorem Stands.unique
    {word other : Word} {piece piece' text text' : List Char} (h : Stands word piece text)
    (h' : Stands other piece' text') (htext : piece ++ text = piece' ++ text')
    (hstrict : word.terminal ≠ .strict) (hstrict' : other.terminal ≠ .strict) :
    word = other ∧ text = text' := by
  have hfound := h.found
  have hfound' := h'.found
  have hterminal : other.terminal = word.terminal := by
    rcases h.alone other.terminal (by rw [htext, hfound']; rfl) with heq | heq | ⟨heq, -⟩
    · exact heq
    · rcases h'.alone word.terminal (by rw [← htext, hfound]; rfl) with heq' | heq' | ⟨heq', -⟩
      · exact heq'.symm
      · rw [heq, heq']
      · exact absurd heq' hstrict'
    · exact absurd heq hstrict
  obtain ⟨terminal, value⟩ := word
  obtain ⟨terminal', value'⟩ := other
  obtain rfl : terminal' = terminal := hterminal
  rw [← htext, hfound] at hfound'
  obtain rfl := Option.some.inj hfound'
  obtain rfl : value = value' := Except.ok.inj (h.tells.symm.trans h'.tells)
  exact ⟨rfl, List.append_cancel_left htext⟩

/-- The row of words that a text spells is unique up to its length. -/
theorem Scans.linear
    {text rest rest' : List Char} {words words' : List Word} (h : Scans text words rest)
    (h' : Scans text words' rest') (hstrict : ∀ word ∈ words, word.terminal ≠ .strict)
    (hstrict' : ∀ word ∈ words', word.terminal ≠ .strict) :
    (∃ later, words' = words ++ later ∧ Scans rest later rest') ∨
      ∃ later, later ≠ [] ∧ words = words' ++ later ∧ Scans rest' later rest := by
  induction words generalizing text words' with
  | nil =>
      obtain ⟨-, hgap⟩ := h.cases_words.resolve_right (by simp)
      exact Or.inl ⟨words', rfl, .gap hgap.symm h'⟩
  | cons word words ih =>
      obtain ⟨_, _, piece, behind, heq, htext, hstands, hlater⟩ :=
        h.cases_words.resolve_left (by simp)
      obtain ⟨rfl, rfl⟩ := List.cons.inj heq
      rcases h'.cases_words with
        ⟨rfl, hgap⟩ | ⟨other, words', piece', behind', rfl, htext', hstands', hlater'⟩
      · exact Or.inr ⟨_, List.cons_ne_nil _ _, rfl, .gap hgap.symm h⟩
      · rw [List.forall_mem_cons] at hstrict hstrict'
        obtain ⟨rfl, rfl⟩ := hstands.unique hstands' (htext.symm.trans htext') hstrict.1 hstrict'.1
        rcases ih hlater hlater' hstrict.2 hstrict'.2 with
          ⟨later, rfl, hscans⟩ | ⟨later, hne, rfl, hscans⟩
        · exact Or.inl ⟨later, rfl, hscans⟩
        · exact Or.inr ⟨later, hne, rfl, hscans⟩

/-- Nothing is added to a text by scanning it, gaps apart. -/
theorem Scans.length_le
    {text rest : List Char} {words : List Word} (h : Scans text words rest) :
    (skipGap rest).length ≤ (skipGap text).length := by
  induction h with
  | done hgap =>
      rw [hgap]
  | gap hgap _ ih =>
      rwa [hgap]
  | @word word words piece text rest hstands _ ih =>
      have hskip := length_skipGap_le text
      rw [hstands.skipGap_eq, List.length_append]
      omega

/-- A text that spells words in front of a word has a part that spells them, up to the piece that
spells the word. -/
theorem Scans.exists_cut
    {text rest : List Char} {front back : List Word} {word : Word}
    (h : Scans text (front ++ word :: back) rest) :
    ∃ before piece behind, text = before ++ piece ++ behind ∧
      Scans text front (piece ++ behind) ∧ Stands word piece behind ∧ Scans behind back rest := by
  induction front generalizing text with
  | nil =>
      obtain ⟨_, _, piece, behind, heq, htext, hstands, hlater⟩ :=
        h.cases_words.resolve_left (by simp)
      obtain ⟨rfl, rfl⟩ := List.cons.inj heq
      obtain ⟨gap, hgap, -⟩ := skipsGap text
      rw [htext, ← List.append_assoc] at hgap
      refine ⟨gap, piece, behind, hgap, .done ?_, hstands, hlater⟩
      rw [htext, hstands.skipGap_eq]
  | cons first front ih =>
      obtain ⟨_, _, piece, behind, heq, htext, hstands, hlater⟩ :=
        h.cases_words.resolve_left (by simp)
      obtain ⟨rfl, rfl⟩ := List.cons.inj heq
      obtain ⟨before, piece', behind', hcut, hfront, hword, hback⟩ := ih hlater
      obtain ⟨gap, hgap, -⟩ := skipsGap text
      refine ⟨gap ++ piece ++ before, piece', behind', ?_, ?_, hword, hback⟩
      · rw [hgap, htext, hcut]
        simp only [List.append_assoc]
      · refine .gap ?_ (.word hstands hfront)
        rw [htext, hstands.skipGap_eq]

end Uniqueness

section Takings

/-- The words that a text spells are taken, and then those that are read behind them. -/
theorem exists_words_of_scans
    {goal : Phrase} (hgoal : IsGoal goal) (length : Nat)
    {text rest : List Char} {words : List Word} (hscans : Scans text words rest)
    {frames behind : List Frame} (last : List Char) (hframed : Framed goal frames)
    (hread : readWords? goal frames words = some behind) :
    ∃ taken last', Progress.words goal length ⟨frames, last, text⟩ =
      taken ++ Progress.words goal length ⟨behind, last', rest⟩ := by
  induction hscans generalizing frames last with
  | done hgap =>
      obtain rfl := Option.some.inj hread
      exact ⟨[], last, words_congr_gap length hgap⟩
  | gap hgap _ ih =>
      rw [words_congr_gap length hgap]
      exact ih last hframed hread
  | @word word words piece text rest hstands _ ih =>
      obtain ⟨middle, hword, hwords⟩ := Option.bind_eq_some_iff.1 hread
      obtain ⟨taken, last', hlater⟩ := ih (piece ++ text) (framed_readWord? hframed hword) hwords
      refine ⟨⟨word.terminal, piece, piece ++ text⟩ :: taken, last', ?_⟩
      rw [words_of_step (step_of_stands hgoal length hframed hstands.skipGap_eq hstands hword),
        hlater]
      rfl

end Takings

end Reading

section Places

/-- A word of a tree is taken from the source where the source spells the words in front of it. -/
theorem isTakenAs_of_scans
    {goal : Phrase} (hgoal : IsGoal goal) {before piece behind : List Char}
    {tree : Tree (.phrase goal)} {front back : List Word} {word : Word}
    (hyield : tree.yield = front ++ word :: back)
    (hfront : Scans (before ++ piece ++ behind) front (piece ++ behind))
    (hword : Stands word piece behind) :
    IsTakenAs word.terminal goal before piece behind := by
  have hall := readAll?_yield hgoal tree
  rw [hyield, readAll?, readWords?_append, Option.bind_assoc] at hall
  obtain ⟨frames, hread, hlater⟩ := Option.bind_eq_some_iff.1 hall
  obtain ⟨final, hfinal, -⟩ := Option.bind_eq_some_iff.1 hlater
  obtain ⟨next, hnext, -⟩ := Option.bind_eq_some_iff.1 hfinal
  have hframed := framed_readWords? .nil hread
  obtain ⟨taken, last, hwords⟩ := exists_words_of_scans hgoal (before ++ piece ++ behind).length
    hfront (before ++ piece ++ behind) .nil hread
  rw [words_of_step (step_of_stands hgoal _ hframed hword.skipGap_eq hword hnext)] at hwords
  refine ⟨⟨word.terminal, piece, piece ++ behind⟩, ?_, rfl, rfl, rfl⟩
  rw [Progress.start, hwords]
  exact List.mem_append_right _ List.mem_cons_self

/-- What stands in front of a word of a stylesheet spells the words in front of it, also where
something else comes behind it. -/
theorem Occurs.scans_front
    {before piece behind later : List Char} {tree : Tree (.phrase .rules)} {word : Word}
    {front back : List Word} (h : Occurs .rules before piece behind tree front word back)
    (hread : Reading.read .rules (before ++ piece ++ behind) = .ok tree) (hlater : Detached later) :
    Scans (before ++ later) front later := by
  obtain ⟨place, gap, hplace, htext, hgap, rfl⟩ := h.place
  obtain ⟨inner, words, hinner, hyield, hscans⟩ :=
    hplace.exists_scans (Or.inr rfl) .nil begun_rules (run_of_read hread)
  obtain rfl : framesYield place.frames = words := hyield
  obtain rfl : before = inner ++ gap := by
    refine List.append_cancel_right
      (?_ : before ++ (piece ++ behind) = inner ++ gap ++ (piece ++ behind))
    rw [← List.append_assoc, List.append_assoc inner, ← htext]
    exact hinner
  have hcut : IsCut place.text (gap ++ later) := ⟨gap, _, later, htext, rfl, hlater⟩
  have hfront := (hscans _ hcut).trans (.done (hgap later))
  rwa [List.append_nil, ← List.append_assoc] at hfront

end Places

end DotCascade
