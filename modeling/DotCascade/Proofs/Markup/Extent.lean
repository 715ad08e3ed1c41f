import DotCascade.Proofs.Markup.Parts
import DotCascade.Proofs.Reading.Gaps
import DotCascade.Proofs.Reading.Results
import DotCascade.Proofs.Reading.Steps
import Mathlib.Algebra.Ring.Int.Defs

/-!
# How far markup is read

A markup word ends where its brackets balance, whatever stands between quotes.
Reading takes the quoted value of a tag attribute as a whole, brackets and all.
So the two agree on the end of the word only if brackets between quotes do not
count in the end.

`ReadStep` is one step of reading and `Reads` a run of steps, each with the tag
attributes that it takes.  A step passes as many opening as closing brackets,
those of the values apart (`passes_of_readStep`); so where a run ends, the open
brackets of the word are those that the values have left open.  It follows that
reading either finds a fault, or stops at the last character of the word exactly
if the values hold as many opening as closing brackets (`reads_to_end`).
-/

namespace DotCascade
namespace Markup

open Reading

section Surplus

/-- The number of opening brackets in a text less the number of closing ones. -/
def surplus : List Char → Int
  | [] => 0
  | '<' :: rest => surplus rest + 1
  | '>' :: rest => surplus rest - 1
  | _ :: rest => surplus rest

theorem surplus_plain
    {c : Char} (hc : isRunChar c = true) (rest : List Char) :
    surplus (c :: rest) = surplus rest := by
  obtain ⟨hleft, hright⟩ := isRunChar_iff.1 hc
  rw [surplus]
  · exact hleft
  · exact hright

@[simp] theorem surplus_append
    (text later : List Char) :
    surplus (text ++ later) = surplus text + surplus later := by
  fun_induction surplus text with
  | case1 =>
      simp
  | case2 rest ih =>
      rw [List.cons_append, surplus, ih]
      omega
  | case3 rest ih =>
      rw [List.cons_append, surplus, ih]
      omega
  | case4 c rest hleft hright ih =>
      have hc : isRunChar c = true := isRunChar_iff.2 ⟨hleft, hright⟩
      rw [List.cons_append, surplus_plain hc, ih]

theorem surplus_cons
    (c : Char) (text : List Char) :
    surplus (c :: text) = surplus [c] + surplus text :=
  surplus_append [c] text

theorem surplus_of_all
    {text : List Char} (h : ∀ c ∈ text, isRunChar c = true) :
    surplus text = 0 := by
  induction text with
  | nil =>
      rfl
  | cons c rest ih =>
      rw [List.forall_mem_cons] at h
      rw [surplus_plain h.1, ih h.2]

/-- The surplus of all values of tag attributes. -/
def valueSurplus (attributes : List TagAttribute) : Int :=
  (attributes.map fun tag => surplus tag.2.toList).sum

theorem valueSurplus_append
    (attributes later : List TagAttribute) :
    valueSurplus (attributes ++ later) = valueSurplus attributes + valueSurplus later := by
  simp [valueSurplus]

end Surplus

section Passing

/-- A text leads to a later place in it, past characters of some surplus. -/
def Passes (text rest : List Char) (n : Int) : Prop :=
  ∃ passed, text = passed ++ rest ∧ surplus passed = n

theorem Passes.trans
    {text middle rest : List Char} {m n : Int}
    (h : Passes text middle m) (hlater : Passes middle rest n) :
    Passes text rest (m + n) := by
  obtain ⟨passed, rfl, rfl⟩ := h
  obtain ⟨further, rfl, rfl⟩ := hlater
  exact ⟨passed ++ further, (List.append_assoc ..).symm, surplus_append ..⟩

theorem passes_self
    (text : List Char) :
    Passes text text 0 :=
  ⟨[], rfl, rfl⟩

/-- Of a quoted value only the brackets in it count. -/
theorem surplus_of_rendersValue
    {value quoted : List Char} (h : RendersValue value quoted) :
    surplus quoted = surplus value := by
  cases h with
  | double =>
      rw [surplus_plain (by decide), surplus_append]
      simp [surplus]
  | single =>
      rw [surplus_plain (by decide), surplus_append]
      simp [surplus]

theorem surplus_of_rendersAttributes
    {attributes : List TagAttribute} {text : List Char} (h : RendersAttributes attributes text) :
    surplus text = valueSurplus attributes := by
  induction h with
  | nil =>
      rfl
  | @cons tag later front back htag _ ih =>
      cases htag with
      | mk hfront hname hbehindName hbehindSign hvalue =>
          simp only [surplus_append, surplus_of_all hfront.isRunChar,
            surplus_of_all (isRunChar_of_isAttributeName hname),
            surplus_of_all hbehindName.isRunChar,
            surplus_plain (show isRunChar '=' = true by decide),
            surplus_of_all hbehindSign.isRunChar, surplus_of_rendersValue hvalue, ih]
          simp [valueSurplus]

/-- The brackets of a tag balance, those of its values apart. -/
theorem passes_tag
    {rest behindName behind : List Char} {name : Name} {closed : Bool}
    (hname : tagName? rest = some (name, behindName))
    (hend : tagEnd? (tagAttributes behindName).2 = some (closed, behind)) :
    Passes ('<' :: rest) behind (valueSurplus (tagAttributes behindName).1) := by
  obtain ⟨tag, htag, rfl⟩ := exists_rendersTag hname hend
  refine ⟨'<' :: (tag ++ tagMark closed), by simp, ?_⟩
  cases htag with
  | mk hletters htags hspace _ =>
      have hmark : surplus (tagMark closed) = -1 := by
        cases closed <;> rfl
      rw [surplus]
      simp only [surplus_append, surplus_of_all (isRunChar_of_isTagName hletters),
        surplus_of_rendersAttributes htags, surplus_of_all hspace.isRunChar, hmark]
      omega

theorem passes_closingTag?
    {name : Name} (hname : isTagName name.text.toList = true) {text rest : List Char}
    (h : closingTag? name text = some rest) :
    Passes text rest (-1) := by
  obtain ⟨-, space, hspace, rfl⟩ := (closingTag?_eq_some_iff hname).1 h
  refine ⟨name.text.toList ++ (space ++ ['>']), by simp, ?_⟩
  simp [surplus_of_all (isRunChar_of_isTagName hname), surplus_of_all hspace.isRunChar, surplus]

end Passing

section Runs

/-- How far reading has come in a markup word. -/
structure Place where
  openElements : List OpenElement
  before : List Node
  text : List Char

/-- The beginning of reading a markup word. -/
def Place.start (word : List Char) : Place :=
  ⟨[], [], word.tail⟩

/-- One step of reading, with the tag attributes that it takes. -/
inductive ReadStep : Place → List TagAttribute → Place → Prop
  | closing
      {element : OpenElement} {outer : List OpenElement} {before : List Node}
      {rest behind : List Char}
      (h : closingTag? element.name rest = some behind) :
      ReadStep ⟨element :: outer, before, '<' :: '/' :: rest⟩ []
        ⟨outer, element.close before :: element.before, behind⟩
  | single
      {openElements : List OpenElement} {before : List Node} {rest behindName behind : List Char}
      {name : Name}
      (hname : tagName? rest = some (name, behindName))
      (hend : tagEnd? (tagAttributes behindName).2 = some (true, behind)) :
      ReadStep ⟨openElements, before, '<' :: rest⟩ (tagAttributes behindName).1
        ⟨openElements, .element name (tagAttributes behindName).1 [] :: before, behind⟩
  | opening
      {openElements : List OpenElement} {before : List Node} {rest behindName behind : List Char}
      {name : Name}
      (hname : tagName? rest = some (name, behindName))
      (hend : tagEnd? (tagAttributes behindName).2 = some (false, behind)) :
      ReadStep ⟨openElements, before, '<' :: rest⟩ (tagAttributes behindName).1
        ⟨⟨name, (tagAttributes behindName).1, before⟩ :: openElements, [], behind⟩
  | run
      {openElements : List OpenElement} {before : List Node} {c : Char} (rest : List Char)
      (hc : isRunChar c = true) :
      ReadStep ⟨openElements, before, c :: rest⟩ []
        ⟨openElements, .text (String.ofList (c :: rest.takeWhile isRunChar)) :: before,
          rest.dropWhile isRunChar⟩

/-- Steps of reading, one after the other, with the tag attributes that they take. -/
inductive Reads : Place → List TagAttribute → Place → Prop
  | stop (place : Place) : Reads place [] place
  | step
      {place next final : Place} {now later : List TagAttribute}
      (h : ReadStep place now next) (hlater : Reads next later final) :
      Reads place (now ++ later) final

/-- How reading ends at a place: with a fault, at the end of the text, or at a bracket that no
element encloses. -/
inductive Ends (final : Place) : Except Stop (List Node) → Prop
  | fault (fault : Fault) (remaining : Nat) : Ends final (.error (.fault fault remaining))
  | overrun (h : final.text = []) : Ends final (.error .overrun)
  | bracket
      (rest : List Char) (hopen : final.openElements = []) (h : final.text = '>' :: rest) :
      Ends final (.ok final.before.reverse)

/-- Reading is a run of steps up to a place where it ends. -/
theorem exists_reads
    (openElements : List OpenElement) (before : List Node) (text : List Char) :
    ∃ attributes final, Reads ⟨openElements, before, text⟩ attributes final ∧
      Ends final (readNodes openElements before text) := by
  fun_induction readNodes openElements before text with
  | case1 openElements before =>
      exact ⟨[], _, .stop _, .overrun rfl⟩
  | case4 before rest element outer behind hclosing _ ih =>
      obtain ⟨attributes, final, hreads, hends⟩ := ih
      exact ⟨_, final, .step (.closing hclosing) hreads, hends⟩
  | case7 openElements before rest _ name behindName hname _ _ behind hend _ ih =>
      obtain ⟨attributes, final, hreads, hends⟩ := ih
      exact ⟨_, final, .step (.single hname hend) hreads, hends⟩
  | case8 openElements before rest _ name behindName hname _ _ behind hend _ ih =>
      obtain ⟨attributes, final, hreads, hends⟩ := ih
      exact ⟨_, final, .step (.opening hname hend) hreads, hends⟩
  | case9 before rest =>
      exact ⟨[], _, .stop ⟨[], before, '>' :: rest⟩, .bracket rest rfl rfl⟩
  | case11 openElements before c rest _ hleft hright _ ih =>
      obtain ⟨attributes, final, hreads, hends⟩ := ih
      have hc : isRunChar c = true := isRunChar_iff.2 ⟨hleft, hright⟩
      exact ⟨_, final, .step (.run rest hc) hreads, hends⟩
  | _ =>
      exact ⟨[], ⟨_, _, _⟩, .stop _, .fault _ _⟩

end Runs

section Extent

/-- The open elements of a place have tag names. -/
def Place.IsNamed (place : Place) : Prop :=
  ∀ element ∈ place.openElements, isTagName element.name.text.toList = true

/-- A step passes as many opening as closing brackets, those of the values that it takes apart. -/
theorem passes_of_readStep
    {place next : Place} {attributes : List TagAttribute}
    (h : ReadStep place attributes next) (hnamed : place.IsNamed) :
    next.IsNamed ∧ Passes place.text next.text (valueSurplus attributes) := by
  cases h with
  | @closing element outer before rest behind hclosing =>
      obtain ⟨hname, houter⟩ := List.forall_mem_cons.1 hnamed
      have hmarks : Passes ('<' :: '/' :: rest) rest 1 := ⟨['<', '/'], rfl, rfl⟩
      exact ⟨houter, hmarks.trans (passes_closingTag? hname hclosing)⟩
  | single hname hend =>
      exact ⟨hnamed, passes_tag hname hend⟩
  | opening hname hend =>
      refine ⟨List.forall_mem_cons.2 ⟨?_, hnamed⟩, passes_tag hname hend⟩
      exact (tagName?_eq_some_iff.1 hname).1
  | @run _ _ c rest hc =>
      refine ⟨hnamed, c :: rest.takeWhile isRunChar,
        congrArg (c :: ·) List.takeWhile_append_dropWhile.symm, ?_⟩
      obtain ⟨hleft, hright⟩ := isRunChar_iff.1 hc
      exact surplus_of_all (isRunChar_of_mem_run hleft hright rest)

/-- So does a run of steps. -/
theorem passes_of_reads
    {place final : Place} {attributes : List TagAttribute}
    (h : Reads place attributes final) (hnamed : place.IsNamed) :
    Passes place.text final.text (valueSurplus attributes) := by
  induction h with
  | stop place =>
      exact passes_self place.text
  | @step place next final now later hstep _ ih =>
      obtain ⟨hnext, hpassed⟩ := passes_of_readStep hstep hnamed
      rw [valueSurplus_append]
      exact hpassed.trans (ih hnext)

/-- A text has some surplus, and none of its proper beginnings has it. -/
def Closes (text : List Char) (n : Int) : Prop :=
  surplus text = n ∧ ∀ front back, text = front ++ back → surplus front = n → back = []

theorem closes_nil :
    Closes [] 0 :=
  ⟨rfl, fun _ _ hcut _ => (List.append_eq_nil_iff.1 hcut.symm).2⟩

theorem Closes.cons
    {text : List Char} {n : Int} (h : Closes text n) (c : Char) {m : Int}
    (hm : m = surplus [c] + n) (hne : m ≠ 0) :
    Closes (c :: text) m := by
  refine ⟨by rw [surplus_cons, h.1, hm], fun front back hcut hfront => ?_⟩
  cases front with
  | nil =>
      exact absurd hfront.symm hne
  | cons d front =>
      obtain ⟨rfl, htext⟩ := List.cons.inj hcut
      rw [surplus_cons, hm] at hfront
      exact h.2 front back htext (by omega)

/-- What is taken up to a closing bracket closes the brackets that are open and those inside it, and
does so only at its end. -/
theorem closes_of_toClosingBracket?
    {depth : Nat} {text piece : List Char} (h : toClosingBracket? depth text = some piece) :
    Closes piece (-(depth + 1)) := by
  fun_induction toClosingBracket? depth text generalizing piece with
  | case1 depth rest ih =>
      obtain ⟨inner, hinner, rfl⟩ := Option.map_eq_some_iff.1 h
      exact (ih hinner).cons '<' (by simp only [surplus]; omega) (by omega)
  | case2 =>
      obtain rfl := Option.some.inj h
      exact closes_nil.cons '>' rfl (by decide)
  | case3 depth rest ih =>
      obtain ⟨inner, hinner, rfl⟩ := Option.map_eq_some_iff.1 h
      exact (ih hinner).cons '>' (by simp only [surplus]; omega) (by omega)
  | case4 depth c rest hleft hlast hright ih =>
      obtain ⟨inner, hinner, rfl⟩ := Option.map_eq_some_iff.1 h
      have hc : isRunChar c = true := isRunChar_iff.2 ⟨hleft, ne_closingBracket hlast hright⟩
      have hplain : surplus [c] = 0 := surplus_plain hc []
      exact (ih hinner).cons c (by omega) (by omega)
  | case5 =>
      cases h

/-- Where reading a markup word ends.  At the end of the text the values of the tag attributes have
closed the word before reading did.  At a bracket, this is the last character of the word exactly if
the values hold as many opening as closing brackets. -/
theorem exists_reads_word
    {text word : List Char} (h : markupPiece? text = some word) :
    ∃ attributes final, Reads (.start word) attributes final ∧ Ends final (ofWord word) ∧
      (final.text = [] → valueSurplus attributes = -1) ∧
      ∀ rest, final.text = '>' :: rest → (rest = [] ↔ valueSurplus attributes = 0) := by
  unfold markupPiece? at h
  split at h
  case h_2 =>
    cases h
  case h_1 body =>
    obtain ⟨piece, hpiece, rfl⟩ := Option.map_eq_some_iff.1 h
    obtain ⟨hall, hproper⟩ := closes_of_toClosingBracket? hpiece
    obtain ⟨attributes, final, hreads, hends⟩ := exists_reads [] [] piece
    obtain ⟨passed, hcut, hpassed⟩ := passes_of_reads hreads (by simp [Place.IsNamed])
    have hcut : piece = passed ++ final.text := hcut
    have hsum : surplus passed + surplus final.text = -1 := by
      rw [← surplus_append, ← hcut, hall]
      rfl
    refine ⟨attributes, final, hreads, hends, fun hnil => ?_, fun rest hrest => ?_⟩
    · rw [hnil, surplus] at hsum
      omega
    · rw [hrest, surplus] at hsum
      rw [hrest] at hcut
      constructor
      · rintro rfl
        rw [surplus] at hsum
        omega
      · intro hvalues
        have hfront : surplus (passed ++ ['>']) = -1 := by
          rw [surplus_append, hpassed, hvalues]
          rfl
        exact hproper (passed ++ ['>']) rest (by simpa using hcut) hfront

end Extent

end Markup

section Sources

open Grammar Reading Markup

theorem overrun_of_lexemeOf
    {piece : List Char} {terminal : Terminal}
    (h : lexemeOf terminal piece = .error .overrun) :
    terminal = .markup ∧ ofWord piece = .error .overrun := by
  unfold lexemeOf at h
  split at h
  case h_1 =>
    cases h
  case h_2 hoverrun =>
    cases terminal with
    | markup =>
        exact ⟨rfl, hoverrun⟩
    | _ =>
        cases hoverrun
  case h_3 =>
    cases h

/-- A reading that runs off a word does so at a markup word of the source. -/
theorem exists_overrun_of_run
    {goal : Phrase} {length : Nat} {progress : Progress}
    (h : progress.run goal length = .error .overrun) :
    ∃ text word, text <:+ progress.text ∧ markupPiece? text = some word ∧
      ofWord word = .error .overrun := by
  obtain ⟨later, hlater, hstep⟩ := exists_reaches_of_error h
  have houtcome : Outcome goal length later (.failed .overrun) := hstep ▸ outcome_step
  cases houtcome with
  | garbled hpiece hfailure =>
      obtain ⟨rfl, hoverrun⟩ := overrun_of_lexemeOf hfailure
      exact ⟨_, _, hlater.skipGap_suffix, hpiece, hoverrun⟩

/-- Every failure but running off a word is reported. -/
theorem report?_eq_none_iff
    {located : Located} :
    located.report? = none ↔ located.failure = .overrun := by
  rw [Located.report?]
  cases located.failure <;> simp [Failure.reportAt?]

theorem eq_overrun_of_reported
    {α : Type} {source : String} {reader : List Char → Except Located α}
    (h : reported source reader = .error ⟨none⟩) :
    (reader source.toList).mapError Located.failure = .error .overrun := by
  obtain ⟨located, hread, hreport⟩ := exists_located_of_reported h
  rw [hread, ← report?_eq_none_iff.1 hreport]
  rfl

theorem exists_overrun_of_parse
    {source : String}
    (h : Graph.parse source = .error ⟨none⟩ ∨ Stylesheet.parse source = .error ⟨none⟩) :
    ∃ text word, text <:+ source.toList ∧ markupPiece? text = some word ∧
      ofWord word = .error .overrun := by
  have hread : ∃ goal, Reading.read goal source.toList = .error .overrun := by
    rcases h with h | h
    · exact ⟨.graph, Graph.read_of_error (eq_overrun_of_reported h)⟩
    · exact ⟨.rules, Stylesheet.read_of_error (eq_overrun_of_reported h)⟩
  obtain ⟨goal, hread⟩ := hread
  exact exists_overrun_of_run (run_of_read hread)

/-- A markup word that has no fault is read up to its last character exactly if the values of the
tag attributes that are read hold as many opening as closing brackets.  A source fails without a
report only where these values hold one more closing bracket and reading runs off a word. -/
theorem reads_to_end
    (source : String) :
    (∀ text word, text <:+ source.toList → markupPiece? text = some word →
      ∃ attributes final, Reads (.start word) attributes final ∧ Ends final (ofWord word) ∧
        ((∃ fault remaining, ofWord word = .error (.fault fault remaining)) ∨
          (final.text = ['>'] ∧ ofWord word = .ok final.before.reverse ↔
            valueSurplus attributes = 0))) ∧
      (Graph.parse source = .error ⟨none⟩ ∨ Stylesheet.parse source = .error ⟨none⟩ →
        ∃ text word attributes final, text <:+ source.toList ∧ markupPiece? text = some word ∧
          Reads (.start word) attributes final ∧ final.text = [] ∧
            valueSurplus attributes = -1) := by
  constructor
  · intro text word _ hword
    obtain ⟨attributes, final, hreads, hends, hover, hbracket⟩ := exists_reads_word hword
    refine ⟨attributes, final, hreads, hends, ?_⟩
    generalize ofWord word = found at hends
    cases hends with
    | fault fault remaining =>
        exact Or.inl ⟨fault, remaining, rfl⟩
    | overrun htext =>
        have hvalues := hover htext
        simp [htext, hvalues]
    | bracket rest _ htext =>
        simp [htext, hbracket rest htext]
  · intro h
    obtain ⟨text, word, hsuffix, hword, hoverrun⟩ := exists_overrun_of_parse h
    obtain ⟨attributes, final, hreads, hends, hover, -⟩ := exists_reads_word hword
    rw [hoverrun] at hends
    cases hends with
    | overrun htext =>
        exact ⟨text, word, attributes, final, hsuffix, hword, hreads, htext, hover htext⟩

/-- A closing bracket between quotes makes reading run off the word, and an opening one makes it
give the same nodes as if the last character of the word were not there. -/
theorem not_read_to_end :
    Graph.parse "graph\x7ba=<<f a=\">\"/>>\x7d" = .error ⟨none⟩ ∧
      (let word := "<<f a=\"<\"/>>>".toList
      markupPiece? word = some word ∧ (ofWord word).toOption.isSome = true ∧
        ofWord word = ofWord word.dropLast) := by
  decide +kernel

end Sources

end DotCascade
