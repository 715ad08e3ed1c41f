import DotCascade.Proofs.CommandLine.Disk
import DotCascade.Proofs.CommandLine.Documents

/-!
# Output that is fed back

What a command printed or wrote can be put into a file and given to the program
again.  Where no control sequence was dropped from it, it is stable: `check` finds
nothing wrong with it and `format` prints it as it is (`isStable_fed_back`).

A control sequence that begins inside quotes may end behind them, so that the
closing quote is dropped with it and what was printed is no graph any more
(`not_isStable_fed_back`).
-/

namespace DotCascade
namespace CommandLine

section Runs

variable {disk : Disk} {arguments : List String} {settings : Settings}

/-- A run that ends well with some output, without a file being written. -/
def EndsWith (disk : Disk) (arguments : List String) (output : String) : Prop :=
  ∃ log, run? disk arguments = some ⟨0, output, log, none, none⟩

/-- `check` finds nothing wrong with a file, and at some width `format` prints some output for it,
whatever the other options are. -/
structure IsStable (disk : Disk) (indent : Nat) (name output : String) : Prop where
  checked : ∀ {arguments settings},
    readRequest? arguments = some (.run settings (.check [name])) →
      EndsWith disk arguments (printed ("OK: " ++ name ++ "\n"))
  formatted : ∀ {arguments settings},
    readRequest? arguments = some (.run settings (.format name)) →
      settings.indent = indent → EndsWith disk arguments output

theorem run?_of_permit
    {command : Command} (hrequest : readRequest? arguments = some (.run settings command))
    (hpermit : permit disk command = .ok ()) :
    run? disk arguments = some (runCommand settings disk command) := by
  simp only [run?, hrequest, hpermit]

/-- A run that ends well ends as its command does. -/
theorem eq_runCommand_of_exit
    {command : Command} {outcome : Outcome}
    (hrequest : readRequest? arguments = some (.run settings command))
    (hrun : run? disk arguments = some outcome) (hexit : outcome.exit = 0) :
    outcome = runCommand settings disk command := by
  simp only [run?, hrequest] at hrun
  split at hrun
  case h_1 =>
    exact (Option.some.inj hrun).symm
  case h_2 =>
    cases hrun
  case h_3 =>
    obtain rfl := Option.some.inj hrun
    cases hexit

theorem exit_outcome
    (trouble : Trouble) (output errors : String) (describe : Reading.Report → String) :
    (trouble.outcome output errors describe).exit = 1 := by
  cases trouble <;> rfl

theorem write_eq_ok
    {document : Document} {indent : Nat} {text : String} (h : document.write indent = .ok text) :
    text = document.toText indent := by
  unfold Document.write at h
  split at h
  case isTrue =>
    exact (Except.ok.inj h).symm
  case isFalse =>
    split at h <;> cases h

/-- What is known when `format` ends well. -/
theorem exists_of_runFormat
    {file : String} (h : (runFormat settings disk file).exit = 0) :
    ∃ document, readDocument disk file = .ok document ∧
      document.write settings.indent = .ok (document.toText settings.indent) ∧
        (runFormat settings disk file).output = printed (document.toText settings.indent) := by
  unfold runFormat at h ⊢
  split at h
  case h_1 trouble _ =>
    rw [exit_outcome] at h
    cases h
  case h_2 document hread =>
    simp only at h ⊢
    split at h
    case h_1 text hwrite =>
      obtain rfl := write_eq_ok hwrite
      exact ⟨document, hread, hwrite, rfl⟩
    case h_2 =>
      cases h

/-- What is known when `style` ends well and is told where to write. -/
theorem exists_of_runStyle
    {stylesheet input file : String}
    (h : (runStyle settings disk stylesheet input (some file)).exit = 0) :
    ∃ sheet graph path,
      let document := Document.graph (sheet.apply graph)
      readStylesheet disk stylesheet = .ok sheet ∧ readGraph disk input = .ok graph ∧
        document.write settings.indent = .ok (document.toText settings.indent) ∧
        disk.target file = .ok path ∧
        (runStyle settings disk stylesheet input (some file)).written =
          some (path, document.toText settings.indent) := by
  unfold runStyle at h ⊢
  simp only at h ⊢
  split at h
  case h_1 =>
    rw [exit_outcome] at h
    cases h
  case h_2 sheet hsheet =>
    split at h
    case h_1 =>
      rw [exit_outcome] at h
      cases h
    case h_2 graph hgraph =>
      split at h
      case h_1 =>
        cases h
      case h_2 hnone =>
        cases hnone
      case h_3 text file' hwrite hsome =>
        obtain rfl := Option.some.inj hsome
        obtain rfl := write_eq_ok hwrite
        split at h
        case h_1 path htarget =>
          exact ⟨sheet, graph, path, hsheet, hgraph, hwrite, htarget, rfl⟩
        case h_2 =>
          cases h

theorem permitInput_of_bytes?
    {name : String} {bytes : ByteArray} (h : disk.bytes? name = some bytes) :
    permitInput disk name = .ok () := by
  obtain ⟨path, hfind⟩ := Disk.bytes?_eq_some_iff.1 h
  simp [permitInput, hfind]

/-- The written form of a writable document is stable. -/
theorem isStable_of_bytes?
    {name : String} {document : Document} {indent : Nat} (hdocument : document.IsWritable)
    (hkind : document.isStylesheet = isStylesheetName name)
    (hwrite : document.write indent = .ok (document.toText indent))
    (hbytes : disk.bytes? name = some (document.toText indent).toUTF8) :
    IsStable disk indent name (printed (document.toText indent)) := by
  have hread := readDocument_of_bytes? hdocument hkind hbytes
  have hpermit := permitInput_of_bytes? hbytes
  constructor
  · intro arguments settings hrequest
    refine ⟨settings.shown document.settled.log, ?_⟩
    rw [run?_of_permit hrequest (by simp [permit, hpermit, pure, Except.pure, bind, Except.bind])]
    simp [runCommand, runCheck, checkFiles, hread]
  · rintro arguments settings hrequest rfl
    refine ⟨settings.shown document.settled.log, ?_⟩
    rw [run?_of_permit hrequest hpermit]
    simp [runCommand, runFormat, hread, hwrite]

end Runs

section Stability

variable {disk : Disk} {arguments : List String} {settings : Settings} {outcome : Outcome}

/-- What `format` printed is stable in the place of the file if nothing was dropped from the written
form, and what `style` wrote is stable under every name of the file it wrote. -/
theorem isStable_fed_back
    (hrun : run? disk arguments = some outcome) (hexit : outcome.exit = 0) :
    (∀ file document,
        readRequest? arguments = some (.run settings (.format file)) →
        readDocument disk file = .ok document → document.HasPlainTags →
        outcome.output = document.toText settings.indent →
          IsStable (disk.overwrite file outcome.output.toUTF8) settings.indent file
            outcome.output) ∧
      ∀ stylesheet input file sheet graph,
        readRequest? arguments = some (.run settings (.style stylesheet input (some file))) →
        readStylesheet disk stylesheet = .ok sheet → readGraph disk input = .ok graph →
        (Document.stylesheet sheet).HasPlainTags → (Document.graph graph).HasPlainTags →
          ∃ path text, outcome.written = some (path, text) ∧
            ∀ name, Path.ofName name = Path.ofName file → Disk.IsFileName name →
              isStylesheetName name = false →
                IsStable (disk.store path text.toUTF8) settings.indent name (printed text) := by
  constructor
  · intro file document hrequest hread hplain hkept
    obtain rfl := eq_runCommand_of_exit hrequest hrun hexit
    obtain ⟨found, hfound, hwrite, houtput⟩ := exists_of_runFormat hexit
    obtain rfl : found = document := Except.ok.inj (hfound.symm.trans hread)
    obtain ⟨hkind, text, htext, -⟩ := readDocument_eq_ok_iff.1 hread
    have hdocument := isWritable_of_readDocument hread hplain
    obtain ⟨bytes, hbytes, -⟩ :=
      Option.bind_eq_some_iff.1 (readText_eq_ok_iff.1 htext)
    have hstored := Disk.bytes?_overwrite hbytes (found.toText settings.indent).toUTF8
    have hall :
        printed (found.toText settings.indent) = found.toText settings.indent :=
      houtput.symm.trans hkept
    have hstable := isStable_of_bytes? hdocument hkind hwrite hstored
    rw [hall] at hstable
    rw [hkept]
    exact hstable
  · intro stylesheet input file sheet graph hrequest hsheet hgraph hplainSheet hplainGraph
    obtain rfl := eq_runCommand_of_exit hrequest hrun hexit
    obtain ⟨sheet', graph', path, hsheet', hgraph', hwrite, htarget, hwritten⟩ :=
      exists_of_runStyle hexit
    obtain rfl : sheet' = sheet := Except.ok.inj (hsheet'.symm.trans hsheet)
    obtain rfl : graph' = graph := Except.ok.inj (hgraph'.symm.trans hgraph)
    refine ⟨path, _, hwritten, fun name hpath hname hkind => ?_⟩
    have hdocument := isWritable_apply (isWritable_of_readStylesheet hsheet hplainSheet)
      (isWritable_of_readGraph hgraph hplainGraph)
    have hstored := Disk.bytes?_store_of_target htarget hpath hname
      ((Document.graph (sheet'.apply graph')).toText settings.indent).toUTF8
    exact isStable_of_bytes? hdocument hkind.symm hwrite hstored

/-- Line ends of two characters, markup and a width of one's own; the styled graph is written under
a name with a step that leads nowhere. -/
theorem isStable_fed_back_styled :
    let disk := Disk.ofFiles [
      ("a.dot", "digraph\x7ba->b\r\n[label=<<b>x</b>>]\x7d".toUTF8),
      ("s.dss", "edge\x7bcolor:\"r\red\"\x7d".toUTF8)]
    ∃ formatted styled path text,
      run? disk ["--indent", "4", "format", "a.dot"] = some formatted ∧
      IsStable (disk.overwrite "a.dot" formatted.output.toUTF8) 4 "a.dot" formatted.output ∧
      run? disk ["style", "-s", "s.dss", "-i", "a.dot", "-o", "./b.dot"] = some styled ∧
      styled.written = some (path, text) ∧
      IsStable (disk.store path text.toUTF8) 2 "b.dot" (printed text) := by
  intro disk
  have hformatted :
      (run? disk ["--indent", "4", "format", "a.dot"]).any (fun outcome =>
        outcome.exit = 0 ∧ (readDocument disk "a.dot").toOption.any fun document =>
          document.atoms.all Atom.hasPlainTags ∧ outcome.output = document.toText 4) = true := by
    decide +kernel
  have hstyled :
      (run? disk ["style", "-s", "s.dss", "-i", "a.dot", "-o", "./b.dot"]).any (fun outcome =>
        outcome.exit = 0) = true := by
    decide +kernel
  have hsheet : (readStylesheet disk "s.dss").toOption.any (fun sheet =>
      (ruleAtoms sheet.rules).all Atom.hasPlainTags) = true := by
    decide +kernel
  have hgraph : (readGraph disk "a.dot").toOption.any (fun graph =>
      graph.atoms.all Atom.hasPlainTags) = true := by
    decide +kernel
  obtain ⟨formatted, hrun, hchecked⟩ := (Option.any_eq_true _ _).1 hformatted
  obtain ⟨hexit, hdocument⟩ := of_decide_eq_true hchecked
  obtain ⟨document, hread, hchecked⟩ := exists_of_toOption_any hdocument
  obtain ⟨hplain, hkept⟩ := of_decide_eq_true hchecked
  obtain ⟨styled, hrun', hexit'⟩ := (Option.any_eq_true _ _).1 hstyled
  obtain ⟨sheet, hsheet, hsheetTags⟩ := exists_of_toOption_any hsheet
  obtain ⟨graph, hgraph, hgraphTags⟩ := exists_of_toOption_any hgraph
  have hformat :
      readRequest? ["--indent", "4", "format", "a.dot"] =
        some (.run ⟨4, false⟩ (.format "a.dot")) := by
    decide +kernel
  have hstyle :
      readRequest? ["style", "-s", "s.dss", "-i", "a.dot", "-o", "./b.dot"] =
        some (.run ⟨2, false⟩ (.style "s.dss" "a.dot" (some "./b.dot"))) := by
    decide +kernel
  have hfed := (isStable_fed_back hrun hexit).1 "a.dot" document hformat hread
    (List.all_eq_true.1 hplain) hkept
  obtain ⟨path, text, hwritten, hnames⟩ :=
    (isStable_fed_back hrun' (of_decide_eq_true hexit')).2 _ _ _ sheet graph hstyle hsheet hgraph
      (List.all_eq_true.1 hsheetTags) (List.all_eq_true.1 hgraphTags)
  have hname : Disk.IsFileName "b.dot" := ⟨by decide, by decide, by decide, by decide⟩
  exact ⟨formatted, styled, path, text, hrun, hfed, hrun', hwritten,
    hnames "b.dot" (by decide) hname (by decide)⟩

/-- The control sequence that begins inside the quotes ends with the bracket behind them. -/
theorem not_isStable_fed_back :
    let disk := Disk.ofFiles [("a.dot", "graph\x7bb=\"\x1b[\"\x7d".toUTF8)]
    ∃ document outcome,
      readDocument disk "a.dot" = .ok document ∧ document.HasPlainTags ∧
      run? disk ["format", "a.dot"] = some outcome ∧ outcome.exit = 0 ∧
      ¬ IsStable (disk.overwrite "a.dot" outcome.output.toUTF8) 2 "a.dot" outcome.output := by
  intro disk
  let output := "graph \x7b\n  graph [\"b\"=\"\n\x7d\n"
  have hdocument : (readDocument disk "a.dot").toOption.any (fun document =>
      document.atoms.all Atom.hasPlainTags) = true := by
    decide +kernel
  have hfirst : (run? disk ["format", "a.dot"]).any (fun outcome =>
      outcome.exit = 0 ∧ outcome.output = output) = true := by
    decide +kernel
  have hsecond :
      (run? (disk.overwrite "a.dot" output.toUTF8) ["format", "a.dot"]).any (fun outcome =>
        outcome.exit = 1) = true := by
    decide +kernel
  have hformat :
      readRequest? ["format", "a.dot"] = some (.run ⟨2, false⟩ (.format "a.dot")) := by
    decide +kernel
  obtain ⟨document, hread, hplain⟩ := exists_of_toOption_any hdocument
  obtain ⟨outcome, hrun, hchecked⟩ := (Option.any_eq_true _ _).1 hfirst
  obtain ⟨hexit, houtput⟩ := of_decide_eq_true hchecked
  refine ⟨document, outcome, hread, List.all_eq_true.1 hplain, hrun, hexit, fun hstable => ?_⟩
  obtain ⟨log, hagain⟩ := hstable.formatted hformat rfl
  rw [houtput] at hagain
  rw [hagain] at hsecond
  simp at hsecond

end Stability

end CommandLine
end DotCascade
