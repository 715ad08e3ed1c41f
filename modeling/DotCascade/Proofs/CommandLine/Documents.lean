import DotCascade.CommandLine.Run
import DotCascade.Proofs.CommandLine.LineEnds
import DotCascade.Proofs.Graph.RoundTrip
import DotCascade.Proofs.Stylesheet.Atoms
import DotCascade.Proofs.Stylesheet.Names
import DotCascade.Proofs.Stylesheet.RoundTrip

/-!
# Documents that are written and read again

A document that was read from a file is writable, unless a tag attribute in it
holds an angle bracket (`isWritable_of_isIn`).  Where its written form stands in a
file, the file is read as the same document without the rules that set nothing
(`readDocument_of_bytes?`), and this is written in the same way.
-/

namespace DotCascade
namespace CommandLine

open Reading

section Documents

/-- The atoms of a document. -/
def Document.atoms : Document → List Atom
  | graph content => content.atoms
  | stylesheet content => ruleAtoms content.rules

/-- The rules of a document. -/
def Document.rules : Document → List Rule
  | graph _ => []
  | stylesheet content => content.rules

/-- A document is a stylesheet. -/
def Document.isStylesheet : Document → Bool
  | graph _ => false
  | stylesheet _ => true

/-- A document is what a text is read as. -/
def Document.IsIn (text : String) : Document → Prop
  | graph content => Graph.parse text = .ok content
  | stylesheet content => Stylesheet.parse text = .ok content

/-- No tag attribute in a document holds an angle bracket. -/
def Document.HasPlainTags (document : Document) : Prop :=
  AllAtoms (fun atom => atom.hasPlainTags = true) document.atoms

/-- A document that comes back from a file with its written form. -/
structure Document.IsWritable (document : Document) : Prop where
  faithful : AllFaithful document.atoms
  returnFree : AllAtoms Atom.IsReturnFree document.atoms
  names : ∀ rule ∈ document.rules, ∀ name ∈ rule.selector.classes.names, IsName name.toList

/-- A document that was read from a text without carriage returns is writable. -/
theorem isWritable_of_isIn
    {text : String} {document : Document} (htext : '\r' ∉ text.toList)
    (h : document.IsIn text) (hplain : document.HasPlainTags) :
    document.IsWritable := by
  cases document with
  | graph content =>
      have hsound := allAtoms_of_parse joins_isSound (tellsAtoms_isSound .graph text.toList) h
      exact ⟨allFaithful_of_isSound hsound hplain,
        allAtoms_of_parse joins_isReturnFree (tellsAtoms_isReturnFree htext .graph) h, nofun⟩
  | stylesheet content =>
      have hsound :=
        allAtoms_of_parseStylesheet joins_isSound (tellsAtoms_isSound .rules text.toList) h
      exact ⟨allFaithful_of_isSound hsound hplain,
        allAtoms_of_parseStylesheet joins_isReturnFree (tellsAtoms_isReturnFree htext .rules) h,
        isName_of_parse h⟩

/-- The cascade of a writable stylesheet into a writable graph is writable. -/
theorem isWritable_apply
    {sheet : Stylesheet} {content : Graph} (hsheet : (Document.stylesheet sheet).IsWritable)
    (hcontent : (Document.graph content).IsWritable) :
    (Document.graph (sheet.apply content)).IsWritable :=
  ⟨allAtoms_cascaded hsheet.faithful hcontent.faithful,
    allAtoms_cascaded hsheet.returnFree hcontent.returnFree, nofun⟩

/-- A document without the rules that are not written. -/
def Document.settled : Document → Document
  | graph content => graph content
  | stylesheet content => stylesheet ⟨content.filledRules⟩

@[simp] theorem isStylesheet_settled
    (document : Document) :
    document.settled.isStylesheet = document.isStylesheet := by
  cases document <;> rfl

@[simp] theorem toText_settled
    (document : Document) (indent : Int) :
    document.settled.toText indent = document.toText indent := by
  cases document with
  | graph content =>
      rfl
  | stylesheet content =>
      exact congrArg (fun rules => String.ofList (rules.flatMap (Rule.written indent)))
        (filledRules_filledRules content)

@[simp] theorem levels_settled
    (document : Document) :
    document.settled.levels = document.levels := by
  cases document <;> rfl

@[simp] theorem write_settled
    (document : Document) (indent : Nat) :
    document.settled.write indent = document.write indent := by
  simp [Document.write]

namespace Document.IsWritable

variable {document : Document} (h : document.IsWritable)
include h

/-- The written form of a writable document is read as the document, settled. -/
theorem isIn_toText
    (indent : Int) :
    document.settled.IsIn (document.toText indent) := by
  cases document with
  | graph content =>
      exact parse_toText_of_faithful indent h.faithful
  | stylesheet content =>
      refine parse_filledRules indent fun rule hrule => ?_
      obtain ⟨hmem, hfilled⟩ := List.mem_filter.1 hrule
      exact ⟨by simpa using hfilled, h.names rule hmem, allAtoms_flatMap.1 h.faithful rule hmem⟩

theorem notMem_toText
    (indent : Int) :
    '\r' ∉ (document.toText indent).toList := by
  cases document with
  | graph content =>
      exact content.notMem_toText indent h.returnFree
  | stylesheet content =>
      exact content.notMem_toText indent h.names h.returnFree

end Document.IsWritable

end Documents

section Files

variable {disk : Disk} {name : String} {document : Document}

/-- A text without carriage returns is what its bytes are read as. -/
theorem decoded?_toUTF8
    {text : String} (h : '\r' ∉ text.toList) :
    Text.decoded? text.toUTF8 = some text := by
  have hbytes : String.fromUTF8? text.toUTF8 = some text := dif_pos text.isValidUTF8
  rw [Text.decoded?, hbytes, Option.map_some, Text.lineFeeds_eq_self h, String.ofList_toList]

theorem readText_eq_ok_iff
    {text : String} :
    readText disk name = .ok text ↔ (disk.bytes? name).bind Text.decoded? = some text := by
  unfold readText
  split
  case h_1 found hfound =>
    simp [hfound]
  case h_2 hnone =>
    simp [hnone]

theorem notMem_of_readText
    {text : String} (h : readText disk name = .ok text) :
    '\r' ∉ text.toList := by
  obtain ⟨bytes, -, hdecoded⟩ := Option.bind_eq_some_iff.1 (readText_eq_ok_iff.1 h)
  obtain ⟨raw, -, rfl⟩ := Option.map_eq_some_iff.1 hdecoded
  rw [String.toList_ofList]
  exact Text.not_mem_lineFeeds raw.toList

/-- Reading a file and its text succeeds if both readings do. -/
theorem read_eq_ok_iff
    {α : Type} {parse : String → Except ReadError α} {value : α} :
    (readText disk name >>= fun text => (parse text).mapError Trouble.ofReadError) = .ok value ↔
      ∃ text, readText disk name = .ok text ∧ parse text = .ok value := by
  cases readText disk name with
  | error trouble =>
      simp [bind, Except.bind]
  | ok text =>
      cases hparse : parse text <;> simp [bind, Except.bind, Except.mapError, hparse]

theorem readGraph_eq_ok_iff
    {content : Graph} :
    readGraph disk name = .ok content ↔
      ∃ text, readText disk name = .ok text ∧ Graph.parse text = .ok content :=
  read_eq_ok_iff

theorem readStylesheet_eq_ok_iff
    {content : Stylesheet} :
    readStylesheet disk name = .ok content ↔
      ∃ text, readText disk name = .ok text ∧ Stylesheet.parse text = .ok content :=
  read_eq_ok_iff

/-- The name of a file says whether its text is read as a stylesheet or as a graph. -/
theorem readDocument_eq_ok_iff :
    readDocument disk name = .ok document ↔
      document.isStylesheet = isStylesheetName name ∧
        ∃ text, readText disk name = .ok text ∧ document.IsIn text := by
  unfold readDocument
  split
  case isTrue hname =>
    rw [map_eq_ok_iff]
    constructor
    · rintro ⟨content, hread, rfl⟩
      exact ⟨hname.symm, readStylesheet_eq_ok_iff.1 hread⟩
    · rintro ⟨hkind, text, htext, hin⟩
      cases document with
      | graph content =>
          rw [hname] at hkind
          cases hkind
      | stylesheet content =>
          exact ⟨content, readStylesheet_eq_ok_iff.2 ⟨text, htext, hin⟩, rfl⟩
  case isFalse hname =>
    rw [map_eq_ok_iff]
    constructor
    · rintro ⟨content, hread, rfl⟩
      exact ⟨(Bool.eq_false_iff.2 hname).symm, readGraph_eq_ok_iff.1 hread⟩
    · rintro ⟨hkind, text, htext, hin⟩
      cases document with
      | graph content =>
          exact ⟨content, readGraph_eq_ok_iff.2 ⟨text, htext, hin⟩, rfl⟩
      | stylesheet content =>
          exact absurd hkind.symm hname

/-- A document that was read from a file is writable. -/
theorem isWritable_of_readDocument
    (h : readDocument disk name = .ok document) (hplain : document.HasPlainTags) :
    document.IsWritable := by
  obtain ⟨-, text, htext, hin⟩ := readDocument_eq_ok_iff.1 h
  exact isWritable_of_isIn (notMem_of_readText htext) hin hplain

theorem isWritable_of_readGraph
    {content : Graph} (h : readGraph disk name = .ok content)
    (hplain : (Document.graph content).HasPlainTags) :
    (Document.graph content).IsWritable := by
  obtain ⟨text, htext, hin⟩ := readGraph_eq_ok_iff.1 h
  exact isWritable_of_isIn (notMem_of_readText htext) hin hplain

theorem isWritable_of_readStylesheet
    {content : Stylesheet} (h : readStylesheet disk name = .ok content)
    (hplain : (Document.stylesheet content).HasPlainTags) :
    (Document.stylesheet content).IsWritable := by
  obtain ⟨text, htext, hin⟩ := readStylesheet_eq_ok_iff.1 h
  exact isWritable_of_isIn (notMem_of_readText htext) hin hplain

/-- A file that holds the written form of a writable document is read as the document, settled. -/
theorem readDocument_of_bytes?
    {indent : Int} (hdocument : document.IsWritable)
    (hkind : document.isStylesheet = isStylesheetName name)
    (hbytes : disk.bytes? name = some (document.toText indent).toUTF8) :
    readDocument disk name = .ok document.settled := by
  rw [readDocument_eq_ok_iff, isStylesheet_settled]
  refine ⟨hkind, document.toText indent, readText_eq_ok_iff.2 ?_, hdocument.isIn_toText indent⟩
  rw [hbytes]
  exact decoded?_toUTF8 (hdocument.notMem_toText indent)

end Files

end CommandLine
end DotCascade
