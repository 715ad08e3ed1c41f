import DotCascade.Proofs.Markup.NormalForm
import DotCascade.Proofs.Markup.RoundTrip

/-!
# Any markup is written and read

Runs of text may hold angle brackets, be empty and stand side by side.  The
written form of such nodes is that of the same nodes with character entities for
the brackets (`written_escaped`), and these are nodes that tags can hold.  What is
a rendition of some nodes is a rendition of their normal form, too
(`Renditions.normalize`).  So the written form is read as the normal form of the
nodes with entities, and it ends where the outermost bracket is closed
(`ofWord_written_normalize`).
-/

namespace DotCascade
namespace Markup

open Reading

section Runs

/-- A text with another one in place of every occurrence of a character. -/
def replaced (c : Char) (substitute : String) (text : List Char) : List Char :=
  text.flatMap fun d => if d = c then substitute.toList else [d]

/-- A run of text with character entities in place of angle brackets. -/
def escapedRun (run : String) : String :=
  String.ofList (replaced '>' "&gt;" (replaced '<' "&lt;" run.toList))

/-- The entity for the one bracket does not hold the other, so the brackets can be replaced one
after the other. -/
theorem toList_escapedRun
    (run : String) :
    (escapedRun run).toList = writtenRun run := by
  rw [escapedRun, String.toList_ofList, replaced, replaced, List.flatMap_assoc, writtenRun]
  refine List.flatMap_congr fun c _ => ?_
  rw [writtenChar]
  by_cases hleft : c = '<'
  · simp [hleft]
  · by_cases hright : c = '>'
    · simp [hright]
    · simp [hleft, hright]

theorem isRunChar_of_mem_escapedRun
    (run : String) :
    (escapedRun run).toList.all isRunChar = true := by
  rw [toList_escapedRun, writtenRun, List.all_flatMap, List.all_eq_true]
  intro c _
  rw [writtenChar]
  split
  · decide
  · split
    · decide
    · simp [isRunChar, *]

end Runs

section Nodes

mutual

/-- A node with character entities in place of the angle brackets in its runs of text. -/
def Node.escaped : Node → Node
  | .text run => .text (escapedRun run)
  | .element name attributes children => .element name attributes (escaped children)

/-- Nodes with character entities in place of the angle brackets in their runs of text. -/
def escaped : List Node → List Node
  | [] => []
  | node :: rest => node.escaped :: escaped rest

end

mutual

/-- Every name and tag attribute in a node is such as a tag can hold. -/
def Node.hasSoundTags : Node → Bool
  | .text _ => true
  | .element name attributes children =>
      isTagName name.text.toList &&
        (children.isEmpty || name.text.toList.all fun c => !Text.isSpace c) &&
        attributes.all TagAttribute.isWritable && hasSoundTags children

/-- Every name and tag attribute in some nodes is such as a tag can hold. -/
def hasSoundTags : List Node → Bool
  | [] => true
  | node :: rest => node.hasSoundTags && hasSoundTags rest

end

theorem isEmpty_escaped
    (nodes : List Node) :
    (escaped nodes).isEmpty = nodes.isEmpty := by
  cases nodes with
  | nil =>
      rfl
  | cons node rest =>
      rw [escaped, List.isEmpty_cons, List.isEmpty_cons]

/-- With entities in their runs, nodes can be held by tags if their tags are sound. -/
theorem isWritable_escaped :
    (nodes : List Node) → isWritable (escaped nodes) = hasSoundTags nodes
  | [] => rfl
  | .text run :: later => by
      rw [escaped, isWritable, isWritable_escaped later, Node.escaped, Node.isWritable,
        isRunChar_of_mem_escapedRun, hasSoundTags, Node.hasSoundTags]
  | .element name attributes children :: later => by
      rw [escaped, isWritable, isWritable_escaped later, Node.escaped, Node.isWritable,
        isWritable_escaped children, isEmpty_escaped, hasSoundTags, Node.hasSoundTags]

theorem tagValues_escaped :
    (nodes : List Node) → tagValues (escaped nodes) = tagValues nodes
  | [] => rfl
  | .text run :: later => by
      rw [escaped, tagValues, tagValues_escaped later, Node.escaped, Node.tagValues, tagValues,
        Node.tagValues]
  | .element name attributes children :: later => by
      rw [escaped, tagValues, tagValues_escaped later, Node.escaped, Node.tagValues,
        tagValues_escaped children, tagValues, Node.tagValues]

/-- Writing does to the brackets in runs of text what entities do. -/
theorem written_escaped :
    (nodes : List Node) → written (escaped nodes) = written nodes
  | [] => rfl
  | .text run :: later => by
      rw [escaped, written, written_escaped later, Node.escaped, Node.written,
        writtenRun_eq (isRunChar_of_mem_escapedRun run), toList_escapedRun, written, Node.written]
  | .element name attributes children :: later => by
      rw [escaped, Node.escaped, written_element, written_element, writtenBody, writtenBody,
        written_escaped children, written_escaped later, isEmpty_escaped]

end Nodes

section Renditions

theorem Renditions.prependRun
    {run : String} {nodes : List Node} {text : List Char}
    (hrun : run.toList.all isRunChar = true) (h : Renditions nodes text) :
    Renditions (Markup.prependRun run nodes) (run.toList ++ text) := by
  by_cases hhead : nodes.head?.any Node.isRun = false
  · rw [prependRun_of_not_isRun hhead]
    split
    case isTrue hempty =>
      rw [hempty]
      exact h
    case isFalse =>
      exact .run hrun h
  · cases h with
    | @run next later text hnext hlater =>
        have hjoined : (run ++ next).toList.all isRunChar = true := by
          rw [String.toList_append, List.all_append, hrun, hnext]
          rfl
        simpa [Markup.prependRun] using Renditions.run hjoined hlater
    | nil | single | paired =>
        simp [Node.isRun] at hhead

/-- What is a rendition of some nodes is a rendition of their normal form. -/
theorem Renditions.normalize
    {nodes : List Node} {text : List Char} (h : Renditions nodes text) :
    Renditions (Markup.normalize nodes) text := by
  induction h with
  | nil =>
      exact .nil
  | run hrun _ ih =>
      exact ih.prependRun hrun
  | single htag _ ih =>
      exact .single htag ih
  | paired htag _ hplain hspace _ ihchildren ih =>
      exact .paired htag ihchildren hplain hspace ih

end Renditions

/-- Whatever comes behind it, the written form of nodes with sound tags is one markup word, and this
word is read as the normal form of the nodes with character entities. -/
theorem ofWord_written_normalize
    {nodes : List Node} (htags : hasSoundTags nodes = true) (hplain : hasPlainTags nodes = true)
    (rest : List Char) :
    markupPiece? ((Atom.markup nodes).written ++ rest) = some (Atom.markup nodes).written ∧
      ofWord (Atom.markup nodes).written = .ok (normalize (escaped nodes)) := by
  have hwritable : isWritable (escaped nodes) = true := by
    rw [isWritable_escaped, htags]
  have hvalues : hasPlainTags (escaped nodes) = true := by
    rw [hasPlainTags, tagValues_escaped]
    exact hplain
  rw [Atom.written, ← written_escaped]
  constructor
  · have hbalanced := balanced_written hwritable hvalues
    have hend := toClosingBracket?_append hbalanced 0 ('>' :: rest)
    simp [markupPiece?, hend, toClosingBracket?]
  · exact ofWord_of_renditions (renditions_written _ hwritable).normalize (isNormal_normalize _)

/-- Runs hold brackets, are empty and stand side by side, also as the only children of an element,
and a value holds a double quote. -/
theorem ofWord_written_normalize_split :
    let nodes : List Node :=
      [.text "a<", .text "", .text ">b", .element ⟨"i", by decide⟩ [("k", "\"")] [.text ""],
        .element ⟨"p", by decide⟩ [] [.text "</p", .element ⟨"q", by decide⟩ [] [], .text ">"]]
    let rest := "></p>>".toList
    hasSoundTags nodes = true ∧ hasPlainTags nodes = true ∧
      markupPiece? ((Atom.markup nodes).written ++ rest) = some (Atom.markup nodes).written ∧
      ofWord (Atom.markup nodes).written = .ok (normalize (escaped nodes)) := by
  intro nodes rest
  have htags : hasSoundTags nodes = true := by
    decide +kernel
  have hplain : hasPlainTags nodes = true := by
    decide +kernel
  exact ⟨htags, hplain, ofWord_written_normalize htags hplain rest⟩

end Markup
end DotCascade
