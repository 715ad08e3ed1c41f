import DotCascade.Markup.Fault
import DotCascade.Markup.Tag

/-!
# Reading markup

A markup word begins with a bracket, and the nodes behind it are read up to the
bracket that ends the list.  The elements that are open at some place are kept
on a list, the innermost one first, each with the siblings that stand in front
of it.

A quoted tag attribute value may hold brackets.  The word ends where its
brackets balance, whatever stands between quotes, so reading can run off the end
of the word, and it can also stop before that end.
-/

namespace DotCascade
namespace Markup

/-- An element whose closing tag has not been read, with the siblings before it, the last first. -/
structure OpenElement where
  name : Name
  attributes : List TagAttribute
  before : List Node

/-- Why reading stopped early. -/
inductive Stop where
  /-- A fault, with the number of characters of the word from its place on. -/
  | fault (fault : Fault) (remaining : Nat)
  /-- The word ended while nodes were still to be read. -/
  | overrun
deriving DecidableEq

/-- The characters of a run of text. -/
def isRunChar (c : Char) : Bool :=
  c ≠ '<' && c ≠ '>'

theorem isRunChar_iff
    {c : Char} :
    isRunChar c = true ↔ c ≠ '<' ∧ c ≠ '>' := by
  simp [isRunChar]

/-- An element once its children have been read, the last one first. -/
def OpenElement.close (element : OpenElement) (children : List Node) : Node :=
  .element element.name element.attributes children.reverse

/-- Reads nodes up to the bracket that ends the outermost list.  Of the nodes of the innermost
list those that were read before are given, the last one first. -/
def readNodes
    (openElements : List OpenElement)
    (before : List Node) :
    List Char → Except Stop (List Node)
  | [] => .error .overrun
  | '<' :: '/' :: rest =>
      match openElements with
      | [] => .error (.fault .closingTag (rest.length + 2))
      | element :: outer =>
          match h : closingTag? element.name rest with
          | none => .error (.fault (.mismatchedTag element.name) (rest.length + 2))
          | some behind =>
              have := length_closingTag?_lt h
              readNodes outer (element.close before :: element.before) behind
  | '<' :: rest =>
      match hn : tagName? rest with
      | none => .error (.fault .missingName rest.length)
      | some (name, behindName) =>
          have := length_tagName?_lt hn
          have := length_tagAttributes_le behindName
          match he : tagEnd? (tagAttributes behindName).2 with
          | none =>
              .error (.fault (.malformedTag name) (tagAttributes behindName).2.length)
          | some (true, behind) =>
              have := length_tagEnd?_lt he
              readNodes openElements
                (.element name (tagAttributes behindName).1 [] :: before) behind
          | some (false, behind) =>
              have := length_tagEnd?_lt he
              readNodes (⟨name, (tagAttributes behindName).1, before⟩ :: openElements) [] behind
  | '>' :: rest =>
      match openElements with
      | [] => .ok before.reverse
      | element :: _ =>
          .error (.fault (.bracketInside element.name) (rest.length + 1))
  | c :: rest =>
      have := length_dropWhile_le isRunChar rest
      readNodes openElements
        (.text (String.ofList (c :: rest.takeWhile isRunChar)) :: before)
        (rest.dropWhile isRunChar)
termination_by text => text.length

/-- The nodes of a markup word, which begins with a bracket. -/
def ofWord (word : List Char) : Except Stop (List Node) :=
  readNodes [] [] word.tail

end Markup
end DotCascade
