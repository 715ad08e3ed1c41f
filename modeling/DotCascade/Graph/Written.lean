import DotCascade.Atom.Written
import DotCascade.Graph.Basic

/-!
# The written form of graphs

A graph is written one statement a line, the attributes of a content in front of
its statements, and every level of nesting is indented by the same width.  A
width below one indents nothing.
-/

namespace DotCascade

/-- The default width of one level of nesting. -/
def defaultIndent : Int :=
  2

/-- The blanks in front of a line at some depth. -/
def padding (indent : Int) (depth : Nat) : List Char :=
  List.replicate (depth * indent).toNat ' '

/-- A node reference: the node, and behind colons its port and point. -/
def NodeRef.written (ref : NodeRef) : List Char :=
  match ref.port with
  | none => ref.id.written
  | some ⟨name, none⟩ => ref.id.written ++ ':' :: name.written
  | some ⟨name, some point⟩ =>
      ref.id.written ++ ':' :: name.written ++ ':' :: point.written

/-- The word that opens defaults. -/
def DefaultsKind.written : DefaultsKind → List Char
  | node => ['n', 'o', 'd', 'e']
  | edge => ['e', 'd', 'g', 'e']

/-- The operator between the ends of an edge. -/
def writtenOperator (directed : Bool) : List Char :=
  if directed then [' ', '-', '>', ' '] else [' ', '-', '-', ' ']

/-- The name of a graph or a subgraph and the space behind it, if there is one. -/
def writtenName : Option Atom → List Char
  | none => []
  | some id => id.written ++ [' ']

/-- The line for the attributes of a content, if it has some. -/
def writtenOwnAttributes
    (indent : Int) (depth : Nat) (attributes : Attributes) : List Char :=
  if attributes.isEmpty then []
  else padding indent depth ++ "graph ".toList ++ attributes.written ++ ['\n']

section Statements

variable (directed : Bool) (indent : Int)

mutual

/-- A statement at some depth. -/
def Statement.written (depth : Nat) : Statement → List Char
  | .defaults kind attributes =>
      padding indent depth ++ kind.written ++ ' ' :: attributes.written ++ ['\n']
  | .node id attributes =>
      padding indent depth ++ id.written ++ attributes.writtenBehind ++ ['\n']
  | .edge head tail attributes =>
      padding indent depth ++ head.written ++ writtenOperator directed ++ tail.written ++
        attributes.writtenBehind ++ ['\n']
  | .subgraph id attributes statements =>
      padding indent depth ++ "subgraph ".toList ++ writtenName id ++ ['{', '\n'] ++
        writtenOwnAttributes indent (depth + 1) attributes ++
        Statement.writtenList (depth + 1) statements ++
        padding indent depth ++ ['}', '\n']

/-- Statements at some depth, one after the other. -/
def Statement.writtenList (depth : Nat) : List Statement → List Char
  | [] => []
  | statement :: rest =>
      Statement.written depth statement ++ Statement.writtenList depth rest

end

end Statements

/-- A content at some depth. -/
def Content.written
    (directed : Bool) (indent : Int) (depth : Nat) (content : Content) : List Char :=
  writtenOwnAttributes indent depth content.attributes ++
    Statement.writtenList directed indent depth content.statements

/-- The words that open a graph, each with the space behind it. -/
def writtenKind (strict directed : Bool) : List Char :=
  (if strict then "strict ".toList else []) ++
    (if directed then "digraph ".toList else "graph ".toList)

/-- The characters of a graph as it stands in a source. -/
def Graph.written (indent : Int) (graph : Graph) : List Char :=
  writtenKind graph.strict graph.directed ++ writtenName graph.id ++ ['{', '\n'] ++
    graph.content.written graph.directed indent 1 ++ ['}', '\n']

/-- The text of a graph. -/
def Graph.toText (graph : Graph) (indent : Int) : String :=
  String.ofList (graph.written indent)

end DotCascade
