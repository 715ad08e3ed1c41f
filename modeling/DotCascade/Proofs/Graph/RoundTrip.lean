import DotCascade.Graph.Written
import DotCascade.Proofs.Graph.Merging
import DotCascade.Proofs.Reading.Renders
import DotCascade.Proofs.Reading.Results

/-!
# Graphs are read as they were written

The written form of a graph renders that graph, provided that all its atoms are
faithful.  The proof follows the written form: atoms in brackets, node
references, statements at every depth, contents and the graph around them.  Rows
of pairs and of statements grow at their end, as the productions for them do.
-/

namespace DotCascade

open Grammar Reading

section Pairs

/-- A key and its value. -/
def writtenPair (pair : Attribute) : List Char :=
  pair.1.written ++ '=' :: pair.2.written

theorem intercalate_space
    (first : List Char) (later : List (List Char)) :
    List.intercalate [' '] (first :: later) = first ++ later.flatMap (' ' :: ·) := by
  induction later generalizing first with
  | nil =>
      simp
  | cons next later ih =>
      rw [List.intercalate_cons_cons, ih]
      simp

theorem renders_pair
    {pair : Attribute} (h : AllFaithful [pair.1, pair.2]) :
    Renders (.phrase .pairEntry) (writtenPair pair) pair := by
  have hkey := renders_atom (h pair.1 (by simp))
  have hvalue := renders_atom (h pair.2 (by simp))
  have hsign : Renders (.word .equals) ['='] () := renders_mark .equals rfl rfl rfl
  exact renders_one .openPair (renders_three .keyValuePair hkey hsign hvalue)

theorem renders_pairs
    {text : List Char} {before : List Attribute} (later : List Attribute)
    (hbefore : Renders (.phrase .pairs) text before)
    (h : AllFaithful (later.flatMap fun pair => [pair.1, pair.2])) :
    Renders (.phrase .pairs)
      (text ++ (later.map writtenPair).flatMap (' ' :: ·)) (before ++ later) := by
  induction later generalizing text before with
  | nil =>
      simpa using hbefore
  | cons pair later ih =>
      rw [List.flatMap_cons, allFaithful_append] at h
      have hpair := (renders_pair h.1).behindGap (isGap_cons (by decide) isGap_nil : IsGap [' '])
      have hgrown := ih (renders_two .laterPair hbefore hpair) h.2
      simpa [Production.action] using hgrown

/-- Attributes in brackets are read as their pairs. -/
theorem renders_attributes
    {attributes : Attributes} (h : AllFaithful attributes.atoms) :
    Renders (.phrase .attributes) attributes.written attributes.entries := by
  have hopen : Renders (.word .leftBracket) ['['] () := renders_mark .leftBracket rfl rfl rfl
  have hclose : Renders (.word .rightBracket) [']'] () := renders_mark .rightBracket rfl rfl rfl
  obtain ⟨entries, hnodup⟩ := attributes
  cases entries with
  | nil =>
      exact renders_one .firstBracketed (renders_two .emptyBracketed hopen hclose)
  | cons pair later =>
      simp only [Attributes.atoms, List.flatMap_cons, allFaithful_append] at h
      have hpairs := renders_pairs later (renders_one .firstPair (renders_pair h.1)) h.2
      have hbracketed := renders_three .fullBracketed hopen hpairs hclose
      have hwritten :
          Attributes.written ⟨pair :: later, hnodup⟩ =
            ['['] ++ (writtenPair pair ++ (later.map writtenPair).flatMap (' ' :: ·) ++ [']']) := by
        unfold Attributes.written writtenPair
        simp [intercalate_space]
      rw [hwritten]
      exact renders_one .firstBracketed hbracketed

end Pairs

section References

/-- A node reference is read with its port and point. -/
theorem renders_nodeRef
    {ref : NodeRef} (h : AllFaithful ref.atoms) :
    Renders (.phrase .nodeRef) ref.written ref := by
  have hcolon : Renders (.word .colon) [':'] () := renders_mark .colon rfl rfl rfl
  obtain ⟨id, port⟩ := ref
  have hid : Renders (.phrase .atom) id.written id := renders_atom (h id (by simp [NodeRef.atoms]))
  rcases port with _ | ⟨name, _ | point⟩
  · exact renders_one .wholeNode hid
  · have hname : Renders (.phrase .atom) name.written name :=
      renders_atom (h name (by simp [NodeRef.atoms, Port.atoms]))
    exact renders_three .nodePort hid hcolon hname
  · have hname : Renders (.phrase .atom) name.written name :=
      renders_atom (h name (by simp [NodeRef.atoms, Port.atoms]))
    have hpoint : Renders (.phrase .atom) point.written point :=
      renders_atom (h point (by simp [NodeRef.atoms, Port.atoms]))
    have hrow :=
      rendersRow_cons hid <| rendersRow_cons hcolon <| rendersRow_cons hname <|
        rendersRow_cons hcolon <| rendersRow_cons hpoint rendersRow_nil
    have hwritten :
        NodeRef.written ⟨id, some ⟨name, some point⟩⟩ =
          id.written ++ ([':'] ++ (name.written ++ ([':'] ++ (point.written ++ [])))) := by
      simp [NodeRef.written]
    rw [hwritten]
    exact renders_node .nodePortPoint hrow

theorem renders_nodeRefs
    {ref : NodeRef} (h : AllFaithful ref.atoms) :
    Renders (.phrase .nodeRefs) ref.written [ref] :=
  renders_one .firstNodeRef (renders_nodeRef h)

theorem renders_operator
    (directed : Bool) :
    Renders (.word .edgeOperator) (writtenOperator directed) () := by
  cases directed with
  | true =>
      have hsign : Renders (.word .edgeOperator) ['-', '>'] () :=
        renders_mark .edgeOperator rfl (Or.inl rfl) rfl
      exact (hsign.withGap isGap_space).behindGap isGap_space
  | false =>
      have hsign : Renders (.word .edgeOperator) ['-', '-'] () :=
        renders_mark .edgeOperator rfl (Or.inr rfl) rfl
      exact (hsign.withGap isGap_space).behindGap isGap_space

/-- Two node references and the operator between them are read as a chain of both. -/
theorem renders_chain
    {head tail : NodeRef} (directed : Bool)
    (hhead : AllFaithful head.atoms) (htail : AllFaithful tail.atoms) :
    Renders (.phrase .chain) (head.written ++ (writtenOperator directed ++ tail.written))
      [Endpoint.nodes [head], Endpoint.nodes [tail]] :=
  renders_two .chainFromNodes (renders_nodeRefs hhead)
    (renders_two .edgeTo (renders_operator directed)
      (renders_one .nodesEndpoint (renders_nodeRefs htail)))

end References

section Contents

variable (directed : Bool) (indent : Int)

theorem isEmpty_eq_true
    {attributes : Attributes} (h : attributes.isEmpty = true) :
    attributes = Attributes.empty :=
  Attributes.ext (List.isEmpty_iff.1 h)

/-- Statements that are read one by one are read in a row, behind what is there already. -/
theorem renders_laterStatements
    {depth : Nat} {text : List Char} {before : Content} (statements : List Statement)
    (heach : ∀ statement ∈ statements,
      Renders (.phrase .statement) (statement.written directed indent depth)
        (Content.ofStatements [statement]))
    (hbefore : Renders (.phrase .statements) text before) :
    Renders (.phrase .statements)
      (text ++ Statement.writtenList directed indent depth statements)
      (before.merge (.ofStatements statements)) := by
  induction statements generalizing text before with
  | nil =>
      simpa [Statement.writtenList, Content.merge, Content.ofStatements, Attributes.overlay,
        Attributes.setAll, Attributes.empty] using hbefore
  | cons statement rest ih =>
      rw [List.forall_mem_cons] at heach
      have hgrown := renders_two .laterEntry hbefore (renders_one .openEntry heach.1)
      have hrest := ih heach.2 hgrown
      rw [Statement.writtenList, ← List.append_assoc]
      have hmerge := merge_ofStatements before [statement] rest
      rw [List.singleton_append] at hmerge
      rw [← hmerge]
      exact hrest

/-- The line for the attributes of a content is read as these attributes. -/
theorem renders_ownAttributes
    {attributes : Attributes} (depth : Nat) (hfilled : attributes.isEmpty = false)
    (h : AllFaithful attributes.atoms) :
    Renders (.phrase .statement) (writtenOwnAttributes indent depth attributes)
      (Content.ofAttributes attributes) := by
  have hword : Renders (.word .graph) "graph ".toList () := renders_keyword .graph rfl rfl
  have hline := renders_two .graphAttributes hword (renders_attributes h)
  have hgaps := (hline.withGap isGap_newline).behindGap
    (isGap_replicate (depth * indent).toNat)
  have hvalue : Attributes.ofList attributes.entries = attributes := ofList_entries attributes
  simpa [writtenOwnAttributes, hfilled, padding, Production.action, hvalue] using hgaps

/-- A content is empty and nothing is written, or it is read as a row of statements. -/
theorem renders_content
    {content : Content} (depth : Nat) (h : AllFaithful content.attributes.atoms)
    (heach : ∀ statement ∈ content.statements,
      Renders (.phrase .statement) (statement.written directed indent depth)
        (Content.ofStatements [statement])) :
    content = Content.empty ∧ content.written directed indent depth = [] ∨
      Renders (.phrase .statements) (content.written directed indent depth) content := by
  obtain ⟨attributes, statements⟩ := content
  by_cases hempty : attributes.isEmpty = true
  · obtain rfl := isEmpty_eq_true hempty
    have hwritten :
        Content.written directed indent depth ⟨Attributes.empty, statements⟩ =
          Statement.writtenList directed indent depth statements := rfl
    rw [hwritten]
    cases statements with
    | nil =>
        exact Or.inl ⟨rfl, rfl⟩
    | cons statement rest =>
        right
        rw [List.forall_mem_cons] at heach
        have hfirst := renders_one .firstEntry (renders_one .openEntry heach.1)
        exact renders_laterStatements directed indent rest heach.2 hfirst
  · right
    have hown := renders_ownAttributes indent depth (by simpa using hempty) h
    have hfirst := renders_one .firstEntry (renders_one .openEntry hown)
    exact renders_laterStatements directed indent statements heach hfirst

theorem renders_opening :
    Renders (.word .leftBrace) ['{', '\n'] () := by
  have hmark : Renders (.word .leftBrace) ['{'] () := renders_mark .leftBrace rfl rfl rfl
  exact hmark.withGap isGap_newline

theorem renders_closing
    (depth : Nat) :
    Renders (.word .rightBrace) (padding indent depth ++ ['}']) () := by
  have hmark : Renders (.word .rightBrace) ['}'] () := renders_mark .rightBrace rfl rfl rfl
  exact hmark.behindGap (isGap_replicate _)

/-- A content between braces is read as a block. -/
theorem renders_block
    (content : Content) (depth : Nat) (h : AllFaithful content.attributes.atoms)
    (heach : ∀ statement ∈ content.statements,
      Renders (.phrase .statement) (statement.written directed indent (depth + 1))
        (Content.ofStatements [statement])) :
    Renders (.phrase .block)
      (['{', '\n'] ++
        (content.written directed indent (depth + 1) ++ (padding indent depth ++ ['}'])))
      content := by
  have hclose := renders_closing indent depth
  rcases renders_content directed indent (depth + 1) h heach with
    ⟨rfl, hnothing⟩ | hcontent
  · rw [hnothing]
    exact renders_two .emptyBlock renders_opening hclose
  · exact renders_three .fullBlock renders_opening hcontent hclose

theorem renders_subgraph
    {id : Option Atom} {text : List Char} {content : Content}
    (hid : AllFaithful id.toList) (hblock : Renders (.phrase .block) text content) :
    Renders (.phrase .subgraph) ("subgraph ".toList ++ (writtenName id ++ text)) (id, content) := by
  have hword : Renders (.word .subgraph) "subgraph ".toList () := renders_keyword .subgraph rfl rfl
  cases id with
  | none =>
      exact renders_two .namelessSubgraph hword hblock
  | some id =>
      have hname := (renders_atom (hid id (by simp))).withGap isGap_space
      exact renders_three .namedSubgraph hword hname hblock

/-- Attributes behind a statement are read with it, if there are some. -/
theorem renders_behind
    {text : List Char} {attributes : Attributes} (content : Attributes → Content)
    (hplain : Renders (.phrase .statement) text (content Attributes.empty))
    (hfull : Renders (.phrase .statement) (text ++ (' ' :: attributes.written))
      (content (.ofList attributes.entries))) :
    Renders (.phrase .statement) (text ++ attributes.writtenBehind) (content attributes) := by
  by_cases hempty : attributes.isEmpty = true
  · obtain rfl := isEmpty_eq_true hempty
    simpa [Attributes.writtenBehind, hempty] using hplain
  · rw [ofList_entries] at hfull
    simpa [Attributes.writtenBehind, hempty] using hfull

theorem renders_defaults
    (kind : DefaultsKind) {attributes : Attributes} (h : AllFaithful attributes.atoms) :
    Renders (.phrase .statement) (kind.written ++ ' ' :: attributes.written)
      (Content.ofStatements [.defaults kind attributes]) := by
  have hattributes := renders_attributes h
  cases kind with
  | node =>
      have hword : Renders (.word .node) ['n', 'o', 'd', 'e', ' '] () :=
        renders_keyword .node rfl rfl
      have hline := renders_two .nodeDefaults hword hattributes
      simpa [DefaultsKind.written, Production.action, ofList_entries] using hline
  | edge =>
      have hword : Renders (.word .edge) ['e', 'd', 'g', 'e', ' '] () :=
        renders_keyword .edge rfl rfl
      have hline := renders_two .edgeDefaults hword hattributes
      simpa [DefaultsKind.written, Production.action, ofList_entries] using hline

theorem renders_nodeStatement
    {id : Atom} {attributes : Attributes}
    (h : AllFaithful (id :: attributes.atoms)) :
    Renders (.phrase .statement) (id.written ++ attributes.writtenBehind)
      (Content.ofStatements [.node id attributes]) := by
  rw [allFaithful_cons] at h
  have href : AllFaithful (NodeRef.atoms ⟨id, none⟩) := by
    intro atom hatom
    rw [List.mem_singleton.1 hatom]
    exact h.1
  have hrefs := renders_nodeRefs href
  have hattributes := (renders_attributes h.2).behindGap isGap_space
  exact renders_behind (fun attributes => Content.ofStatements [.node id attributes])
    (renders_one .plainNodes hrefs) (renders_two .nodesWithAttributes hrefs hattributes)

theorem renders_edge
    {head tail : NodeRef} {attributes : Attributes}
    (h : AllFaithful (head.atoms ++ tail.atoms ++ attributes.atoms)) :
    Renders (.phrase .statement)
      (head.written ++ (writtenOperator directed ++ tail.written) ++ attributes.writtenBehind)
      (Content.ofStatements [.edge head tail attributes]) := by
  rw [allFaithful_append, allFaithful_append] at h
  have hchain := renders_chain directed h.1.1 h.1.2
  have hattributes := (renders_attributes h.2).behindGap isGap_space
  exact renders_behind (fun attributes => Content.ofStatements [.edge head tail attributes])
    (renders_one .plainChain hchain) (renders_two .chainWithAttributes hchain hattributes)

mutual

/-- A statement is read as it was written. -/
theorem renders_statement
    (depth : Nat) (statement : Statement) (h : AllFaithful statement.atoms) :
    Renders (.phrase .statement) (statement.written directed indent depth)
      (Content.ofStatements [statement]) := by
  have hpadding : IsGap (padding indent depth) := isGap_replicate _
  match statement, h with
  | .defaults kind attributes, h =>
      have hline := ((renders_defaults kind h).withGap isGap_newline).behindGap hpadding
      simpa [Statement.written] using hline
  | .node id attributes, h =>
      have hline := ((renders_nodeStatement h).withGap isGap_newline).behindGap hpadding
      simpa [Statement.written] using hline
  | .edge head tail attributes, h =>
      have hline :=
        ((renders_edge directed h).withGap isGap_newline).behindGap hpadding
      simpa [Statement.written] using hline
  | .subgraph id attributes statements, h =>
      rw [Statement.atoms, allFaithful_append, allFaithful_append] at h
      have heach := renders_eachStatement (depth + 1) statements h.2
      have hblock := renders_block directed indent ⟨attributes, statements⟩ depth h.1.2 heach
      have hsubgraph := renders_one .subgraphStatement (renders_subgraph h.1.1 hblock)
      have hline := (hsubgraph.withGap isGap_newline).behindGap hpadding
      simpa [Statement.written, Content.written, Content.toSubgraph, Production.action] using hline

/-- Each of some statements is read as it was written. -/
theorem renders_eachStatement
    (depth : Nat) (statements : List Statement)
    (h : AllFaithful (Statement.atomsList statements)) :
    ∀ statement ∈ statements,
      Renders (.phrase .statement) (statement.written directed indent depth)
        (Content.ofStatements [statement]) := by
  match statements, h with
  | [], _ =>
      simp
  | statement :: rest, h =>
      rw [Statement.atomsList, allFaithful_append] at h
      rw [List.forall_mem_cons]
      exact ⟨renders_statement depth statement h.1, renders_eachStatement depth rest h.2⟩

end

end Contents

section Graphs

variable (indent : Int)

/-- The words that open a graph are read as its kind. -/
theorem renders_kind
    (strict directed : Bool) :
    Renders (.phrase .graphKind) (writtenKind strict directed) ⟨strict, directed⟩ := by
  have hstrict : Renders (.word .strict) "strict ".toList () := renders_keyword .strict rfl rfl
  have hdigraph : Renders (.word .digraph) "digraph ".toList () := renders_keyword .digraph rfl rfl
  have hgraph : Renders (.word .graph) "graph ".toList () := renders_keyword .graph rfl rfl
  cases strict <;> cases directed
  · exact renders_one .undirected hgraph
  · exact renders_one .directed hdigraph
  · exact renders_two .strictUndirected hstrict hgraph
  · exact renders_two .strictDirected hstrict hdigraph

theorem renders_graphBody
    (directed : Bool) {content : Content} (h : AllFaithful content.atoms) :
    Renders (.phrase .graphBody)
      (['{', '\n'] ++ (content.written directed indent 1 ++ ['}'])) content := by
  rw [Content.atoms, allFaithful_append] at h
  have hclose : Renders (.word .rightBrace) ['}'] () := renders_mark .rightBrace rfl rfl rfl
  have heach := renders_eachStatement directed indent 1 content.statements h.2
  rcases renders_content directed indent 1 h.1 heach with ⟨rfl, hnothing⟩ | hcontent
  · rw [hnothing]
    exact renders_two .emptyGraphBody renders_opening hclose
  · exact renders_three .fullGraphBody renders_opening hcontent hclose

/-- The written form of a graph with faithful atoms renders the graph. -/
theorem renders_graph
    {graph : Graph} (h : AllFaithful graph.atoms) :
    Renders (.phrase .graph) (graph.written indent) graph := by
  obtain ⟨id, strict, directed, content⟩ := graph
  rw [Graph.atoms, allFaithful_append] at h
  have hkind := renders_kind strict directed
  have hbody := (renders_graphBody indent directed h.2).withGap isGap_newline
  cases id with
  | none =>
      have hgraph := renders_two .namelessGraph hkind hbody
      simpa [Graph.written, writtenName, Production.action] using hgraph
  | some id =>
      have hname := (renders_atom (h.1 id (by simp))).withGap isGap_space
      have hgraph := renders_three .namedGraph hkind hname hbody
      simpa [Graph.written, writtenName, Production.action] using hgraph

/-- A text that renders a meaning of a goal is read as a derivation with this meaning. -/
theorem exists_read_of_renders
    {goal : Phrase} {text : List Char} {value : goal.Meaning}
    (hgoal : IsGoal goal) (h : Renders (.phrase goal) text value) :
    ∃ tree, read goal text = .ok tree ∧ tree.meaning = value := by
  obtain ⟨tree, hvalue, hscans⟩ := h
  have hscan := hscans []
  rw [List.append_nil] at hscan
  exact ⟨tree, read_of_scans hgoal hscan (by simp [skipGap]), hvalue⟩

/-- A graph with faithful atoms is read as it was written. -/
theorem parse_toText_of_faithful
    {graph : Graph} (h : AllFaithful graph.atoms) :
    Graph.parse (graph.toText indent) = .ok graph := by
  rw [Graph.parse_eq_ok_iff, Graph.toText, String.toList_ofList]
  exact exists_read_of_renders (Or.inl rfl) (renders_graph indent h)

/-- A graph with faithful atoms is read as it was written, with the keys of every attribute map in
their order, and written again it is the same text. -/
theorem parse_toText
    (graph : Graph) (h : ∀ atom ∈ graph.atoms, atom.isFaithful = true) :
    Graph.parse (graph.toText indent) = .ok graph ∧
      (Graph.parse (graph.toText indent)).map (fun again => again.toText indent) =
        .ok (graph.toText indent) := by
  have hparse := parse_toText_of_faithful indent h
  constructor
  · exact hparse
  · rw [hparse]
    rfl

/-- A strict graph with a subgraph, an edge between ports and markup, written without indent. -/
theorem parse_toText_nested :
    let label : Atom := .markup
      [.element ⟨"b", by decide⟩ [("title", "it's")] [.text " x "], .text "y"]
    let colors : Attributes := .ofList [(.text "color", .text "a\\\\b"), (label, .text "\"")]
    let inner : Statement :=
      .subgraph none colors [.node (.text "n") colors, .defaults .edge colors]
    let edge : Statement :=
      .edge ⟨.text "a b", some ⟨.text "p", some (.text "ne")⟩⟩ ⟨label, none⟩ Attributes.empty
    let graph : Graph := ⟨some (.text ""), true, false, ⟨colors, [inner, edge]⟩⟩
    Graph.parse (graph.toText (-1)) = .ok graph := by
  intro label colors inner edge graph
  exact (parse_toText (-1) graph (by decide)).1

end Graphs

end DotCascade
