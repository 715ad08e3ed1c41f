import DotCascade.Proofs.Atom.Faithful
import DotCascade.Proofs.Grammar.Preservation
import Mathlib.Data.List.Basic

/-!
# The atoms of meanings

`Symbol.atoms` lists the atoms in the meaning of a symbol.  Every production puts
together what its symbols mean and adds nothing, except that strings are joined.
So it keeps each property of atoms that joined texts have whenever their parts
have it (`keeps_action`), and the meaning of a derivation has only atoms with such
a property if its words have (`allAtoms_meaning`).
-/

namespace DotCascade

open Grammar

/-- All of some atoms have some property. -/
def AllAtoms (good : Atom → Prop) (atoms : List Atom) : Prop :=
  ∀ atom ∈ atoms, good atom

variable {good : Atom → Prop}

section Lists

theorem allAtoms_nil :
    AllAtoms good [] :=
  nofun

theorem allAtoms_append
    {atoms later : List Atom} :
    AllAtoms good (atoms ++ later) ↔ AllAtoms good atoms ∧ AllAtoms good later :=
  List.forall_mem_append

theorem allAtoms_cons
    {atom : Atom} {later : List Atom} :
    AllAtoms good (atom :: later) ↔ good atom ∧ AllAtoms good later :=
  List.forall_mem_cons

/-- The atoms of an end of a chain. -/
def Endpoint.atoms : Endpoint → List Atom
  | nodes refs => refs.flatMap NodeRef.atoms
  | subgraph id content => id.toList ++ content.atoms

/-- The atoms of keys and values. -/
def pairAtoms (pairs : List Attribute) : List Atom :=
  pairs.flatMap fun (key, value) => [key, value]

theorem allAtoms_flatMap
    {α : Type} {atoms : α → List Atom} {items : List α} :
    AllAtoms good (items.flatMap atoms) ↔ ∀ item ∈ items, AllAtoms good (atoms item) := by
  induction items with
  | nil =>
      simp [AllAtoms]
  | cons item rest ih =>
      rw [List.flatMap_cons, allAtoms_append, ih, List.forall_mem_cons]

theorem allAtoms_flatMap_append
    {α : Type} {atoms : α → List Atom} {items later : List α}
    (h : AllAtoms good (items.flatMap atoms)) (hlater : AllAtoms good (later.flatMap atoms)) :
    AllAtoms good ((items ++ later).flatMap atoms) := by
  rw [List.flatMap_append, allAtoms_append]
  exact ⟨h, hlater⟩

theorem allAtoms_flatMap_concat
    {α : Type} {atoms : α → List Atom} {items : List α} {last : α}
    (h : AllAtoms good (items.flatMap atoms)) (hlast : AllAtoms good (atoms last)) :
    AllAtoms good ((items ++ [last]).flatMap atoms) :=
  allAtoms_flatMap_append h (allAtoms_append.2 ⟨hlast, allAtoms_nil⟩)

theorem allAtoms_pair
    {key value : Atom} (hkey : AllAtoms good [key]) (hvalue : AllAtoms good [value]) :
    AllAtoms good (pairAtoms [(key, value)]) :=
  allAtoms_cons.2 ⟨hkey key List.mem_cons_self, hvalue⟩

end Lists

section Attributes

theorem allAtoms_setEntry
    {key value : Atom} {entries : List Attribute}
    (h : AllAtoms good [key, value]) (hentries : AllAtoms good (pairAtoms entries)) :
    AllAtoms good (pairAtoms (setEntry key value entries)) := by
  induction entries with
  | nil =>
      exact h
  | cons entry rest ih =>
      obtain ⟨k, v⟩ := entry
      rw [pairAtoms, List.flatMap_cons, allAtoms_append] at hentries
      rw [setEntry]
      split
      · rw [pairAtoms, List.flatMap_cons, allAtoms_append]
        exact ⟨h, hentries.2⟩
      · rw [pairAtoms, List.flatMap_cons, allAtoms_append]
        exact ⟨hentries.1, ih hentries.2⟩

theorem allAtoms_setAll
    {attributes : Attributes} {pairs : List Attribute}
    (h : AllAtoms good attributes.atoms) (hpairs : AllAtoms good (pairAtoms pairs)) :
    AllAtoms good (attributes.setAll pairs).atoms := by
  induction pairs generalizing attributes with
  | nil =>
      exact h
  | cons pair rest ih =>
      obtain ⟨key, value⟩ := pair
      rw [pairAtoms, List.flatMap_cons, allAtoms_append] at hpairs
      exact ih (allAtoms_setEntry hpairs.1 h) hpairs.2

theorem allAtoms_ofList
    {pairs : List Attribute} (h : AllAtoms good (pairAtoms pairs)) :
    AllAtoms good (Attributes.ofList pairs).atoms :=
  allAtoms_setAll allAtoms_nil h

theorem allAtoms_overlay
    {lower upper : Attributes} (hlower : AllAtoms good lower.atoms)
    (hupper : AllAtoms good upper.atoms) :
    AllAtoms good (lower.overlay upper).atoms :=
  allAtoms_setAll hlower hupper

end Attributes

section Contents

theorem atomsList_append
    (statements later : List Statement) :
    Statement.atomsList (statements ++ later) =
      Statement.atomsList statements ++ Statement.atomsList later := by
  induction statements with
  | nil =>
      rfl
  | cons statement rest ih =>
      rw [List.cons_append, Statement.atomsList, ih, Statement.atomsList, List.append_assoc]

theorem atomsList_eq_flatMap
    (statements : List Statement) :
    Statement.atomsList statements = statements.flatMap Statement.atoms := by
  induction statements with
  | nil =>
      rfl
  | cons statement rest ih =>
      rw [Statement.atomsList, ih, List.flatMap_cons]

theorem allAtoms_ofStatements
    {statements : List Statement} (h : ∀ statement ∈ statements, AllAtoms good statement.atoms) :
    AllAtoms good (Content.ofStatements statements).atoms := by
  rw [Content.atoms, allAtoms_append]
  refine ⟨allAtoms_nil, ?_⟩
  rw [Content.ofStatements, atomsList_eq_flatMap, allAtoms_flatMap]
  exact h

theorem allAtoms_ofAttributes
    {attributes : Attributes} (h : AllAtoms good attributes.atoms) :
    AllAtoms good (Content.ofAttributes attributes).atoms := by
  rw [Content.atoms, allAtoms_append]
  exact ⟨h, allAtoms_nil⟩

theorem allAtoms_merge
    {first second : Content} (hfirst : AllAtoms good first.atoms)
    (hsecond : AllAtoms good second.atoms) :
    AllAtoms good (first.merge second).atoms := by
  rw [Content.atoms, allAtoms_append] at hfirst hsecond ⊢
  refine ⟨allAtoms_overlay hfirst.1 hsecond.1, ?_⟩
  rw [Content.merge, atomsList_append, allAtoms_append]
  exact ⟨hfirst.2, hsecond.2⟩

theorem allAtoms_toSubgraph
    {id : Option Atom} {content : Content} (hid : AllAtoms good id.toList)
    (h : AllAtoms good content.atoms) :
    AllAtoms good (content.toSubgraph id).atoms := by
  rw [Content.atoms, allAtoms_append] at h
  rw [Content.toSubgraph, Statement.atoms, allAtoms_append, allAtoms_append]
  exact ⟨⟨hid, h.1⟩, h.2⟩

end Contents

section Chains

mutual

/-- The nodes that a statement declares have no atoms of their own. -/
theorem atoms_subset_of_mem_nodeRefs
    (statement : Statement) {ref : NodeRef} (h : ref ∈ statement.nodeRefs) :
    ref.atoms ⊆ statement.atoms := by
  match statement with
  | .defaults kind attributes =>
      cases h
  | .node id attributes =>
      obtain rfl := List.mem_singleton.1 h
      simp [NodeRef.atoms, Statement.atoms]
  | .edge head tail attributes =>
      rcases List.mem_pair.1 h with rfl | rfl
      · simp [Statement.atoms]
      · simp [Statement.atoms]
  | .subgraph id attributes statements =>
      rw [Statement.nodeRefs] at h
      have hsub := atoms_subset_of_mem_nodeRefsList statements h
      rw [Statement.atoms]
      exact List.subset_append_of_subset_right _ hsub

theorem atoms_subset_of_mem_nodeRefsList
    (statements : List Statement) {ref : NodeRef} (h : ref ∈ Statement.nodeRefsList statements) :
    ref.atoms ⊆ Statement.atomsList statements := by
  match statements with
  | [] =>
      cases h
  | statement :: rest =>
      rw [Statement.nodeRefsList] at h
      rw [Statement.atomsList]
      rcases List.mem_append.1 h with h | h
      · exact List.subset_append_of_subset_left _ (atoms_subset_of_mem_nodeRefs statement h)
      · exact List.subset_append_of_subset_right _ (atoms_subset_of_mem_nodeRefsList rest h)

end

theorem allAtoms_of_subset
    {atoms sources : List Atom} (h : AllAtoms good sources) (hsub : atoms ⊆ sources) :
    AllAtoms good atoms :=
  fun atom hatom => h atom (hsub hatom)

theorem allAtoms_nodeRefs
    {endpoint : Endpoint} (h : AllAtoms good endpoint.atoms) :
    ∀ ref ∈ endpoint.nodeRefs, AllAtoms good ref.atoms := by
  cases endpoint with
  | nodes refs =>
      exact allAtoms_flatMap.1 h
  | subgraph id content =>
      intro ref href
      rw [Endpoint.atoms, Content.atoms, allAtoms_append, allAtoms_append] at h
      have hmem := List.mem_eraseDups.1 href
      exact allAtoms_of_subset h.2.2 (atoms_subset_of_mem_nodeRefsList content.statements hmem)

theorem allAtoms_crossEdges
    {attributes : Attributes} {heads tails : List NodeRef} (h : AllAtoms good attributes.atoms)
    (hheads : ∀ ref ∈ heads, AllAtoms good ref.atoms)
    (htails : ∀ ref ∈ tails, AllAtoms good ref.atoms) :
    ∀ statement ∈ crossEdges attributes heads tails, AllAtoms good statement.atoms := by
  intro statement hstatement
  obtain ⟨head, hhead, hstatement⟩ := List.mem_flatMap.1 hstatement
  obtain ⟨tail, htail, rfl⟩ := List.mem_map.1 hstatement
  rw [Statement.atoms, allAtoms_append, allAtoms_append]
  exact ⟨⟨hheads head hhead, htails tail htail⟩, h⟩

theorem allAtoms_chainEdges
    {attributes : Attributes} {endpoints : List Endpoint} (h : AllAtoms good attributes.atoms)
    (hendpoints : ∀ endpoint ∈ endpoints, AllAtoms good endpoint.atoms) :
    ∀ statement ∈ chainEdges attributes endpoints, AllAtoms good statement.atoms := by
  fun_induction chainEdges attributes endpoints with
  | case1 first second rest ih =>
      rw [List.forall_mem_cons] at hendpoints
      have hsecond := (List.forall_mem_cons.1 hendpoints.2).1
      rw [List.forall_mem_append]
      exact ⟨allAtoms_crossEdges h (allAtoms_nodeRefs hendpoints.1)
        (allAtoms_nodeRefs hsecond), ih hendpoints.2⟩
  | case2 =>
      simp

/-- A chain stands for its subgraphs and edges between nodes that its endpoints name. -/
theorem allAtoms_expandChain
    {attributes : Attributes} {endpoints : List Endpoint} (h : AllAtoms good attributes.atoms)
    (hendpoints : ∀ endpoint ∈ endpoints, AllAtoms good endpoint.atoms) :
    AllAtoms good (expandChain endpoints attributes).atoms := by
  refine allAtoms_ofStatements (List.forall_mem_append.2 ⟨?_, ?_⟩)
  · intro statement hstatement
    obtain ⟨endpoint, hmem, hsome⟩ := List.mem_filterMap.1 hstatement
    have hendpoint := hendpoints endpoint hmem
    cases endpoint with
    | nodes refs =>
        cases hsome
    | subgraph id content =>
        obtain rfl := Option.some.inj hsome
        rw [Endpoint.atoms, allAtoms_append] at hendpoint
        exact allAtoms_toSubgraph hendpoint.1 hendpoint.2
  · exact allAtoms_chainEdges h hendpoints

theorem allAtoms_declareNodes
    {refs : List NodeRef} {pairs : List Attribute}
    (hrefs : AllAtoms good (refs.flatMap NodeRef.atoms))
    (hpairs : AllAtoms good (pairAtoms pairs)) :
    AllAtoms good (declareNodes refs pairs).atoms := by
  refine allAtoms_ofStatements ?_
  intro statement hstatement
  obtain ⟨ref, href, rfl⟩ := List.mem_map.1 hstatement
  have hid := allAtoms_flatMap.1 hrefs ref href
  rw [NodeRef.atoms, allAtoms_cons] at hid
  rw [Statement.atoms, allAtoms_cons]
  exact ⟨hid.1, allAtoms_ofList hpairs⟩

end Chains

section Rules

/-- The atoms of the attributes that rules give. -/
def ruleAtoms (rules : List Rule) : List Atom :=
  rules.flatMap fun rule => rule.attributes.atoms

theorem allAtoms_rulesFor
    {selectors : List Selector} {pairs : List Attribute} (h : AllAtoms good (pairAtoms pairs)) :
    AllAtoms good (ruleAtoms (rulesFor selectors pairs)) := by
  rw [ruleAtoms, allAtoms_flatMap]
  intro rule hrule
  obtain ⟨selector, -, rfl⟩ := List.mem_map.1 hrule
  exact allAtoms_ofList h

end Rules

namespace Grammar

section Meanings

/-- The atoms in the meaning of a phrase. -/
def Phrase.atoms : (result : Phrase) → result.Meaning → List Atom
  | .graph, (value : Graph) => value.atoms
  | .graphBody, (value : Content) | .block, (value : Content) | .statements, (value : Content)
  | .entry, (value : Content) | .statement, (value : Content) => value.atoms
  | .subgraph, (value : Option Atom × Content) => value.1.toList ++ value.2.atoms
  | .chain, (value : List Endpoint) => value.flatMap Endpoint.atoms
  | .link, (value : Endpoint) | .endpoint, (value : Endpoint) => value.atoms
  | .nodeRefs, (value : List NodeRef) => value.flatMap NodeRef.atoms
  | .nodeRef, (value : NodeRef) => value.atoms
  | .atom, (value : Atom) => [value]
  | .quoted, (value : String) => [Atom.text value]
  | .attributes, (value : List Attribute) | .bracketed, (value : List Attribute)
  | .pairs, (value : List Attribute) | .declarations, (value : List Attribute) => pairAtoms value
  | .pairEntry, (value : Attribute) | .pair, (value : Attribute)
  | .declaration, (value : Attribute) => pairAtoms [value]
  | .rules, (value : List Rule) | .rule, (value : List Rule) => ruleAtoms value
  | .graphKind, _ | .selectors, _ | .selector, _ | .entity, _ | .classes, _ => []

/-- The atoms that a word of some kind tells. -/
def Terminal.atoms : (terminal : Terminal) → terminal.Lexeme → List Atom
  | .identifier, (text : String) | .number, (text : String) | .string, (text : String) =>
      [.text text]
  | .markup, (nodes : List Markup.Node) => [.markup nodes]
  | _, _ => []

/-- The atoms in the meaning of a symbol. -/
def Symbol.atoms : (symbol : Symbol) → symbol.Meaning → List Atom
  | .word terminal, lexeme => terminal.atoms lexeme
  | .phrase result, value => result.atoms value

/-- Joined texts have a property whenever their parts have it. -/
def Joins (good : Atom → Prop) : Prop :=
  ∀ text later, good (.text text) → good (.text later) → good (.text (text ++ later))

/-- What a production makes of good atoms are good atoms. -/
theorem keeps_action
    (hjoins : Joins good) :
    KeptByActions fun symbol value => AllAtoms good (symbol.atoms value) := by
  intro result symbols production
  cases production with
  | undirected | directed | nodeEntity | edgeEntity | graphEntity | firstClass | firstSelector
  | entitySelector | classSelector =>
      intro _ _
      exact allAtoms_nil
  | strictUndirected | strictDirected | emptyGraphBody | emptyBlock | emptyBracketed | laterClass
  | entityClassSelector =>
      intro _ _ _ _
      exact allAtoms_nil
  | laterSelector =>
      intro _ _ _ _ _ _
      exact allAtoms_nil
  | bareSubgraph | firstEntry | openEntry | nodesEndpoint | subgraphEndpoint | identifierAtom
  | numberAtom | quotedAtom | markupAtom | firstString | firstBracketed | firstPair | openPair
  | wholeNode | firstRule | firstDeclaration =>
      intro value h
      exact h
  | closedEntry | commaPair | semicolonPair =>
      intro value h _ _
      exact h
  | namelessGraph | namelessSubgraph | edgeTo =>
      intro _ _ value h
      exact h
  | fullGraphBody | fullBlock | fullBracketed =>
      intro _ _ value h _ _
      exact h
  | namedGraph | namedSubgraph =>
      intro _ _ id hid body h
      exact allAtoms_append.2 ⟨hid, h⟩
  | laterEntry =>
      intro before hbefore entry hentry
      exact allAtoms_merge hbefore hentry
  | assignment =>
      intro key hkey _ _ value hvalue
      exact allAtoms_ofAttributes (allAtoms_ofList (allAtoms_pair hkey hvalue))
  | graphAttributes =>
      intro _ _ pairs h
      exact allAtoms_ofAttributes (allAtoms_ofList h)
  | nodeDefaults | edgeDefaults =>
      intro _ _ pairs h
      exact allAtoms_ofStatements (List.forall_mem_singleton.2 (allAtoms_ofList h))
  | plainChain =>
      intro endpoints h
      exact allAtoms_expandChain allAtoms_nil (allAtoms_flatMap.1 h)
  | chainWithAttributes =>
      intro endpoints h pairs hpairs
      exact allAtoms_expandChain (allAtoms_ofList hpairs) (allAtoms_flatMap.1 h)
  | subgraphStatement =>
      intro subgraph h
      obtain ⟨hid, hcontent⟩ := allAtoms_append.1 h
      exact allAtoms_ofStatements
        (List.forall_mem_singleton.2 (allAtoms_toSubgraph hid hcontent))
  | plainNodes =>
      intro refs h
      exact allAtoms_declareNodes h allAtoms_nil
  | nodesWithAttributes =>
      intro refs h pairs hpairs
      exact allAtoms_declareNodes h hpairs
  | chainFromNodes | chainFromSubgraph =>
      intro first h next hnext
      exact allAtoms_append.2 ⟨h, allAtoms_append.2 ⟨hnext, allAtoms_nil⟩⟩
  | longerChain =>
      intro endpoints h next hnext
      exact allAtoms_flatMap_concat h hnext
  | firstNodeRef =>
      intro ref h
      exact allAtoms_append.2 ⟨h, allAtoms_nil⟩
  | laterNodeRef =>
      intro refs h _ _ ref href
      exact allAtoms_flatMap_concat h href
  | nodePort =>
      intro id hid _ _ name hname
      exact allAtoms_append.2 ⟨hid, hname⟩
  | nodePortPoint =>
      intro id hid _ _ name hname _ _ point hpoint
      exact allAtoms_append.2 ⟨hid, allAtoms_append.2 ⟨hname, hpoint⟩⟩
  | laterString =>
      intro before h _ _ text htext
      obtain ⟨htext, -⟩ := allAtoms_cons.1 htext
      exact allAtoms_cons.2 ⟨hjoins _ _ (allAtoms_cons.1 h).1 htext, allAtoms_nil⟩
  | laterBracketed | laterPair | laterDeclaration =>
      intro before h pairs hpairs
      exact allAtoms_flatMap_append h hpairs
  | keyValuePair | openDeclaration =>
      intro key hkey _ _ value hvalue
      exact allAtoms_pair hkey hvalue
  | closedDeclaration =>
      intro key hkey _ _ value hvalue _ _
      exact allAtoms_pair hkey hvalue
  | laterRule =>
      intro before h rules hrules
      exact allAtoms_flatMap_append h hrules
  | emptyRule =>
      intro selectors _ _ _ _ _
      exact allAtoms_rulesFor allAtoms_nil
  | fullRule =>
      intro selectors _ _ _ pairs h _ _
      exact allAtoms_rulesFor h

/-- The meaning of a derivation has good atoms if its words have. -/
theorem allAtoms_meaning
    (hjoins : Joins good) {symbol : Symbol} (tree : Tree symbol)
    (h : ∀ word ∈ tree.yield, AllAtoms good (word.terminal.atoms word.lexeme)) :
    AllAtoms good (symbol.atoms tree.meaning) :=
  holds_meaning (keeps_action hjoins) tree h

/-- The meaning of an atom that stands in a source. -/
def Phrase.told : (result : Phrase) → result.Meaning → List Atom
  | .atom, (value : Atom) => [value]
  | _, _ => []

mutual

/-- The meanings of the atoms in a derivation, whatever becomes of them. -/
def Tree.told : {symbol : Symbol} → Tree symbol → List Atom
  | _, .leaf _ _ => []
  | .phrase result, .node production children =>
      result.told (Tree.node production children).meaning ++ children.told

/-- The meanings of the atoms in the derivations of a row. -/
def Forest.told : {symbols : List Symbol} → Forest symbols → List Atom
  | _, .nil => []
  | _, .cons tree later => tree.told ++ later.told

end

mutual

/-- The atoms in a derivation are good if its words are. -/
theorem allAtoms_told
    (hjoins : Joins good) {symbol : Symbol} (tree : Tree symbol)
    (h : ∀ word ∈ tree.yield, AllAtoms good (word.terminal.atoms word.lexeme)) :
    AllAtoms good tree.told := by
  match symbol, tree with
  | _, .leaf _ _ =>
      rw [Tree.told]
      exact allAtoms_nil
  | .phrase result, .node production children =>
      have hmeaning := allAtoms_meaning hjoins (.node production children) h
      rw [Tree.yield] at h
      rw [Tree.told, allAtoms_append]
      refine ⟨?_, allAtoms_toldList hjoins children h⟩
      cases result with
      | atom =>
          exact hmeaning
      | _ =>
          exact allAtoms_nil

theorem allAtoms_toldList
    (hjoins : Joins good) {symbols : List Symbol} (forest : Forest symbols)
    (h : ∀ word ∈ forest.yield, AllAtoms good (word.terminal.atoms word.lexeme)) :
    AllAtoms good forest.told := by
  match forest with
  | .nil =>
      rw [Forest.told]
      exact allAtoms_nil
  | .cons tree later =>
      rw [Forest.yield, List.forall_mem_append] at h
      rw [Forest.told, allAtoms_append]
      exact ⟨allAtoms_told hjoins tree h.1, allAtoms_toldList hjoins later h.2⟩

end

end Meanings

end Grammar
end DotCascade
