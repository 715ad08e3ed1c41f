import DotCascade.Proofs.Grammar.Correspondence

/-!
# Every derivation comes from a tree

A repetition is built up by putting one derivation after the other at its end, as
the productions build it.  So the trees for what a pattern is filled in with make
a tree for the nonterminal, and every graph and every stylesheet that is not empty
has one.
-/

namespace DotCascade
namespace Grammar

section Coverage

/-- Some tree of a phrase has the given derivation. -/
def Phrase.Covers (phrase : Phrase) (derivation : Derivation phrase.pattern) : Prop :=
  ∃ tree : Tree (.phrase phrase), tree.derivation = derivation

/-- A filled in nonterminal comes from a tree.  The kinds of statement that have no
production of their own are statements, and a row may be empty. -/
def Nonterminal.Covers : (nonterminal : Nonterminal) → Derivation nonterminal.pattern → Prop
  | .atom, inner => Phrase.Covers .atom (.one .atom inner)
  | .quoted, inner => Phrase.Covers .quoted inner
  | .attrList, inner => Phrase.Covers .attributes inner
  | .attr, inner => Phrase.Covers .pair (.one .attr inner)
  | .graph, inner => Phrase.Covers .graph (.one .graph inner)
  | .body, inner => inner = .stop ∨ Phrase.Covers .statements inner
  | .statement, inner => Phrase.Covers .statement (.one .statement inner)
  | .graphAttrAssign, inner =>
      Phrase.Covers .statement (.one .statement (.left (.one .graphAttrAssign inner)))
  | .graphAttrBlock, inner =>
      Phrase.Covers .statement
        (.one .statement (.right (.left (.one .graphAttrBlock inner))))
  | .attrStmt, inner =>
      Phrase.Covers .statement
        (.one .statement (.right (.right (.left (.one .attrStmt inner)))))
  | .edgeStmt, inner =>
      Phrase.Covers .statement
        (.one .statement (.right (.right (.right (.left (.one .edgeStmt inner))))))
  | .endpoint, inner => Phrase.Covers .endpoint (.one .endpoint inner)
  | .subgraph, inner => Phrase.Covers .subgraph (.one .subgraph inner)
  | .nodeStmt, inner =>
      Phrase.Covers .statement
        (.one .statement (.right (.right (.right (.right (.right (.one .nodeStmt inner)))))))
  | .nodeIds, inner => Phrase.Covers .nodeRefs inner
  | .nodeId, inner => Phrase.Covers .nodeRef (.one .nodeId inner)
  | .stylesheet, inner => inner = .stop ∨ Phrase.Covers .rules inner
  | .rule, inner => Phrase.Covers .rule (.one .rule inner)
  | .selector, inner => Phrase.Covers .selector (.one .selector inner)
  | .declaration, inner => Phrase.Covers .declaration (.one .declaration inner)

/-- All filled in nonterminals of a derivation come from trees. -/
def Derivation.Covered : {pattern : Pattern} → Derivation pattern → Prop
  | _, .word _ _ | _, .absent | _, .stop => True
  | _, .one nonterminal inner => nonterminal.Covers inner
  | _, .left inner | _, .right inner | _, .present inner => inner.Covered
  | _, .both first second => first.Covered ∧ second.Covered
  | _, .more first later => first.Covered ∧ later.Covered

theorem append_concat
    {a : Pattern} (before later : Derivation (.many a)) (middle : Derivation a) :
    (before.concat middle).append later = before.append (.more middle later) := by
  match before with
  | .stop =>
      simp [Derivation.concat, Derivation.append]
  | .more first rest =>
      simp [Derivation.concat, Derivation.append, append_concat rest later middle]

theorem append_stop
    {a : Pattern} (before : Derivation (.many a)) :
    before.append .stop = before := by
  match before with
  | .stop =>
      rw [Derivation.append]
  | .more first later =>
      rw [Derivation.append, append_stop later]

/-- What holds behind a repetition as it grows at its end holds behind all of it. -/
theorem good_append
    {a : Pattern} {good : Derivation (.many a) → Prop}
    (hconcat : ∀ before last, good before → last.Covered → good (before.concat last))
    {before later : Derivation (.many a)} (hbefore : good before) (hlater : later.Covered) :
    good (before.append later) := by
  match later with
  | .stop =>
      rw [append_stop]
      exact hbefore
  | .more first rest =>
      rw [← append_concat]
      exact good_append hconcat (hconcat before first hbefore hlater.1) hlater.2

/-- A repetition is built up at its end. -/
theorem good_of_concat
    {a : Pattern} (good : Derivation (.many a) → Prop) (hstop : good .stop)
    (hconcat : ∀ before last, good before → last.Covered → good (before.concat last))
    {row : Derivation (.many a)} (h : row.Covered) :
    good row := by
  have happend := good_append hconcat hstop h
  rwa [Derivation.append] at happend

/-- A repetition is empty or built up at its end from a single derivation. -/
theorem eq_stop_or_good
    {a : Pattern} (good : Derivation (.many a) → Prop)
    (hfirst : ∀ first, first.Covered → good (.more first .stop))
    (hconcat : ∀ before last, good before → last.Covered → good (before.concat last))
    {row : Derivation (.many a)} (h : row.Covered) :
    row = .stop ∨ good row := by
  refine good_of_concat (fun row => row = .stop ∨ good row) (Or.inl rfl) ?_ h
  rintro before last (rfl | hbefore) hlast
  · right
    rw [Derivation.concat]
    exact hfirst last hlast
  · exact Or.inr (hconcat before last hbefore hlast)

end Coverage

section Rows

theorem covers_quoted
    {inner : Derivation (Phrase.pattern .quoted)} (h : inner.Covered) :
    Phrase.Covers .quoted inner := by
  cases inner with
  | both first later =>
      refine good_of_concat (fun later => Phrase.Covers .quoted (.both first later)) ?_ ?_ h.2
      · cases first with
        | word _ text =>
            exact ⟨.node .firstString (.cons (.leaf .string text) .nil), rfl⟩
      · rintro before last ⟨tree, htree⟩ -
        match last with
        | .both (.word _ plus) (.word _ text) =>
            refine ⟨.node .laterString
              (.cons tree (.cons (.leaf .plus plus) (.cons (.leaf .string text) .nil))), ?_⟩
            -- The row is split into its first string and the others, so no variable stands for it.
            rw [Tree.derivation, Forest.derivations, htree]
            rfl

theorem covers_pairEntry
    {inner : Derivation (Phrase.pattern .pairEntry)} (h : inner.Covered) :
    Phrase.Covers .pairEntry inner := by
  cases inner with
  | both pair separator =>
      cases pair with
      | one _ pair =>
          obtain ⟨tree, htree⟩ := h.1
          rw [← htree]
          match separator with
          | .absent =>
              exact ⟨.node .openPair (.cons tree .nil), rfl⟩
          | .present (.left (.word _ comma)) =>
              exact ⟨.node .commaPair (.cons tree (.cons (.leaf .comma comma) .nil)), rfl⟩
          | .present (.right (.word _ semicolon)) =>
              exact ⟨.node .semicolonPair
                (.cons tree (.cons (.leaf .semicolon semicolon) .nil)), rfl⟩

theorem covers_pairs
    {inner : Derivation (Phrase.pattern .pairs)} (h : inner.Covered) :
    inner = .stop ∨ Phrase.Covers .pairs inner := by
  refine eq_stop_or_good (Phrase.Covers .pairs) ?_ ?_ h
  · intro first hfirst
    obtain ⟨entry, rfl⟩ := covers_pairEntry hfirst
    exact ⟨.node .firstPair (.cons entry .nil), rfl⟩
  · rintro before last ⟨tree, rfl⟩ hlast
    obtain ⟨entry, rfl⟩ := covers_pairEntry hlast
    exact ⟨.node .laterPair (.cons tree (.cons entry .nil)), rfl⟩

theorem covers_bracketed
    {inner : Derivation (Phrase.pattern .bracketed)} (h : inner.Covered) :
    Phrase.Covers .bracketed inner := by
  match inner, h with
  | .both (.word _ opening) (.both pairs (.word _ closing)), h =>
      rcases covers_pairs h.2.1 with rfl | ⟨tree, rfl⟩
      · exact ⟨.node .emptyBracketed
          (.cons (.leaf .leftBracket opening) (.cons (.leaf .rightBracket closing) .nil)), rfl⟩
      · exact ⟨.node .fullBracketed
          (.cons (.leaf .leftBracket opening)
            (.cons tree (.cons (.leaf .rightBracket closing) .nil))), rfl⟩

theorem covers_attributes
    {inner : Derivation (Phrase.pattern .attributes)} (h : inner.Covered) :
    Phrase.Covers .attributes inner := by
  cases inner with
  | both first later =>
      refine good_of_concat (fun later => Phrase.Covers .attributes (.both first later)) ?_ ?_ h.2
      · obtain ⟨bracketed, rfl⟩ := covers_bracketed h.1
        exact ⟨.node .firstBracketed (.cons bracketed .nil), rfl⟩
      · rintro before last ⟨tree, htree⟩ hlast
        obtain ⟨bracketed, rfl⟩ := covers_bracketed hlast
        refine ⟨.node .laterBracketed (.cons tree (.cons bracketed .nil)), ?_⟩
        rw [Tree.derivation, Forest.derivations, htree]
        rfl

theorem covers_entry
    {inner : Derivation (Phrase.pattern .entry)} (h : inner.Covered) :
    Phrase.Covers .entry inner := by
  match inner, h with
  | .both (.one _ _) .absent, h =>
      obtain ⟨tree, htree⟩ := h.1
      rw [← htree]
      exact ⟨.node .openEntry (.cons tree .nil), rfl⟩
  | .both (.one _ _) (.present (.word _ semicolon)), h =>
      obtain ⟨tree, htree⟩ := h.1
      rw [← htree]
      exact ⟨.node .closedEntry (.cons tree (.cons (.leaf .semicolon semicolon) .nil)), rfl⟩

theorem covers_statements
    {inner : Derivation (Phrase.pattern .statements)} (h : inner.Covered) :
    inner = .stop ∨ Phrase.Covers .statements inner := by
  refine eq_stop_or_good (Phrase.Covers .statements) ?_ ?_ h
  · intro first hfirst
    obtain ⟨entry, rfl⟩ := covers_entry hfirst
    exact ⟨.node .firstEntry (.cons entry .nil), rfl⟩
  · rintro before last ⟨tree, rfl⟩ hlast
    obtain ⟨entry, rfl⟩ := covers_entry hlast
    exact ⟨.node .laterEntry (.cons tree (.cons entry .nil)), rfl⟩

theorem covers_nodeRefs
    {inner : Derivation (Phrase.pattern .nodeRefs)} (h : inner.Covered) :
    Phrase.Covers .nodeRefs inner := by
  cases inner with
  | both first later =>
      refine good_of_concat (fun later => Phrase.Covers .nodeRefs (.both first later)) ?_ ?_ h.2
      · cases first with
        | one _ first =>
            obtain ⟨ref, href⟩ := h.1
            rw [← href]
            exact ⟨.node .firstNodeRef (.cons ref .nil), rfl⟩
      · rintro before last ⟨tree, htree⟩ hlast
        match last, hlast with
        | .both (.word _ comma) (.one _ _), hlast =>
            obtain ⟨ref, href⟩ := hlast.2
            refine ⟨.node .laterNodeRef
              (.cons tree (.cons (.leaf .comma comma) (.cons ref .nil))), ?_⟩
            rw [Tree.derivation, Forest.derivations, Forest.derivations, Forest.derivations,
              htree, href]
            rfl

theorem covers_link
    {inner : Derivation (Phrase.pattern .link)} (h : inner.Covered) :
    Phrase.Covers .link inner := by
  match inner, h with
  | .both (.word _ sign) (.one _ _), h =>
      obtain ⟨tree, htree⟩ := h.2
      rw [← htree]
      exact ⟨.node .edgeTo (.cons (.leaf .edgeOperator sign) (.cons tree .nil)), rfl⟩

theorem covers_chain
    {inner : Derivation (Phrase.pattern .chain)} (h : inner.Covered) :
    Phrase.Covers .chain inner := by
  match inner, h with
  | .both (.one _ endpoint) (.both second later), h =>
      refine good_of_concat
        (fun later => Phrase.Covers .chain (.both (.one _ endpoint) (.both second later)))
        ?_ ?_ h.2.2
      · obtain ⟨link, rfl⟩ := covers_link h.2.1
        obtain ⟨tree, htree⟩ := h.1
        rw [← htree]
        match tree with
        | .node .nodesEndpoint (.cons refs .nil) =>
            exact ⟨.node .chainFromNodes (.cons refs (.cons link .nil)), rfl⟩
        | .node .subgraphEndpoint (.cons subgraph .nil) =>
            exact ⟨.node .chainFromSubgraph (.cons subgraph (.cons link .nil)), rfl⟩
      · rintro before last ⟨tree, htree⟩ hlast
        obtain ⟨link, rfl⟩ := covers_link hlast
        refine ⟨.node .longerChain (.cons tree (.cons link .nil)), ?_⟩
        rw [Tree.derivation, Forest.derivations, htree]
        rfl

theorem covers_rules
    {inner : Derivation (Phrase.pattern .rules)} (h : inner.Covered) :
    inner = .stop ∨ Phrase.Covers .rules inner := by
  refine eq_stop_or_good (Phrase.Covers .rules) ?_ ?_ h
  · intro first hfirst
    cases first with
    | one _ first =>
        obtain ⟨rule, hrule⟩ := hfirst
        rw [← hrule]
        exact ⟨.node .firstRule (.cons rule .nil), rfl⟩
  · rintro before last ⟨tree, rfl⟩ hlast
    cases last with
    | one _ last =>
        obtain ⟨rule, hrule⟩ := hlast
        rw [← hrule]
        exact ⟨.node .laterRule (.cons tree (.cons rule .nil)), rfl⟩

theorem covers_selectors
    {inner : Derivation (Phrase.pattern .selectors)} (h : inner.Covered) :
    Phrase.Covers .selectors inner := by
  cases inner with
  | both first later =>
      refine good_of_concat (fun later => Phrase.Covers .selectors (.both first later)) ?_ ?_ h.2
      · cases first with
        | one _ first =>
            obtain ⟨selector, hselector⟩ := h.1
            rw [← hselector]
            exact ⟨.node .firstSelector (.cons selector .nil), rfl⟩
      · rintro before last ⟨tree, htree⟩ hlast
        match last, hlast with
        | .both (.word _ comma) (.one _ _), hlast =>
            obtain ⟨selector, hselector⟩ := hlast.2
            refine ⟨.node .laterSelector
              (.cons tree (.cons (.leaf .comma comma) (.cons selector .nil))), ?_⟩
            rw [Tree.derivation, Forest.derivations, Forest.derivations, Forest.derivations,
              htree, hselector]
            rfl

theorem covers_classes
    {inner : Derivation (Phrase.pattern .classes)} (h : inner.Covered) :
    Phrase.Covers .classes inner := by
  match inner, h with
  | .both (.word _ name) later, h =>
      refine good_of_concat
        (fun later => Phrase.Covers .classes (.both (.word _ name) later)) ?_ ?_ h.2
      · exact ⟨.node .firstClass (.cons (.leaf .className name) .nil), rfl⟩
      · rintro before last ⟨tree, htree⟩ -
        cases last with
        | word _ name =>
            refine ⟨.node .laterClass (.cons tree (.cons (.leaf .className name) .nil)), ?_⟩
            rw [Tree.derivation, Forest.derivations, htree]
            rfl

theorem covers_declarations
    {inner : Derivation (Phrase.pattern .declarations)} (h : inner.Covered) :
    inner = .stop ∨ Phrase.Covers .declarations inner := by
  refine eq_stop_or_good (Phrase.Covers .declarations) ?_ ?_ h
  · intro first hfirst
    cases first with
    | one _ first =>
        obtain ⟨declaration, hdeclaration⟩ := hfirst
        rw [← hdeclaration]
        exact ⟨.node .firstDeclaration (.cons declaration .nil), rfl⟩
  · rintro before last ⟨tree, rfl⟩ hlast
    cases last with
    | one _ last =>
        obtain ⟨declaration, hdeclaration⟩ := hlast
        rw [← hdeclaration]
        exact ⟨.node .laterDeclaration (.cons tree (.cons declaration .nil)), rfl⟩

end Rows

section Nonterminals

theorem covers_graphKind
    (inner : Derivation (Phrase.pattern .graphKind)) :
    Phrase.Covers .graphKind inner := by
  match inner with
  | .both .absent (.left (.word _ kind)) =>
      exact ⟨.node .undirected (.cons (.leaf .graph kind) .nil), rfl⟩
  | .both .absent (.right (.word _ kind)) =>
      exact ⟨.node .directed (.cons (.leaf .digraph kind) .nil), rfl⟩
  | .both (.present (.word _ mode)) (.left (.word _ kind)) =>
      exact ⟨.node .strictUndirected
        (.cons (.leaf .strict mode) (.cons (.leaf .graph kind) .nil)), rfl⟩
  | .both (.present (.word _ mode)) (.right (.word _ kind)) =>
      exact ⟨.node .strictDirected
        (.cons (.leaf .strict mode) (.cons (.leaf .digraph kind) .nil)), rfl⟩

/-- A body between braces belongs to a graph as well as to a subgraph. -/
theorem covers_braced
    {inner : Derivation (Phrase.pattern .block)} (h : inner.Covered) :
    Phrase.Covers .graphBody inner ∧ Phrase.Covers .block inner := by
  match inner, h with
  | .both (.word _ opening) (.both (.one _ _) (.word _ closing)), h =>
      rcases h.2.1 with rfl | ⟨tree, rfl⟩
      · exact ⟨⟨.node .emptyGraphBody
            (.cons (.leaf .leftBrace opening) (.cons (.leaf .rightBrace closing) .nil)), rfl⟩,
          ⟨.node .emptyBlock
            (.cons (.leaf .leftBrace opening) (.cons (.leaf .rightBrace closing) .nil)), rfl⟩⟩
      · exact ⟨⟨.node .fullGraphBody
            (.cons (.leaf .leftBrace opening)
              (.cons tree (.cons (.leaf .rightBrace closing) .nil))), rfl⟩,
          ⟨.node .fullBlock
            (.cons (.leaf .leftBrace opening)
              (.cons tree (.cons (.leaf .rightBrace closing) .nil))), rfl⟩⟩

theorem covers_entity
    (inner : Derivation (Phrase.pattern .entity)) :
    Phrase.Covers .entity inner := by
  match inner with
  | .left (.word _ keyword) =>
      exact ⟨.node .nodeEntity (.cons (.leaf .node keyword) .nil), rfl⟩
  | .right (.left (.word _ keyword)) =>
      exact ⟨.node .edgeEntity (.cons (.leaf .edge keyword) .nil), rfl⟩
  | .right (.right (.word _ keyword)) =>
      exact ⟨.node .graphEntity (.cons (.leaf .graph keyword) .nil), rfl⟩

theorem covers_graph
    {inner : Derivation Nonterminal.graph.pattern} (h : inner.Covered) :
    Phrase.Covers .graph (.one .graph inner) := by
  match inner, h with
  | .both mode (.both kind (.both id content)), h =>
      obtain ⟨-, -, hid, hcontent⟩ := h
      obtain ⟨kindTree, hkind⟩ := covers_graphKind (.both mode kind)
      obtain ⟨⟨body, hbody⟩, -⟩ := covers_braced hcontent
      match content, id, hid with
      | .both opening (.both content closing), .absent, _ =>
          refine ⟨.node .namelessGraph (.cons kindTree (.cons body .nil)), ?_⟩
          rw [Tree.derivation, Forest.derivations, Forest.derivations, hkind, hbody]
          rfl
      | .both opening (.both content closing), .present (.one _ _), hid =>
          obtain ⟨id, hid⟩ := hid
          refine ⟨.node .namedGraph (.cons kindTree (.cons id (.cons body .nil))), ?_⟩
          rw [Tree.derivation, Forest.derivations, Forest.derivations, Forest.derivations,
            hkind, hbody, hid]
          rfl

theorem covers_attrStmt
    {inner : Derivation Nonterminal.attrStmt.pattern} (h : inner.Covered) :
    Nonterminal.attrStmt.Covers inner := by
  match inner, h with
  | .both (.left (.word _ keyword)) (.one _ _), h =>
      obtain ⟨attributes, rfl⟩ := h.2
      exact ⟨.node .nodeDefaults (.cons (.leaf .node keyword) (.cons attributes .nil)), rfl⟩
  | .both (.right (.word _ keyword)) (.one _ _), h =>
      obtain ⟨attributes, rfl⟩ := h.2
      exact ⟨.node .edgeDefaults (.cons (.leaf .edge keyword) (.cons attributes .nil)), rfl⟩

theorem covers_edgeStmt
    {inner : Derivation Nonterminal.edgeStmt.pattern} (h : inner.Covered) :
    Nonterminal.edgeStmt.Covers inner := by
  match inner, h with
  | .both first (.both links attributes), h =>
      obtain ⟨hfirst, hlinks, hattributes⟩ := h
      have hcovers : Phrase.Covers .chain (.both first links) := covers_chain ⟨hfirst, hlinks⟩
      obtain ⟨chain, hchain⟩ := hcovers
      match attributes, hattributes with
      | .absent, _ =>
          refine ⟨.node .plainChain (.cons chain .nil), ?_⟩
          rw [Tree.derivation, Forest.derivations, hchain]
          rfl
      | .present (.one _ _), hattributes =>
          obtain ⟨attributes, rfl⟩ := hattributes
          refine ⟨.node .chainWithAttributes (.cons chain (.cons attributes .nil)), ?_⟩
          rw [Tree.derivation, Forest.derivations, hchain]
          rfl

theorem covers_subgraph
    {inner : Derivation Nonterminal.subgraph.pattern} (h : inner.Covered) :
    Nonterminal.subgraph.Covers inner := by
  match inner, h with
  | .left (.both (.word _ keyword) (.both .absent content)), h =>
      obtain ⟨-, block, rfl⟩ := covers_braced h.2.2
      exact ⟨.node .namelessSubgraph (.cons (.leaf .subgraph keyword) (.cons block .nil)), rfl⟩
  | .left (.both (.word _ keyword) (.both (.present (.one _ _)) content)), h =>
      obtain ⟨-, block, rfl⟩ := covers_braced h.2.2
      obtain ⟨id, hid⟩ := h.2.1
      rw [← hid]
      exact ⟨.node .namedSubgraph
        (.cons (.leaf .subgraph keyword) (.cons id (.cons block .nil))), rfl⟩
  | .right content, h =>
      obtain ⟨-, block, rfl⟩ := covers_braced h
      exact ⟨.node .bareSubgraph (.cons block .nil), rfl⟩

theorem covers_nodeStmt
    {inner : Derivation Nonterminal.nodeStmt.pattern} (h : inner.Covered) :
    Nonterminal.nodeStmt.Covers inner := by
  match inner, h with
  | .both (.one _ _) .absent, h =>
      obtain ⟨refs, rfl⟩ := h.1
      exact ⟨.node .plainNodes (.cons refs .nil), rfl⟩
  | .both (.one _ _) (.present (.one _ _)), h =>
      obtain ⟨⟨refs, rfl⟩, attributes, rfl⟩ := h
      exact ⟨.node .nodesWithAttributes (.cons refs (.cons attributes .nil)), rfl⟩

theorem covers_nodeId
    {inner : Derivation Nonterminal.nodeId.pattern} (h : inner.Covered) :
    Nonterminal.nodeId.Covers inner := by
  match inner, h with
  | .both (.one _ _) .absent, h =>
      obtain ⟨id, hid⟩ := h.1
      rw [← hid]
      exact ⟨.node .wholeNode (.cons id .nil), rfl⟩
  | .both (.one _ _) (.present (.both (.word _ colon) (.both (.one _ _) .absent))), h =>
      obtain ⟨⟨id, hid⟩, -, ⟨name, hname⟩, -⟩ := h
      rw [← hid, ← hname]
      exact ⟨.node .nodePort (.cons id (.cons (.leaf .colon colon) (.cons name .nil))), rfl⟩
  | .both (.one _ _) (.present (.both (.word _ colon) (.both (.one _ _)
      (.present (.both (.word _ second) (.one _ _)))))), h =>
      obtain ⟨⟨id, hid⟩, -, ⟨name, hname⟩, -, point, hpoint⟩ := h
      rw [← hid, ← hname, ← hpoint]
      exact ⟨.node .nodePortPoint (.cons id (.cons (.leaf .colon colon)
        (.cons name (.cons (.leaf .colon second) (.cons point .nil))))), rfl⟩

theorem covers_rule
    {inner : Derivation Nonterminal.rule.pattern} (h : inner.Covered) :
    Nonterminal.rule.Covers inner := by
  match inner, h with
  | .both first (.both later (.both (.word _ opening) (.both inner (.word _ closing)))), h =>
      obtain ⟨hfirst, hlater, -, hinner, -⟩ := h
      have hcovers : Phrase.Covers .selectors (.both first later) :=
        covers_selectors ⟨hfirst, hlater⟩
      obtain ⟨selectors, hselectors⟩ := hcovers
      rcases covers_declarations hinner with rfl | ⟨declarations, rfl⟩
      · refine ⟨.node .emptyRule (.cons selectors
          (.cons (.leaf .leftBrace opening) (.cons (.leaf .rightBrace closing) .nil))), ?_⟩
        rw [Tree.derivation, Forest.derivations, hselectors]
        rfl
      · refine ⟨.node .fullRule (.cons selectors (.cons (.leaf .leftBrace opening)
          (.cons declarations (.cons (.leaf .rightBrace closing) .nil)))), ?_⟩
        rw [Tree.derivation, Forest.derivations, hselectors]
        rfl

theorem covers_selector
    {inner : Derivation Nonterminal.selector.pattern} (h : inner.Covered) :
    Nonterminal.selector.Covers inner := by
  match inner, h with
  | .left (.both keyword .stop), _ =>
      obtain ⟨entity, rfl⟩ := covers_entity keyword
      exact ⟨.node .entitySelector (.cons entity .nil), rfl⟩
  | .left (.both keyword (.more first later)), h =>
      obtain ⟨entity, rfl⟩ := covers_entity keyword
      have hcovers : Phrase.Covers .classes (.both first later) := covers_classes h.2
      obtain ⟨classes, hclasses⟩ := hcovers
      refine ⟨.node .entityClassSelector (.cons entity (.cons classes .nil)), ?_⟩
      rw [Tree.derivation, Forest.derivations, Forest.derivations, hclasses]
      rfl
  | .right inner, h =>
      obtain ⟨classes, rfl⟩ := covers_classes h
      exact ⟨.node .classSelector (.cons classes .nil), rfl⟩

theorem covers_declaration
    {inner : Derivation Nonterminal.declaration.pattern} (h : inner.Covered) :
    Nonterminal.declaration.Covers inner := by
  match inner, h with
  | .both (.one _ _) (.both (.word _ colon) (.both (.one _ _) closed)), h =>
      obtain ⟨⟨key, hkey⟩, -, ⟨value, hvalue⟩, -⟩ := h
      rw [← hkey, ← hvalue]
      match closed with
      | .absent =>
          exact ⟨.node .openDeclaration
            (.cons key (.cons (.leaf .colon colon) (.cons value .nil))), rfl⟩
      | .present (.word _ semicolon) =>
          exact ⟨.node .closedDeclaration (.cons key (.cons (.leaf .colon colon)
            (.cons value (.cons (.leaf .semicolon semicolon) .nil)))), rfl⟩

theorem covers_atom
    {inner : Derivation Nonterminal.atom.pattern} (h : inner.Covered) :
    Nonterminal.atom.Covers inner := by
  match inner, h with
  | .left (.word _ text), _ =>
      exact ⟨.node .identifierAtom (.cons (.leaf .identifier text) .nil), rfl⟩
  | .right (.left (.word _ text)), _ =>
      exact ⟨.node .numberAtom (.cons (.leaf .number text) .nil), rfl⟩
  | .right (.right (.left (.one _ _))), h =>
      obtain ⟨quoted, rfl⟩ := h
      exact ⟨.node .quotedAtom (.cons quoted .nil), rfl⟩
  | .right (.right (.right (.word _ nodes))), _ =>
      exact ⟨.node .markupAtom (.cons (.leaf .markup nodes) .nil), rfl⟩

/-- What a nonterminal is filled in with comes from a tree if all nonterminals in it do. -/
theorem Nonterminal.covers_of_covered
    (nonterminal : Nonterminal) {inner : Derivation nonterminal.pattern} (h : inner.Covered) :
    nonterminal.Covers inner := by
  cases nonterminal with
  | atom =>
      exact covers_atom h
  | quoted =>
      exact covers_quoted h
  | attrList =>
      exact covers_attributes h
  | attr =>
      match inner, h with
      | .both (.one _ _) (.both (.word _ sign) (.one _ _)), h =>
          obtain ⟨⟨key, hkey⟩, -, value, hvalue⟩ := h
          rw [← hkey, ← hvalue]
          exact ⟨.node .keyValuePair
            (.cons key (.cons (.leaf .equals sign) (.cons value .nil))), rfl⟩
  | graph =>
      exact covers_graph h
  | body =>
      exact covers_statements h
  | statement =>
      match inner, h with
      | .left (.one _ _), h | .right (.left (.one _ _)), h
      | .right (.right (.left (.one _ _))), h
      | .right (.right (.right (.left (.one _ _)))), h
      | .right (.right (.right (.right (.right (.one _ _))))), h =>
          exact h
      | .right (.right (.right (.right (.left (.one _ _))))), h =>
          obtain ⟨subgraph, hsubgraph⟩ := h
          rw [← hsubgraph]
          exact ⟨.node .subgraphStatement (.cons subgraph .nil), rfl⟩
  | graphAttrAssign =>
      match inner, h with
      | .both (.one _ _) (.both (.word _ sign) (.one _ _)), h =>
          obtain ⟨⟨key, hkey⟩, -, value, hvalue⟩ := h
          rw [← hkey, ← hvalue]
          exact ⟨.node .assignment
            (.cons key (.cons (.leaf .equals sign) (.cons value .nil))), rfl⟩
  | graphAttrBlock =>
      match inner, h with
      | .both (.word _ keyword) (.one _ _), h =>
          obtain ⟨attributes, rfl⟩ := h.2
          exact ⟨.node .graphAttributes
            (.cons (.leaf .graph keyword) (.cons attributes .nil)), rfl⟩
  | attrStmt =>
      exact covers_attrStmt h
  | edgeStmt =>
      exact covers_edgeStmt h
  | endpoint =>
      match inner, h with
      | .left (.one _ _), h =>
          obtain ⟨subgraph, hsubgraph⟩ := h
          rw [← hsubgraph]
          exact ⟨.node .subgraphEndpoint (.cons subgraph .nil), rfl⟩
      | .right (.one _ _), h =>
          obtain ⟨refs, rfl⟩ := h
          exact ⟨.node .nodesEndpoint (.cons refs .nil), rfl⟩
  | subgraph =>
      exact covers_subgraph h
  | nodeStmt =>
      exact covers_nodeStmt h
  | nodeIds =>
      exact covers_nodeRefs h
  | nodeId =>
      exact covers_nodeId h
  | stylesheet =>
      exact covers_rules h
  | rule =>
      exact covers_rule h
  | selector =>
      exact covers_selector h
  | declaration =>
      exact covers_declaration h

/-- Every derivation is covered by trees. -/
theorem Derivation.covered
    {pattern : Pattern} (derivation : Derivation pattern) :
    derivation.Covered := by
  induction derivation with
  | word terminal lexeme =>
      trivial
  | one nonterminal inner ih =>
      exact nonterminal.covers_of_covered ih
  | both first second ihfirst ihsecond =>
      exact ⟨ihfirst, ihsecond⟩
  | left inner ih | right inner ih | present inner ih =>
      exact ih
  | absent | stop =>
      trivial
  | more first later ihfirst ihlater =>
      exact ⟨ihfirst, ihlater⟩

/-- Every derivation of a graph comes from a tree. -/
theorem exists_graph_tree
    (derivation : Derivation (.one .graph)) :
    ∃ tree : Tree (.phrase .graph), tree.derivation = derivation := by
  cases derivation with
  | one _ inner =>
      exact Nonterminal.graph.covers_of_covered inner.covered

/-- A derivation of a stylesheet is that of the empty one or comes from a tree. -/
theorem exists_rules_tree
    (derivation : Derivation (.one .stylesheet)) :
    derivation = .one .stylesheet .stop ∨
      ∃ tree : Tree (.phrase .rules), .one .stylesheet tree.derivation = derivation := by
  cases derivation with
  | one _ inner =>
      rcases Nonterminal.stylesheet.covers_of_covered inner.covered with rfl | ⟨tree, rfl⟩
      · exact Or.inl rfl
      · exact Or.inr ⟨tree, rfl⟩

end Nonterminals

end Grammar
end DotCascade
