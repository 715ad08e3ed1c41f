import DotCascade.Edit
import DotCascade.Proofs.Atom.Legible
import DotCascade.Proofs.Graph.RoundTrip
import DotCascade.Proofs.Reading.Results
import DotCascade.Proofs.Stylesheet.Atoms

/-!
# Graphs that are built up print faithfully

Whatever edits build up a graph from the empty one, all its atoms are faithful,
provided that no source holds an angle bracket in a tag attribute and that what
is supplied without a source is faithful itself (`allFaithful_of_edits`).  So the
graph is read back as it was written.

Reading a source yields faithful atoms because its words tell such atoms and
meanings add none.  The cascade and the other edits only put together what is
there already.
-/

namespace DotCascade

open Grammar Reading

section Sources

/-- No tag attribute in a source that can be read as a phrase holds an angle bracket. -/
def HasPlainTags (goal : Phrase) (source : String) : Prop :=
  ∀ tree, read goal source.toList = .ok tree →
    ∀ word ∈ tree.yield, ∀ atom ∈ word.terminal.atoms word.lexeme, atom.hasPlainTags = true

instance decidableHasPlainTags
    (goal : Phrase) (source : String) :
    Decidable (HasPlainTags goal source) :=
  match h : read goal source.toList with
  | .error _ => isTrue fun tree htree => by
      rw [h] at htree
      cases htree
  | .ok tree =>
      decidable_of_iff
        (∀ word ∈ tree.yield, ∀ atom ∈ word.terminal.atoms word.lexeme,
          atom.hasPlainTags = true) <| by
        constructor
        · intro hwords other hother
          rw [h] at hother
          obtain rfl := Except.ok.inj hother
          exact hwords
        · intro hplain
          exact hplain tree h

theorem allFaithful_of_parse
    {source : String} {graph : Graph} (hplain : HasPlainTags .graph source)
    (h : Graph.parse source = .ok graph) :
    AllFaithful graph.atoms :=
  allFaithful_of_isSound
    (allAtoms_of_parse joins_isSound (tellsAtoms_isSound .graph source.toList) h)
    (allAtoms_of_parse joins_hasPlainTags hplain h)

theorem allFaithful_of_parseStylesheet
    {source : String} {stylesheet : Stylesheet} (hplain : HasPlainTags .rules source)
    (h : Stylesheet.parse source = .ok stylesheet) :
    AllFaithful (ruleAtoms stylesheet.rules) :=
  allFaithful_of_isSound
    (allAtoms_of_parseStylesheet joins_isSound (tellsAtoms_isSound .rules source.toList) h)
    (allAtoms_of_parseStylesheet joins_hasPlainTags hplain h)

end Sources

section Edits

/-- Sources without angle brackets in tag attributes, and values that are faithful. -/
def Edit.IsPlain : Edit → Prop
  | replace source => HasPlainTags .graph source
  | style source => HasPlainTags .rules source
  | addStatement statement => AllFaithful statement.atoms
  | setAttributes attributes => AllFaithful attributes.atoms
  | merge source => HasPlainTags .graph source
  | wrap id => AllFaithful id.toList

instance decidableAllFaithful
    (atoms : List Atom) :
    Decidable (AllFaithful atoms) :=
  inferInstanceAs (Decidable (∀ atom ∈ atoms, atom.isFaithful = true))

instance Edit.decidableIsPlain :
    (edit : Edit) → Decidable edit.IsPlain
  | replace source => decidableHasPlainTags .graph source
  | style source => decidableHasPlainTags .rules source
  | addStatement statement => decidableAllFaithful statement.atoms
  | setAttributes attributes => decidableAllFaithful attributes.atoms
  | merge source => decidableHasPlainTags .graph source
  | wrap id => decidableAllFaithful id.toList

/-- One edit keeps the atoms of a graph faithful. -/
theorem allFaithful_apply
    {graph edited : Graph} {edit : Edit} (hedit : edit.IsPlain)
    (hgraph : AllFaithful graph.atoms) (h : edit.apply graph = .ok edited) :
    AllFaithful edited.atoms := by
  have hparts := hgraph
  rw [Graph.atoms, allFaithful_append] at hparts
  cases edit with
  | replace source =>
      exact allFaithful_of_parse hedit h
  | style source =>
      obtain ⟨stylesheet, hparse, rfl⟩ := map_eq_ok_iff.1 h
      exact allAtoms_cascaded (allFaithful_of_parseStylesheet hedit hparse) hgraph
  | addStatement statement =>
      obtain rfl := Except.ok.inj h
      rw [Graph.atoms, allFaithful_append]
      refine ⟨hparts.1, ?_⟩
      rw [Content.atoms, allFaithful_append] at hparts ⊢
      refine ⟨hparts.2.1, ?_⟩
      rw [Content.withStatement, atomsList_append, allFaithful_append]
      exact ⟨hparts.2.2, allFaithful_append.2 ⟨hedit, allAtoms_nil⟩⟩
  | setAttributes attributes =>
      obtain rfl := Except.ok.inj h
      rw [Graph.atoms, allFaithful_append]
      refine ⟨hparts.1, ?_⟩
      rw [Content.atoms, allFaithful_append] at hparts ⊢
      exact ⟨allAtoms_overlay hparts.2.1 hedit, hparts.2.2⟩
  | merge source =>
      obtain ⟨other, hparse, rfl⟩ := map_eq_ok_iff.1 h
      have hother := allFaithful_of_parse hedit hparse
      rw [Graph.atoms, allFaithful_append] at hother ⊢
      exact ⟨hparts.1, allAtoms_merge hparts.2 hother.2⟩
  | wrap id =>
      obtain rfl := Except.ok.inj h
      rw [Graph.atoms, allFaithful_append]
      exact ⟨hparts.1, allAtoms_ofStatements
        (List.forall_mem_singleton.2 (allAtoms_toSubgraph hedit hparts.2))⟩

/-- A run of edits keeps the atoms of a graph faithful. -/
theorem allFaithful_of_edits
    {graph edited : Graph} {edits : List Edit} (hedits : ∀ edit ∈ edits, edit.IsPlain)
    (hgraph : AllFaithful graph.atoms) (h : edits.foldlM Edit.apply graph = .ok edited) :
    AllFaithful edited.atoms := by
  induction edits generalizing graph with
  | nil =>
      obtain rfl := Except.ok.inj h
      exact hgraph
  | cons edit rest ih =>
      rw [List.forall_mem_cons] at hedits
      rw [List.foldlM_cons] at h
      cases hstep : edit.apply graph with
      | error failure =>
          rw [hstep] at h
          cases h
      | ok next =>
          rw [hstep] at h
          exact ih hedits.2 (allFaithful_apply hedits.1 hgraph hstep) h

/-- A graph that edits build up from the empty graph is read as it was written, with the keys of
every attribute map in their order. -/
theorem parse_toText_of_edits
    (edits : List Edit) (hedits : ∀ edit ∈ edits, edit.IsPlain)
    (graph : Graph) (h : edits.foldlM Edit.apply Graph.empty = .ok graph) (indent : Int) :
    Graph.parse (graph.toText indent) = .ok graph := by
  have hempty : AllFaithful Graph.empty.atoms := allAtoms_nil
  exact parse_toText_of_faithful indent (allFaithful_of_edits hedits hempty h)

/-- A graph that is read, styled, put into a subgraph and extended, written with a wide indent. -/
theorem parse_toText_of_fourEdits :
    let edits : List Edit :=
      [.replace "graph G \x7b a [class=x]; b -- c:p [label=<i <b t='\"'>y</b>>] \x7d",
        .style "node.x \x7b color: \"re\\\nd\" \x7d edge \x7b k: 1 \x7d",
        .wrap (some (.text "s")),
        .addStatement (.node (.text "d") Attributes.empty)]
    ∃ graph, edits.foldlM Edit.apply Graph.empty = .ok graph ∧
      Graph.parse (graph.toText 4) = .ok graph := by
  intro edits
  have hplain : ∀ edit ∈ edits, edit.IsPlain := by decide +kernel
  have hsome : (edits.foldlM Edit.apply Graph.empty).toOption.isSome = true := by decide +kernel
  obtain ⟨graph, hgraph⟩ := Option.isSome_iff_exists.1 hsome
  have h := eq_ok_of_toOption hgraph
  exact ⟨graph, h, parse_toText_of_edits edits hplain graph h 4⟩

end Edits

end DotCascade
