import DotCascade.Proofs.Atom.Legible
import DotCascade.Proofs.Graph.RoundTrip
import DotCascade.Proofs.Reading.Results
import Mathlib.Tactic.TFAE

/-!
# Which texts can be read

Not every text is the value of some atom: decoding leaves no backslash in front of
a double quote, a line feed or the end of a string.  The texts that some source
tells are exactly those whose pairs are safe, and exactly those that come back
from their written form (`escapeSafe_tfae`).

For one direction the words of a source tell safe texts and joining them keeps
them safe.  For the other a graph with the text as its name is written and read.
-/

namespace DotCascade

open Grammar Reading

section Sources

/-- The texts of sound atoms are safe. -/
theorem escapeSafe_of_isSound
    {atoms : List Atom} (h : AllAtoms Atom.IsSound atoms) {value : String}
    (hvalue : .text value ∈ atoms) :
    escapeSafe value.toList = true :=
  h _ hvalue rfl

/-- Whatever an atom in a source says, its text is safe. -/
theorem isSound_told
    {goal : Phrase} {source : List Char} {tree : Tree (.phrase goal)}
    (h : read goal source = .ok tree) :
    AllAtoms Atom.IsSound tree.told :=
  allAtoms_told joins_isSound tree (tellsAtoms_isSound goal source tree h)

/-- The name of a graph stands in its source. -/
theorem mem_told_of_id
    (tree : Tree (.phrase .graph)) {graph : Graph} (hmeaning : tree.meaning = graph)
    {id : Atom} (hid : graph.id = some id) :
    id ∈ tree.told := by
  subst hmeaning
  cases tree with
  | node production children =>
      cases production with
      | namelessGraph =>
          match children with
          | .cons kind (.cons body .nil) =>
              rw [meaning_two] at hid
              cases hid
      | namedGraph =>
          match children with
          | .cons kind (.cons (.node production parts) (.cons body .nil)) =>
              rw [meaning_three] at hid
              obtain rfl := Option.some.inj hid
              rw [Tree.told, Forest.told, Forest.told, Tree.told]
              exact List.mem_append_right _ (List.mem_append_right _ List.mem_cons_self)

end Sources

/-- The texts that are told by a source, that come back from their written form and whose pairs are
safe are the same. -/
theorem escapeSafe_tfae
    (value : String) :
    List.TFAE [
      escapeSafe value.toList = true,
      ∃ source graph, Graph.parse source = .ok graph ∧ .text value ∈ graph.atoms,
      ∃ (source : String) (tree : Tree (.phrase .graph)),
        read .graph source.toList = .ok tree ∧ .text value ∈ tree.told,
      ∀ rest,
        piece? .string ((Atom.text value).written ++ rest) = some (Atom.text value).written ∧
          lexeme .string (Atom.text value).written = .ok value] := by
  let graph : Graph := ⟨some (.text value), false, false, Content.empty⟩
  have hgraph (h : escapeSafe value.toList = true) : Graph.parse (graph.toText 2) = .ok graph :=
    parse_toText_of_faithful 2 (allFaithful_cons.2 ⟨h, allAtoms_nil⟩)
  tfae_have 1 → 2 := fun h => ⟨_, graph, hgraph h, List.mem_cons_self⟩
  tfae_have 2 → 1 := by
    rintro ⟨source, graph', hparse, hmem⟩
    have hsound := allAtoms_of_parse joins_isSound (tellsAtoms_isSound .graph source.toList) hparse
    exact escapeSafe_of_isSound hsound hmem
  tfae_have 1 → 3 := by
    intro h
    obtain ⟨tree, hread, hmeaning⟩ := Graph.parse_eq_ok_iff.1 (hgraph h)
    exact ⟨_, tree, hread, mem_told_of_id tree hmeaning rfl⟩
  tfae_have 3 → 1 := fun ⟨_, _, hread, hmem⟩ => escapeSafe_of_isSound (isSound_told hread) hmem
  tfae_have 1 → 4 := by
    intro h rest
    have hfaithful : (Atom.text value).isFaithful = true := h
    have hstands := Atom.stands_written hfaithful rest
    exact ⟨hstands.found, hstands.tells⟩
  tfae_have 4 → 1 := by
    intro h
    obtain ⟨hpiece, htells⟩ := h []
    have hlegible : Legible ⟨.string, value⟩ := ⟨_, _, hpiece, htells⟩
    exact escapeSafe_of_isSound (isSound_of_legible hlegible) List.mem_cons_self
  tfae_finish

end DotCascade
