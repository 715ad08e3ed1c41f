import DotCascade.Graph.Written
import DotCascade.Proofs.Atom.Legible
import DotCascade.Proofs.Markup.Rendition
import DotCascade.Proofs.Reading.Cut
import DotCascade.Stylesheet.Written

/-!
# Written forms without carriage returns

Files are read with a single line feed at the end of every line, so a text is
read from a file as it was written only if it holds no carriage return.  Nothing
in a written form but the characters of atoms and class names could be one.  These
all come from a source that holds none (`tellsAtoms_isReturnFree`).
-/

namespace DotCascade

open Grammar Reading

section Sources

/-- Every word of a tree that is read tells what a part of the source tells. -/
theorem exists_piece_of_read
    {goal : Phrase} {source : List Char} {tree : Tree (.phrase goal)}
    (h : read goal source = .ok tree) {word : Word} (hword : word ∈ tree.yield) :
    ∃ piece, piece ⊆ source ∧ Spelling word.terminal piece ∧
      lexeme word.terminal piece = .ok word.lexeme := by
  obtain ⟨place, next, piece, text, hplace, hstep, htells⟩ := exists_taken_of_read h hword
  obtain ⟨-, hpiece, -⟩ := taken_of_step hstep
  obtain ⟨front, hsource, -⟩ := hplace.exists_piece hstep
  have hsource : source = front ++ piece ++ next.text := hsource
  refine ⟨piece, fun c hc => ?_, spelling_of_piece? hpiece, htells⟩
  rw [hsource]
  simp [hc]

/-- Decoding adds no characters. -/
theorem decodeString_subset
    (body : List Char) :
    decodeString body ⊆ body := by
  fun_induction decodeString body with
  | case1 rest ih =>
      exact List.subset_cons_of_subset _ (List.cons_subset_cons _ ih)
  | case2 rest ih =>
      exact List.subset_cons_of_subset _ (List.subset_cons_of_subset _ ih)
  | case3 c rest _ _ ih =>
      exact List.cons_subset_cons _ (List.cons_subset_cons _ ih)
  | case4 c rest _ _ _ ih =>
      exact List.cons_subset_cons _ ih
  | case5 =>
      exact List.Subset.refl _

end Sources

namespace Markup

theorem notMem_writtenRun
    {run : String} (h : '\r' ∉ run.toList) :
    '\r' ∉ writtenRun run := by
  intro hmem
  obtain ⟨c, hc, hwritten⟩ := List.mem_flatMap.1 hmem
  unfold writtenChar at hwritten
  split at hwritten
  case isTrue =>
    simp at hwritten
  case isFalse =>
    split at hwritten
    case isTrue =>
      simp at hwritten
    case isFalse =>
      rw [List.mem_singleton.1 hwritten] at h
      exact h hc

theorem notMem_writtenValue
    {value : String} (h : '\r' ∉ value.toList) :
    '\r' ∉ writtenValue value := by
  unfold writtenValue
  split <;> simpa using h

/-- Tag attributes are written without carriage returns if they stand somewhere without. -/
theorem RendersAttributes.notMem_written
    {attributes : List TagAttribute} {tags : List Char} (h : RendersAttributes attributes tags)
    (htags : '\r' ∉ tags) :
    '\r' ∉ writtenAttributes attributes := by
  induction h with
  | nil =>
      exact List.not_mem_nil
  | @cons tag later _ _ htag _ ih =>
      cases htag with
      | @mk name value _ _ _ _ _ _ _ _ hvalue =>
          rw [List.mem_append, not_or] at htags
          obtain ⟨htag, hlater⟩ := htags
          have hname : '\r' ∉ name.toList := by
            simp_all
          have hinner : '\r' ∉ value.toList := by
            cases hvalue <;> simp_all
          have hwritten :
              writtenAttributes ((name, value) :: later) =
                ' ' :: (name.toList ++ '=' :: writtenValue value) ++ writtenAttributes later := rfl
          rw [hwritten]
          simp [hname, notMem_writtenValue hinner, ih hlater]

/-- The inside of a tag is written without carriage returns if it stands somewhere without. -/
theorem RendersTag.notMem_written
    {name : Name} {attributes : List TagAttribute} {tag : List Char}
    (h : RendersTag name attributes tag) (htag : '\r' ∉ tag) :
    '\r' ∉ name.text.toList ∧ '\r' ∉ writtenAttributes attributes := by
  obtain ⟨-, htags, -, -⟩ := h
  simp only [List.mem_append, not_or] at htag
  exact ⟨htag.1, htags.notMem_written htag.2.1⟩

/-- Nodes are written without carriage returns if they stand somewhere without. -/
theorem Renditions.notMem_written
    {nodes : List Node} {body : List Char} (h : Renditions nodes body) (hbody : '\r' ∉ body) :
    '\r' ∉ written nodes := by
  induction h with
  | nil =>
      rw [written]
      exact List.not_mem_nil
  | run _ _ ih =>
      rw [List.mem_append, not_or] at hbody
      rw [written, Node.written, List.mem_append, not_or]
      exact ⟨notMem_writtenRun hbody.1, ih hbody.2⟩
  | single htag _ ih =>
      simp only [List.mem_cons, List.mem_append, not_or] at hbody
      obtain ⟨hname, hattributes⟩ := htag.notMem_written hbody.2.1
      simp [written, Node.written, hname, hattributes, ih hbody.2.2.2.2]
  | @paired name attributes children later _ _ _ _ htag _ _ _ _ ihchildren ih =>
      simp only [List.mem_cons, List.mem_append, not_or] at hbody
      obtain ⟨hname, hattributes⟩ := htag.notMem_written hbody.2.1
      have hchildren := ihchildren hbody.2.2.2.1
      have hlater := ih hbody.2.2.2.2.2.2.2.2.2
      cases children with
      | nil =>
          simp [written, Node.written, hname, hattributes, hlater]
      | cons child children =>
          rw [written, List.mem_append, not_or] at hchildren
          simp [written, Node.written, hname, hattributes, hchildren, hlater]

end Markup

section Atoms

/-- The written form of an atom holds no carriage return. -/
def Atom.IsReturnFree (atom : Atom) : Prop :=
  '\r' ∉ atom.written

theorem isReturnFree_text
    {value : String} :
    (Atom.text value).IsReturnFree ↔ '\r' ∉ value.toList := by
  have hchar (c : Char) : '\r' ∈ writtenTextChar c ↔ c = '\r' := by
    unfold writtenTextChar
    split
    case isTrue hquote =>
      simp [hquote]
    case isFalse =>
      simp [eq_comm]
  simp [Atom.IsReturnFree, Atom.written, List.mem_flatMap, hchar]

theorem joins_isReturnFree :
    Joins Atom.IsReturnFree := by
  intro text later htext hlater
  rw [isReturnFree_text] at htext hlater ⊢
  rw [String.toList_append, List.mem_append, not_or]
  exact ⟨htext, hlater⟩

theorem isReturnFree_singleton
    {text : List Char} (h : '\r' ∉ text) :
    AllAtoms Atom.IsReturnFree [.text (String.ofList text)] :=
  List.forall_mem_singleton.2 (isReturnFree_text.2 (by rwa [String.toList_ofList]))

/-- What a word tells is written without carriage returns if the word holds none. -/
theorem isReturnFree_of_lexeme
    {word : Word} {piece : List Char} (hspelling : Spelling word.terminal piece)
    (htells : lexeme word.terminal piece = .ok word.lexeme) (hpiece : '\r' ∉ piece) :
    AllAtoms Atom.IsReturnFree (word.terminal.atoms word.lexeme) := by
  obtain ⟨terminal, lexeme⟩ := word
  cases terminal with
  | identifier | number =>
      obtain rfl := Except.ok.inj htells
      exact isReturnFree_singleton hpiece
  | string =>
      obtain rfl := Except.ok.inj htells
      obtain ⟨body, rfl, -⟩ := hspelling
      have hbody : '\r' ∉ body := by
        simp_all
      refine isReturnFree_singleton fun hmem => hbody ?_
      simpa using decodeString_subset _ hmem
  | markup =>
      obtain ⟨body, rfl, -⟩ := hspelling
      have hfront : Markup.Before [] [] [] := .outermost .nil
      obtain ⟨inner, rest, hinner, htext⟩ := Markup.renditions_of_readNodes hfront htells
      have htext : body ++ ['>'] = inner ++ '>' :: rest := htext
      have hreturn : '\r' ∉ inner := by
        intro hmem
        have hbody : '\r' ∈ body ++ ['>'] := htext ▸ List.mem_append_left _ hmem
        exact hpiece (List.mem_cons_of_mem _ hbody)
      refine List.forall_mem_singleton.2 ?_
      simp [Atom.IsReturnFree, Atom.written, hinner.notMem_written hreturn]
  | _ =>
      exact allAtoms_nil

/-- A source without carriage returns tells atoms that are written without. -/
theorem tellsAtoms_isReturnFree
    {source : List Char} (h : '\r' ∉ source) (goal : Phrase) :
    TellsAtoms Atom.IsReturnFree goal source := by
  intro tree hread word hword
  obtain ⟨piece, hpiece, hspelling, htells⟩ := exists_piece_of_read hread hword
  exact isReturnFree_of_lexeme hspelling htells fun hmem => h (hpiece hmem)

end Atoms

section Graphs

theorem notMem_intercalate
    {separator : List Char} {pieces : List (List Char)} (hseparator : '\r' ∉ separator)
    (h : ∀ piece ∈ pieces, '\r' ∉ piece) :
    '\r' ∉ List.intercalate separator pieces := by
  induction pieces with
  | nil =>
      exact List.not_mem_nil
  | cons piece rest ih =>
      rw [List.forall_mem_cons] at h
      cases rest with
      | nil =>
          rw [List.intercalate_singleton]
          exact h.1
      | cons next rest =>
          rw [List.intercalate_cons_cons, List.mem_append, List.mem_append, not_or, not_or]
          exact ⟨⟨h.1, hseparator⟩, ih h.2⟩

theorem notMem_writtenAttributes
    {attributes : Attributes} (h : AllAtoms Atom.IsReturnFree attributes.atoms) :
    '\r' ∉ attributes.written := by
  unfold Attributes.written
  simp only [List.cons_append, List.mem_cons, List.mem_append, List.not_mem_nil, not_or]
  refine ⟨by decide, notMem_intercalate (by decide) ?_, by decide, not_false⟩
  rw [List.forall_mem_map]
  intro pair hpair
  have hatoms := allAtoms_flatMap.1 h pair hpair
  have hkey : '\r' ∉ pair.1.written := hatoms _ List.mem_cons_self
  have hvalue : '\r' ∉ pair.2.written := hatoms _ (List.mem_cons_of_mem _ List.mem_cons_self)
  simp [hkey, hvalue]

theorem notMem_writtenBehind
    {attributes : Attributes} (h : AllAtoms Atom.IsReturnFree attributes.atoms) :
    '\r' ∉ attributes.writtenBehind := by
  unfold Attributes.writtenBehind
  split <;> simp [notMem_writtenAttributes h]

theorem notMem_padding
    (indent : Int) (depth : Nat) :
    '\r' ∉ padding indent depth := by
  simp [padding]

theorem notMem_writtenOwnAttributes
    {attributes : Attributes} (indent : Int) (depth : Nat)
    (h : AllAtoms Atom.IsReturnFree attributes.atoms) :
    '\r' ∉ writtenOwnAttributes indent depth attributes := by
  unfold writtenOwnAttributes
  split <;> simp [notMem_padding, notMem_writtenAttributes h]

theorem notMem_writtenName
    {id : Option Atom} (h : AllAtoms Atom.IsReturnFree id.toList) :
    '\r' ∉ writtenName id := by
  cases id with
  | none =>
      exact List.not_mem_nil
  | some id =>
      have hid : '\r' ∉ id.written := h id List.mem_cons_self
      simp [writtenName, hid]

theorem notMem_writtenRef
    {ref : NodeRef} (h : AllAtoms Atom.IsReturnFree ref.atoms) :
    '\r' ∉ ref.written := by
  obtain ⟨id, port⟩ := ref
  have hid : '\r' ∉ id.written := h id List.mem_cons_self
  match port with
  | none =>
      exact hid
  | some ⟨name, none⟩ =>
      have hname : '\r' ∉ name.written := h name (by simp [NodeRef.atoms, Port.atoms])
      simp [NodeRef.written, hid, hname]
  | some ⟨name, some point⟩ =>
      have hname : '\r' ∉ name.written := h name (by simp [NodeRef.atoms, Port.atoms])
      have hpoint : '\r' ∉ point.written := h point (by simp [NodeRef.atoms, Port.atoms])
      simp [NodeRef.written, hid, hname, hpoint]

theorem notMem_writtenOperator
    (directed : Bool) :
    '\r' ∉ writtenOperator directed := by
  cases directed <;> decide

mutual

theorem notMem_writtenStatement
    (directed : Bool) (indent : Int) (depth : Nat) (statement : Statement)
    (h : AllAtoms Atom.IsReturnFree statement.atoms) :
    '\r' ∉ statement.written directed indent depth := by
  match statement with
  | .defaults kind attributes =>
      have hkind : '\r' ∉ kind.written := by
        cases kind <;> decide
      have hattributes := notMem_writtenAttributes h
      simp [Statement.written, notMem_padding, hkind, hattributes]
  | .node id attributes =>
      rw [Statement.atoms, allAtoms_cons] at h
      have hid : '\r' ∉ id.written := h.1
      simp [Statement.written, notMem_padding, hid, notMem_writtenBehind h.2]
  | .edge head tail attributes =>
      rw [Statement.atoms, allAtoms_append, allAtoms_append] at h
      simp [Statement.written, notMem_padding, notMem_writtenRef h.1.1, notMem_writtenOperator,
        notMem_writtenRef h.1.2, notMem_writtenBehind h.2]
  | .subgraph id attributes statements =>
      rw [Statement.atoms, allAtoms_append, allAtoms_append] at h
      have hstatements := notMem_writtenStatements directed indent (depth + 1) statements h.2
      simp [Statement.written, notMem_padding, notMem_writtenName h.1.1,
        notMem_writtenOwnAttributes indent (depth + 1) h.1.2, hstatements]

theorem notMem_writtenStatements
    (directed : Bool) (indent : Int) (depth : Nat) (statements : List Statement)
    (h : AllAtoms Atom.IsReturnFree (Statement.atomsList statements)) :
    '\r' ∉ Statement.writtenList directed indent depth statements := by
  match statements with
  | [] =>
      rw [Statement.writtenList]
      exact List.not_mem_nil
  | statement :: rest =>
      rw [Statement.atomsList, allAtoms_append] at h
      rw [Statement.writtenList, List.mem_append, not_or]
      exact ⟨notMem_writtenStatement directed indent depth statement h.1,
        notMem_writtenStatements directed indent depth rest h.2⟩

end

/-- A graph is written without carriage returns if its atoms are. -/
theorem Graph.notMem_toText
    {graph : Graph} (indent : Int) (h : AllAtoms Atom.IsReturnFree graph.atoms) :
    '\r' ∉ (graph.toText indent).toList := by
  have hkind : '\r' ∉ writtenKind graph.strict graph.directed := by
    cases graph.strict <;> cases graph.directed <;> decide
  rw [Graph.atoms, Content.atoms, allAtoms_append, allAtoms_append] at h
  have hstatements :=
    notMem_writtenStatements graph.directed indent 1 graph.content.statements h.2.2
  rw [Graph.toText, String.toList_ofList]
  simp [Graph.written, Content.written, hkind, notMem_writtenName h.1,
    notMem_writtenOwnAttributes indent 1 h.2.1, hstatements]

end Graphs

section Stylesheets

theorem notMem_name
    {name : List Char} (h : IsName name) :
    '\r' ∉ name :=
  fun hmem => absurd (isWordPart_of_mem_name h _ hmem) (by decide)

theorem notMem_writtenRule
    {rule : Rule} (indent : Int)
    (hnames : ∀ name ∈ rule.selector.classes.names, IsName name.toList)
    (hatoms : AllAtoms Atom.IsReturnFree rule.attributes.atoms) :
    '\r' ∉ rule.written indent := by
  have hentity : '\r' ∉ rule.selector.entity.word.toList := by
    cases rule.selector.entity <;> decide
  have hclasses : '\r' ∉ rule.selector.classes.names.flatMap fun name => '.' :: name.toList := by
    intro hmem
    obtain ⟨name, hname, hmem⟩ := List.mem_flatMap.1 hmem
    rcases List.mem_cons.1 hmem with heq | hmem
    · exact absurd heq (by decide)
    · exact notMem_name (hnames name hname) hmem
  have hentries : '\r' ∉ rule.attributes.entries.flatMap (writtenDeclaration indent) := by
    intro hmem
    obtain ⟨pair, hpair, hmem⟩ := List.mem_flatMap.1 hmem
    have hpairs := allAtoms_flatMap.1 hatoms pair hpair
    have hkey : '\r' ∉ pair.1.written := hpairs _ List.mem_cons_self
    have hvalue : '\r' ∉ pair.2.written := hpairs _ (List.mem_cons_of_mem _ List.mem_cons_self)
    simp [writtenDeclaration, notMem_padding, hkey, hvalue] at hmem
  simp [Rule.written, Selector.written, hentity, hclasses, hentries]

/-- A stylesheet is written without carriage returns if its atoms are. -/
theorem Stylesheet.notMem_toText
    {stylesheet : Stylesheet} (indent : Int)
    (hnames : ∀ rule ∈ stylesheet.rules, ∀ name ∈ rule.selector.classes.names, IsName name.toList)
    (hatoms : AllAtoms Atom.IsReturnFree (ruleAtoms stylesheet.rules)) :
    '\r' ∉ (stylesheet.toText indent).toList := by
  rw [Stylesheet.toText, String.toList_ofList]
  intro hmem
  obtain ⟨rule, hrule, hmem⟩ := List.mem_flatMap.1 hmem
  have hrule := List.mem_of_mem_filter hrule
  exact notMem_writtenRule indent (hnames rule hrule) (allAtoms_flatMap.1 hatoms rule hrule) hmem

end Stylesheets

end DotCascade
