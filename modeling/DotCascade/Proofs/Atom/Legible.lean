import DotCascade.Proofs.Grammar.Atoms
import DotCascade.Proofs.Markup.Normal
import DotCascade.Proofs.Reading.Pieces
import DotCascade.Proofs.Reading.Results

/-!
# Atoms that words tell

What a word of a source tells is written faithfully.  A bare word and a number
hold no backslash, decoding removes from a string every pair that would be taken
for something else (`escapeSafe_decodeString`), and markup that was read is
normal and writable.  Only a tag attribute may hold an angle bracket, which
`hasPlainTags` excludes (`isSound_of_legible`).
-/

namespace DotCascade

open Grammar Reading

section Escapes

/-- No pair of a decoded text is taken for something else. -/
theorem escapeSafe_decodeString
    {body : List Char} (h : Quotable body) :
    escapeSafe (decodeString body) = true := by
  induction h with
  | nil =>
      rfl
  | @plain c rest _ hslash _ ih =>
      have hdecoded : decodeString (c :: rest) = c :: decodeString rest := by
        rw [decodeString]
        all_goals simp [hslash]
      rw [hdecoded, escapeSafe_cons hslash]
      exact ih
  | @pair c rest _ ih =>
      by_cases hquote : c = '"'
      · rw [hquote, decodeString, escapeSafe_cons (by decide)]
        exact ih
      · by_cases hfeed : c = '\n'
        · rw [hfeed, decodeString]
          exact ih
        · rw [decodeString]
          · simp [escapeSafe, hquote, hfeed, ih]
          · exact hquote
          · exact hfeed

end Escapes

section Pieces

/-- The characters of bare words and numbers. -/
def isBareChar (c : Char) : Bool :=
  Text.isWordPart c || c = '.' || c = '-'

theorem isBareChar_of_isDigits
    {digits : List Char} (h : IsDigits digits) :
    ∀ c ∈ digits, isBareChar c = true :=
  fun c hc => by simp [isBareChar, Text.isWordPart, h.2 c hc]

theorem isBareChar_of_isUnsigned
    {piece : List Char} (h : IsUnsigned piece) :
    ∀ c ∈ piece, isBareChar c = true := by
  rcases h with hwhole | ⟨fraction, rfl, hfraction⟩ | ⟨whole, fraction, rfl, hwhole, hfraction⟩
  · exact isBareChar_of_isDigits hwhole
  · exact List.forall_mem_cons.2 ⟨by decide, isBareChar_of_isDigits hfraction⟩
  · refine List.forall_mem_append.2 ⟨isBareChar_of_isDigits hwhole, ?_⟩
    exact List.forall_mem_cons.2 ⟨by decide, isBareChar_of_isDigits hfraction⟩

/-- Bare words and numbers hold neither quotes nor backslashes. -/
theorem isBareChar_of_spelling
    {terminal : Terminal} {piece : List Char} (h : Spelling terminal piece)
    (hterminal : terminal = .identifier ∨ terminal = .number) :
    ∀ c ∈ piece, isBareChar c = true := by
  rcases hterminal with rfl | rfl
  · intro c hc
    simp [isBareChar, isWordPart_of_mem_name h.1 c hc]
  · rcases h with hunsigned | ⟨unsigned, rfl, hunsigned⟩
    · exact isBareChar_of_isUnsigned hunsigned
    · exact List.forall_mem_cons.2 ⟨by decide, isBareChar_of_isUnsigned hunsigned⟩

theorem escapeSafe_of_isBareChar
    {piece : List Char} (h : ∀ c ∈ piece, isBareChar c = true) :
    escapeSafe piece = true := by
  refine escapeSafe_of_forall ?_
  rintro c hc rfl
  exact absurd (h _ hc) (by decide)

end Pieces

section Words

/-- No tag attribute in an atom holds an angle bracket. -/
def Atom.hasPlainTags : Atom → Bool
  | text _ => true
  | markup nodes => Markup.hasPlainTags nodes

/-- An atom that is faithful unless a tag attribute in it holds an angle bracket. -/
def Atom.IsSound (atom : Atom) : Prop :=
  atom.hasPlainTags = true → atom.isFaithful = true

theorem joins_isSound :
    Joins Atom.IsSound := by
  intro text later htext hlater _
  rw [Atom.isFaithful, String.toList_append]
  exact escapeSafe_append (htext rfl) (hlater rfl)

theorem joins_hasPlainTags :
    Joins fun atom => atom.hasPlainTags = true :=
  fun _ _ _ _ => rfl

/-- Sound atoms whose tag attributes hold no angle brackets are faithful. -/
theorem allFaithful_of_isSound
    {atoms : List Atom} (h : AllAtoms Atom.IsSound atoms)
    (hplain : AllAtoms (fun atom => atom.hasPlainTags = true) atoms) :
    AllFaithful atoms :=
  fun atom hatom => h atom hatom (hplain atom hatom)

theorem isSound_text
    {text : List Char} (h : escapeSafe text = true) :
    AllAtoms Atom.IsSound [.text (String.ofList text)] := by
  intro atom hatom _
  rw [List.mem_singleton.1 hatom, Atom.isFaithful, String.toList_ofList]
  exact h

/-- What a legible word tells is sound. -/
theorem isSound_of_legible
    {word : Word} (h : Legible word) :
    AllAtoms Atom.IsSound (word.terminal.atoms word.lexeme) := by
  obtain ⟨piece, text, hpiece, htells⟩ := h
  have hspelling := spelling_of_piece? hpiece
  obtain ⟨terminal, lexeme⟩ := word
  cases terminal with
  | identifier =>
      obtain rfl := Except.ok.inj htells
      exact isSound_text (escapeSafe_of_isBareChar (isBareChar_of_spelling hspelling (Or.inl rfl)))
  | number =>
      obtain rfl := Except.ok.inj htells
      exact isSound_text (escapeSafe_of_isBareChar (isBareChar_of_spelling hspelling (Or.inr rfl)))
  | string =>
      obtain rfl := Except.ok.inj htells
      obtain ⟨body, rfl, hbody⟩ := hspelling
      rw [List.cons_append, List.tail_cons, List.dropLast_concat]
      exact isSound_text (escapeSafe_decodeString hbody)
  | markup =>
      have hfine := Markup.fine_of_ofWord htells
      intro atom hatom htags
      obtain rfl := List.mem_singleton.1 hatom
      simp only [Atom.isFaithful, Markup.isPrintable, Bool.and_eq_true]
      exact ⟨hfine, htags⟩
  | _ =>
      exact allAtoms_nil

end Words

section Sources

variable {good : Atom → Prop}

/-- Whatever a source is read as, its words tell good atoms. -/
def TellsAtoms (good : Atom → Prop) (goal : Phrase) (source : List Char) : Prop :=
  ∀ tree, read goal source = .ok tree →
    ∀ word ∈ tree.yield, AllAtoms good (word.terminal.atoms word.lexeme)

theorem tellsAtoms_isSound
    (goal : Phrase) (source : List Char) :
    TellsAtoms Atom.IsSound goal source :=
  fun _ hread word hword => isSound_of_legible (legible_of_read hread word hword)

/-- The atoms of a graph that was read are good if its words tell good atoms. -/
theorem allAtoms_of_parse
    (hjoins : Joins good) {source : String} {graph : Graph}
    (hsource : TellsAtoms good .graph source.toList) (h : Graph.parse source = .ok graph) :
    AllAtoms good graph.atoms := by
  obtain ⟨tree, hread, rfl⟩ := Graph.parse_eq_ok_iff.1 h
  exact allAtoms_meaning hjoins tree (hsource tree hread)

/-- The atoms of a stylesheet that was read are good if its words tell good atoms. -/
theorem allAtoms_of_parseStylesheet
    (hjoins : Joins good) {source : String} {stylesheet : Stylesheet}
    (hsource : TellsAtoms good .rules source.toList)
    (h : Stylesheet.parse source = .ok stylesheet) :
    AllAtoms good (ruleAtoms stylesheet.rules) := by
  by_cases hempty : skipGap source.toList = []
  · rw [Stylesheet.parse_of_skipGap_eq_nil hempty] at h
    obtain rfl := Except.ok.inj h
    exact allAtoms_nil
  · obtain ⟨tree, hread, rfl⟩ := (Stylesheet.parse_eq_ok_iff hempty).1 h
    exact allAtoms_meaning hjoins tree (hsource tree hread)

end Sources

end DotCascade
