import DotCascade.Reading.Gap
import DotCascade.Reading.Lexeme

/-!
# How words are spelled

`Spelling` says of every kind of word how such a word is spelled.  A spelled word
is found again at the front of a text (`piece?_append`): a string, markup and a
mark whatever comes behind them, all other words if neither a letter of a word
nor a dot comes behind them.

`kindsAt` lists the kinds of word that a text may begin with, judged by its first
two characters.  Only bare words and keywords share their beginnings
(`mem_kindsAt`).
-/

namespace DotCascade
namespace Reading

open Grammar

section Spellings

/-- What may stand between the quotes of a string: a backslash guards the next character. -/
inductive Quotable : List Char → Prop
  | nil : Quotable []
  | plain {c : Char} {rest : List Char} (hquote : c ≠ '"') (hslash : c ≠ '\\')
      (h : Quotable rest) : Quotable (c :: rest)
  | pair {c : Char} {rest : List Char} (h : Quotable rest) : Quotable ('\\' :: c :: rest)

/-- A text whose angle brackets balance. -/
inductive Balanced : List Char → Prop
  | nil : Balanced []
  | plain {c : Char} {rest : List Char} (hopen : c ≠ '<') (hclose : c ≠ '>')
      (h : Balanced rest) : Balanced (c :: rest)
  | group {inner rest : List Char} (hinner : Balanced inner) (h : Balanced rest) :
      Balanced ('<' :: inner ++ '>' :: rest)

/-- A letter and letters or digits behind it. -/
def IsName (text : List Char) : Prop :=
  ∃ first rest, text = first :: rest ∧ Text.isWordStart first = true ∧
    ∀ c ∈ rest, Text.isWordPart c = true

/-- One or more digits. -/
def IsDigits (text : List Char) : Prop :=
  text ≠ [] ∧ ∀ c ∈ text, c.isDigit = true

/-- Digits, a fraction alone, or both. -/
def IsUnsigned (text : List Char) : Prop :=
  IsDigits text ∨
    (∃ fraction, text = '.' :: fraction ∧ IsDigits fraction) ∨
    ∃ whole fraction, text = whole ++ '.' :: fraction ∧ IsDigits whole ∧ IsDigits fraction

/-- The spelling of a kind of word that is always written in the same way. -/
def fixedSpelling : Terminal → String
  | .subgraph => "subgraph"
  | .digraph => "digraph"
  | .strict => "strict"
  | .graph => "graph"
  | .edge => "edge"
  | .node => "node"
  | .leftBrace => "\x7b"
  | .rightBrace => "\x7d"
  | .leftBracket => "["
  | .rightBracket => "]"
  | .equals => "="
  | .comma => ","
  | .semicolon => ";"
  | .colon => ":"
  | .plus => "+"
  | _ => ""

/-- How the words of a kind are spelled. -/
def Spelling : Terminal → List Char → Prop
  | .identifier, piece => IsName piece ∧ String.ofList piece ∉ keywords
  | .markup, piece => ∃ body, piece = '<' :: body ++ ['>'] ∧ Balanced body
  | .number, piece => IsUnsigned piece ∨ ∃ rest, piece = '-' :: rest ∧ IsUnsigned rest
  | .className, piece => ∃ name, piece = '.' :: name ∧ IsName name
  | .string, piece => ∃ body, piece = '"' :: body ++ ['"'] ∧ Quotable body
  | .edgeOperator, piece => piece = ['-', '>'] ∨ piece = ['-', '-']
  | terminal, piece => piece = (fixedSpelling terminal).toList

theorem isName_of_all
    {first : Char} {rest : List Char} (hfirst : Text.isWordStart first = true)
    (hrest : rest.all Text.isWordPart = true) :
    IsName (first :: rest) :=
  ⟨first, rest, rfl, hfirst, List.all_eq_true.1 hrest⟩

theorem isWordPart_of_mem_name
    {name : List Char} (hname : IsName name) :
    ∀ c ∈ name, Text.isWordPart c = true := by
  obtain ⟨first, rest, rfl, hfirst, hrest⟩ := hname
  exact List.forall_mem_cons.2 ⟨Text.isWordPart_of_isWordStart hfirst, hrest⟩

end Spellings

section Brackets

theorem toClosingQuote?_append
    {body : List Char} (h : Quotable body) (text : List Char) :
    toClosingQuote? (body ++ '"' :: text) = some (body ++ ['"']) := by
  induction h with
  | nil =>
      rfl
  | @plain c rest hquote hslash _ ih =>
      simp [toClosingQuote?, hslash, ih]
  | pair _ ih =>
      simp [toClosingQuote?, ih]

theorem Balanced.append
    {body later : List Char} (h : Balanced body) (hlater : Balanced later) :
    Balanced (body ++ later) := by
  induction h with
  | nil =>
      exact hlater
  | plain hopen hclose _ ih =>
      exact .plain hopen hclose ih
  | group hinner _ _ ih =>
      simpa using Balanced.group hinner ih

theorem toClosingBracket?_append
    {body : List Char} (h : Balanced body) (depth : Nat) (text : List Char) :
    toClosingBracket? depth (body ++ text) =
      (toClosingBracket? depth text).map (body ++ ·) := by
  induction h generalizing depth text with
  | nil =>
      simp
  | @plain c rest hopen hclose _ ih =>
      have hstep :
          toClosingBracket? depth (c :: (rest ++ text)) =
            (toClosingBracket? depth (rest ++ text)).map (c :: ·) := by
        rw [toClosingBracket?]
        all_goals simp_all
      rw [List.cons_append, hstep, ih, Option.map_map]
      rfl
  | @group inner rest _ _ ihinner ihrest =>
      have hinner := ihinner (depth + 1) ('>' :: (rest ++ text))
      simp only [toClosingBracket?, ihrest, Option.map_map] at hinner
      simp only [List.cons_append, List.append_assoc, toClosingBracket?, hinner, Option.map_map]
      congr 1

end Brackets

section Pieces

/-- No letter of a word stands at the front of a text. -/
def Unlettered (text : List Char) : Prop :=
  ∀ c ∈ text.head?, Text.isWordPart c = false

/-- Neither a letter of a word nor a dot stands at the front of a text. -/
def Detached (text : List Char) : Prop :=
  ∀ c ∈ text.head?, Text.isWordPart c = false ∧ c ≠ '.'

theorem unlettered_nil :
    Unlettered [] :=
  fun _ hc => nomatch hc

theorem unlettered_cons
    {c : Char} {text : List Char} (hpart : Text.isWordPart c = false) :
    Unlettered (c :: text) := by
  intro d hd
  obtain rfl := Option.some.inj hd
  exact hpart

theorem Detached.unlettered
    {text : List Char} (h : Detached text) :
    Unlettered text :=
  fun c hc => (h c hc).1

theorem detached_cons
    {c : Char} {text : List Char}
    (hpart : Text.isWordPart c = false) (hdot : c ≠ '.') :
    Detached (c :: text) := by
  intro d hd
  obtain rfl := Option.some.inj hd
  exact ⟨hpart, hdot⟩

/-- The kinds of word that end by their own spelling. -/
def closed : Terminal → Bool
  | .markup | .string | .edgeOperator | .leftBrace | .rightBrace | .leftBracket
  | .rightBracket | .equals | .comma | .semicolon | .colon | .plus => true
  | _ => false

theorem takeWhile_append_of_detached
    {p : Char → Bool} {word text : List Char}
    (hword : ∀ c ∈ word, p c = true)
    (htext : ∀ c ∈ text.head?, p c = false) :
    (word ++ text).takeWhile p = word := by
  rw [List.takeWhile_append_of_pos hword]
  cases text with
  | nil =>
      simp
  | cons c rest =>
      simp [htext c rfl]

theorem Detached.not_isDigit
    {text : List Char} (h : Detached text) :
    ∀ c ∈ text.head?, c.isDigit = false := by
  intro c hc
  have hpart := (h c hc).1
  simp only [Text.isWordPart, Bool.or_eq_false_iff] at hpart
  exact hpart.2

theorem word?_append
    {name text : List Char} (hname : IsName name) (htext : Unlettered text) :
    Text.word? (name ++ text) = some name := by
  obtain ⟨first, rest, rfl, hfirst, hrest⟩ := hname
  simp [Text.word?, hfirst, takeWhile_append_of_detached hrest htext]

theorem digits?_append
    {digits text : List Char} (hdigits : IsDigits digits)
    (htext : ∀ c ∈ text.head?, c.isDigit = false) :
    digits? (digits ++ text) = some digits := by
  simp [digits?, takeWhile_append_of_detached hdigits.2 htext, hdigits.1]

theorem ne_cons_of_isDigits
    {digits : List Char} {c : Char} (h : IsDigits digits) (hc : c.isDigit = false)
    (text rest : List Char) :
    digits ++ text ≠ c :: rest := by
  obtain ⟨hne, hall⟩ := h
  cases digits with
  | nil =>
      exact absurd rfl hne
  | cons first digits =>
      intro heq
      have hfirst := hall first List.mem_cons_self
      simp only [List.cons_append, List.cons.injEq] at heq
      rw [heq.1, hc] at hfirst
      exact absurd hfirst (by decide)

theorem ne_minus_of_isUnsigned
    {piece : List Char} (h : IsUnsigned piece) (text rest : List Char) :
    piece ++ text ≠ '-' :: rest := by
  rcases h with h | ⟨fraction, rfl, _⟩ | ⟨whole, fraction, rfl, hwhole, _⟩
  · exact ne_cons_of_isDigits h (by decide) text rest
  · simp
  · rw [List.append_assoc]
    exact ne_cons_of_isDigits hwhole (by decide) _ rest

theorem unsignedPiece?_append
    {piece text : List Char} (h : IsUnsigned piece) (htext : Detached text) :
    unsignedPiece? (piece ++ text) = some piece := by
  rcases h with h | ⟨fraction, rfl, hfraction⟩ | ⟨whole, fraction, rfl, hwhole, hfraction⟩
  · have hdigits := digits?_append h htext.not_isDigit
    unfold unsignedPiece?
    split
    case h_1 rest heq =>
      exact absurd heq (ne_cons_of_isDigits h (by decide) text rest)
    case h_2 =>
      rw [hdigits]
      simp only [List.drop_left]
      split
      case h_1 rest =>
        exact absurd rfl (htext '.' rfl).2
      case h_2 =>
        rfl
  · simp [unsignedPiece?, digits?_append hfraction htext.not_isDigit]
  · have hdigits : digits? (whole ++ ('.' :: (fraction ++ text))) = some whole :=
      digits?_append hwhole (by simp)
    rw [List.append_assoc, List.cons_append]
    unfold unsignedPiece?
    split
    case h_1 rest heq =>
      exact absurd heq (ne_cons_of_isDigits hwhole (by decide) _ rest)
    case h_2 =>
      rw [hdigits]
      simp only [List.drop_left, digits?_append hfraction htext.not_isDigit]

theorem fixedPiece?_eq_some_iff
    {spelling : String} {text piece : List Char} :
    fixedPiece? spelling text = some piece ↔
      piece = spelling.toList ∧ spelling.toList <+: text := by
  unfold fixedPiece?
  rw [← List.isPrefixOf_iff_prefix]
  split
  case isTrue h =>
    simp [h, eq_comm]
  case isFalse h =>
    simp [h]

theorem fixedPiece?_append
    (spelling : String) (text : List Char) :
    fixedPiece? spelling (spelling.toList ++ text) = some spelling.toList :=
  fixedPiece?_eq_some_iff.2 ⟨rfl, List.prefix_append _ _⟩

/-- A spelled word is found at the front of a text, if it ends where it seems to end. -/
theorem piece?_append
    {terminal : Terminal} {piece text : List Char}
    (h : Spelling terminal piece)
    (hend : closed terminal = true ∨ Detached text) :
    piece? terminal (piece ++ text) = some piece := by
  cases terminal with
  | identifier =>
      have htext := hend.resolve_left (by decide)
      obtain ⟨hname, hkeyword⟩ := h
      simp [piece?, identifierPiece?, word?_append hname htext.unlettered, hkeyword]
  | markup =>
      obtain ⟨body, rfl, hbody⟩ := h
      simp [piece?, markupPiece?, toClosingBracket?_append hbody, toClosingBracket?]
  | number =>
      have htext := hend.resolve_left (by decide)
      rcases h with h | ⟨rest, rfl, h⟩
      · simp only [piece?]
        rw [numberPiece?]
        · exact unsignedPiece?_append h htext
        · exact ne_minus_of_isUnsigned h text
      · simp [piece?, numberPiece?, unsignedPiece?_append h htext]
  | className =>
      have htext := hend.resolve_left (by decide)
      obtain ⟨name, rfl, hname⟩ := h
      simp [piece?, classPiece?, word?_append hname htext.unlettered]
  | string =>
      obtain ⟨body, rfl, hbody⟩ := h
      simp [piece?, stringPiece?, toClosingQuote?_append hbody]
  | edgeOperator =>
      rcases h with rfl | rfl <;> rfl
  | _ =>
      subst h
      exact fixedPiece?_append _ text

end Pieces

section Kinds

/-- The kinds of word that are made of letters. -/
def letterKinds : List Terminal :=
  [.identifier, .subgraph, .digraph, .strict, .graph, .edge, .node]

/-- The kinds of word that a text may begin with, as far as its first two characters tell. -/
def kindsAt : List Char → List Terminal
  | [] => []
  | '<' :: _ => [.markup]
  | '"' :: _ => [.string]
  | '{' :: _ => [.leftBrace]
  | '}' :: _ => [.rightBrace]
  | '[' :: _ => [.leftBracket]
  | ']' :: _ => [.rightBracket]
  | '=' :: _ => [.equals]
  | ',' :: _ => [.comma]
  | ';' :: _ => [.semicolon]
  | ':' :: _ => [.colon]
  | '+' :: _ => [.plus]
  | '-' :: '>' :: _ => [.edgeOperator]
  | '-' :: '-' :: _ => [.edgeOperator]
  | '-' :: _ => [.number]
  | '.' :: c :: _ => if c.isDigit then [.number] else [.className]
  | c :: _ =>
      if c.isDigit then [.number]
      else if Text.isWordStart c then letterKinds
      else []

theorem mem_kindsAt_of_fixedPiece?
    {spelling : String} {text piece : List Char} {terminal : Terminal}
    (hkind : ∀ rest, terminal ∈ kindsAt (spelling.toList ++ rest))
    (h : fixedPiece? spelling text = some piece) :
    terminal ∈ kindsAt text := by
  obtain ⟨-, rest, rfl⟩ := fixedPiece?_eq_some_iff.1 h
  exact hkind rest

/-- The letters without accents by their code points. -/
theorem isAlpha_iff
    {c : Char} :
    c.isAlpha = true ↔ 65 ≤ c.toNat ∧ c.toNat ≤ 90 ∨ 97 ≤ c.toNat ∧ c.toNat ≤ 122 := by
  have hupper : c.isUpper = decide ('A'.val ≤ c.val ∧ c.val ≤ 'Z'.val) := rfl
  have hlower : c.isLower = (decide ('a'.val ≤ c.val) && decide (c.val ≤ 'z'.val)) := rfl
  have halpha : c.isAlpha = (c.isUpper || c.isLower) := rfl
  rw [halpha, hupper, hlower, Bool.or_eq_true, Bool.and_eq_true]
  simp only [decide_eq_true_eq, UInt32.le_iff_toNat_le]
  rfl

theorem isDigit_eq_false_of_isWordStart
    {c : Char} (h : Text.isWordStart c = true) :
    c.isDigit = false := by
  have hval : c.toNat = c.val.toNat := rfl
  simp only [Text.isWordStart, Text.isWideLetter, Bool.or_eq_true, isAlpha_iff,
    Bool.and_eq_true, decide_eq_true_eq] at h
  simp only [Char.isDigit, Bool.and_eq_false_iff, decide_eq_false_iff_not, ge_iff_le,
    UInt32.le_iff_toNat_le]
  rcases h with (h | rfl) | h
  · simp at h ⊢
    omega
  · decide
  · simp at h ⊢
    omega

theorem kindsAt_of_isWordStart
    {c : Char} {rest : List Char} (h : Text.isWordStart c = true) :
    kindsAt (c :: rest) = letterKinds := by
  have hdigit := isDigit_eq_false_of_isWordStart h
  unfold kindsAt
  split <;> rename_i heq <;> cases heq
  case h_17 =>
    simp [hdigit, h]
  all_goals exact absurd h (by decide)

theorem kindsAt_of_isDigit
    {c : Char} {rest : List Char} (h : c.isDigit = true) :
    kindsAt (c :: rest) = [.number] := by
  unfold kindsAt
  split <;> rename_i heq <;> cases heq
  case h_17 =>
    simp [h]
  all_goals exact absurd h (by decide)

theorem kindsAt_of_digits?
    {text digits : List Char} (h : digits? text = some digits) :
    kindsAt text = [.number] := by
  cases text with
  | nil =>
      simp [digits?] at h
  | cons c rest =>
      by_cases hc : c.isDigit = true
      · exact kindsAt_of_isDigit hc
      · simp [digits?, hc] at h

theorem kindsAt_of_unsignedPiece?
    {text piece : List Char} (h : unsignedPiece? text = some piece) :
    kindsAt text = [.number] ∧ ∀ rest, text ≠ '>' :: rest ∧ text ≠ '-' :: rest := by
  unfold unsignedPiece? at h
  split at h
  case h_1 rest =>
    obtain ⟨digits, hdigits, _⟩ := Option.map_eq_some_iff.1 h
    refine ⟨?_, by simp⟩
    cases rest with
    | nil =>
        simp [digits?] at hdigits
    | cons c rest =>
        by_cases hc : c.isDigit = true
        · simp [kindsAt, hc]
        · simp [digits?, hc] at hdigits
  case h_2 =>
    split at h
    case h_1 =>
      simp at h
    case h_2 whole hwhole =>
      have hkinds := kindsAt_of_digits? hwhole
      refine ⟨hkinds, fun rest => ⟨?_, ?_⟩⟩
      · rintro rfl
        exact absurd hkinds (by simp [kindsAt, Text.isWordStart, Text.isWideLetter])
      · rintro rfl
        simp [digits?] at hwhole

theorem exists_cons_of_word?
    {text word : List Char} (h : Text.word? text = some word) :
    ∃ c rest, text = c :: rest ∧ Text.isWordStart c = true := by
  cases text with
  | nil =>
      simp [Text.word?] at h
  | cons c rest =>
      refine ⟨c, rest, rfl, ?_⟩
      by_cases hc : Text.isWordStart c = true
      · exact hc
      · simp [Text.word?, hc] at h

/-- A text begins with a word only of a kind that its first characters admit. -/
theorem mem_kindsAt
    {terminal : Terminal} {text piece : List Char}
    (h : piece? terminal text = some piece) :
    terminal ∈ kindsAt text := by
  cases terminal with
  | identifier =>
      simp only [piece?, identifierPiece?] at h
      split at h
      case h_1 word hword =>
        obtain ⟨c, rest, rfl, hc⟩ := exists_cons_of_word? hword
        rw [kindsAt_of_isWordStart hc]
        exact List.mem_cons_self
      case h_2 =>
        cases h
  | markup =>
      simp only [piece?] at h
      unfold markupPiece? at h
      split at h
      case h_1 =>
        exact List.mem_singleton.2 rfl
      case h_2 =>
        simp at h
  | number =>
      simp only [piece?] at h
      unfold numberPiece? at h
      split at h
      case h_1 rest =>
        obtain ⟨unsigned, hunsigned, _⟩ := Option.map_eq_some_iff.1 h
        have hrest := (kindsAt_of_unsignedPiece? hunsigned).2
        rw [kindsAt]
        · exact List.mem_singleton.2 rfl
        · exact fun behind => (hrest behind).1
        · exact fun behind => (hrest behind).2
      case h_2 =>
        rw [(kindsAt_of_unsignedPiece? h).1]
        exact List.mem_singleton.2 rfl
  | className =>
      simp only [piece?] at h
      unfold classPiece? at h
      split at h
      case h_2 =>
        simp at h
      case h_1 rest =>
        obtain ⟨name, hname, _⟩ := Option.map_eq_some_iff.1 h
        obtain ⟨c, behind, rfl, hc⟩ := exists_cons_of_word? hname
        simp [kindsAt, isDigit_eq_false_of_isWordStart hc]
  | string =>
      simp only [piece?] at h
      unfold stringPiece? at h
      split at h
      case h_1 =>
        exact List.mem_singleton.2 rfl
      case h_2 =>
        simp at h
  | edgeOperator =>
      simp only [piece?, Option.or_eq_some_iff] at h
      rcases h with h | ⟨_, h⟩
      · exact mem_kindsAt_of_fixedPiece? (fun _ => List.mem_singleton.2 rfl) h
      · exact mem_kindsAt_of_fixedPiece? (fun _ => List.mem_singleton.2 rfl) h
  | subgraph | digraph | strict | graph | edge | node =>
      refine mem_kindsAt_of_fixedPiece? (fun rest => ?_) h
      simp [kindsAt, letterKinds, Text.isWordStart]
  | _ =>
      exact mem_kindsAt_of_fixedPiece? (fun _ => List.mem_singleton.2 rfl) h

end Kinds

section Keywords

variable {keyword : Terminal} {text piece : List Char}

/-- A kind of word that is made of letters is that of bare words or has one spelling. -/
theorem piece?_keyword
    (h : keyword ∈ letterKinds) (hne : keyword ≠ .identifier) (text : List Char) :
    piece? keyword text = fixedPiece? (fixedSpelling keyword) text := by
  simp only [letterKinds, List.mem_cons, List.not_mem_nil, or_false, hne, false_or] at h
  rcases h with rfl | rfl | rfl | rfl | rfl | rfl <;> rfl

theorem eq_of_spelling_keyword
    (h : keyword ∈ letterKinds) (hne : keyword ≠ .identifier) (hspelling : Spelling keyword piece) :
    piece = (fixedSpelling keyword).toList := by
  simp only [letterKinds, List.mem_cons, List.not_mem_nil, or_false, hne, false_or] at h
  rcases h with rfl | rfl | rfl | rfl | rfl | rfl <;> exact hspelling

theorem eq_of_piece?_keyword
    (h : keyword ∈ letterKinds) (hne : keyword ≠ .identifier)
    (hpiece : piece? keyword text = some piece) :
    piece = (fixedSpelling keyword).toList ∧ piece <+: text := by
  rw [piece?_keyword h hne] at hpiece
  obtain ⟨rfl, hprefix⟩ := fixedPiece?_eq_some_iff.1 hpiece
  exact ⟨rfl, hprefix⟩

theorem isName_fixedSpelling
    (h : keyword ∈ letterKinds) (hne : keyword ≠ .identifier) :
    IsName (fixedSpelling keyword).toList := by
  simp only [letterKinds, List.mem_cons, List.not_mem_nil, or_false, hne, false_or] at h
  rcases h with rfl | rfl | rfl | rfl | rfl | rfl <;>
    exact isName_of_all (by decide) (by decide)

end Keywords

end Reading
end DotCascade
