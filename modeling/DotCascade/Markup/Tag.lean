import DotCascade.Text.Blank
import DotCascade.Text.Letters
import DotCascade.Markup.Basic

/-!
# The parts of a tag

Each reader takes one part of a tag from the front of a text and returns the
rest.  White space may stand in front of a tag attribute, around its equals sign
and in front of the bracket that ends a tag.

The lemmas say that no reader returns more than it was given, and that those
that must take something return less.
-/

namespace DotCascade
namespace Markup

/-- The text behind the white space at its front. -/
def skipSpace (text : List Char) : List Char :=
  text.dropWhile Text.isSpace

/-- The name of a tag. -/
def tagName? (text : List Char) : Option (Name × List Char) :=
  match Text.word? text with
  | some word =>
      (Name.ofString? (String.ofList word)).map fun name =>
        (name, text.drop word.length)
  | none => none

/-- The name of a tag attribute. -/
def attributeName? : List Char → Option (List Char × List Char)
  | [] => none
  | c :: rest =>
      if Text.isAttributeStart c then
        some
          (c :: rest.takeWhile Text.isAttributePart,
            rest.dropWhile Text.isAttributePart)
      else none

/-- The text up to the next quote character, and the text behind it. -/
def upTo? (quote : Char) : List Char → Option (List Char × List Char)
  | [] => none
  | c :: rest =>
      if c = quote then some ([], rest)
      else (upTo? quote rest).map fun (value, rest) => (c :: value, rest)

/-- A value between single or double quotes. -/
def attributeValue? : List Char → Option (List Char × List Char)
  | [] => none
  | quote :: rest =>
      if quote = '"' || quote = '\x27' then upTo? quote rest else none

/-- A tag attribute with the white space in it and in front of it. -/
def tagAttribute? (text : List Char) : Option (TagAttribute × List Char) :=
  match attributeName? (skipSpace text) with
  | none => none
  | some (name, rest) =>
      match skipSpace rest with
      | '=' :: rest =>
          (attributeValue? (skipSpace rest)).map fun (value, rest) =>
            ((String.ofList name, String.ofList value), rest)
      | _ => none

/-- The end of an opening tag: whether the element ends with it, and the rest. -/
def tagEnd? (text : List Char) : Option (Bool × List Char) :=
  match skipSpace text with
  | '>' :: rest => some (false, rest)
  | '/' :: '>' :: rest => some (true, rest)
  | _ => none

/-- What follows the name in a closing tag of the given name, read behind its slash. -/
def closingTag? (name : Name) (text : List Char) : Option (List Char) :=
  let isNamePart := fun c => !Text.isSpace c && c ≠ '>'
  if String.ofList (text.takeWhile isNamePart) = name.text then
    match skipSpace (text.dropWhile isNamePart) with
    | '>' :: rest => some rest
    | _ => none
  else none

section Lengths

theorem length_dropWhile_le
    (p : Char → Bool) (text : List Char) :
    (text.dropWhile p).length ≤ text.length :=
  (List.dropWhile_suffix p).length_le

theorem length_skipSpace_le
    (text : List Char) :
    (skipSpace text).length ≤ text.length :=
  length_dropWhile_le _ text

theorem length_tagName?_lt
    {text rest : List Char} {name : Name}
    (h : tagName? text = some (name, rest)) :
    rest.length < text.length := by
  unfold tagName? at h
  split at h
  case h_2 => simp at h
  case h_1 word hw =>
    cases text with
    | nil => simp [Text.word?] at hw
    | cons c tail =>
        simp only [Text.word?] at hw
        split at hw
        case isFalse => simp at hw
        case isTrue =>
          obtain ⟨_, _, h⟩ := Option.map_eq_some_iff.1 h
          simp only [Prod.mk.injEq] at h
          simp only [Option.some.injEq] at hw
          rw [← h.2, ← hw]
          simp only [List.length_cons, List.drop_succ_cons, List.length_drop]
          omega

theorem length_attributeName?_lt
    {text name rest : List Char}
    (h : attributeName? text = some (name, rest)) :
    rest.length < text.length := by
  cases text with
  | nil => simp [attributeName?] at h
  | cons c tail =>
      simp only [attributeName?] at h
      split at h
      case isFalse => simp at h
      case isTrue =>
        simp only [Option.some.injEq, Prod.mk.injEq] at h
        rw [← h.2, List.length_cons]
        exact Nat.lt_succ_of_le (length_dropWhile_le _ tail)

theorem length_upTo?_lt
    {quote : Char} {text value rest : List Char}
    (h : upTo? quote text = some (value, rest)) :
    rest.length < text.length := by
  induction text generalizing value rest with
  | nil => simp [upTo?] at h
  | cons c tail ih =>
      simp only [upTo?] at h
      split at h
      case isTrue =>
        simp only [Option.some.injEq, Prod.mk.injEq] at h
        rw [← h.2]
        exact Nat.lt_succ_self _
      case isFalse =>
        obtain ⟨⟨v, r⟩, hv, h⟩ := Option.map_eq_some_iff.1 h
        simp only [Prod.mk.injEq] at h
        rw [← h.2]
        exact Nat.lt_succ_of_lt (ih hv)

theorem length_attributeValue?_lt
    {text value rest : List Char}
    (h : attributeValue? text = some (value, rest)) :
    rest.length < text.length := by
  cases text with
  | nil => simp [attributeValue?] at h
  | cons c tail =>
      simp only [attributeValue?] at h
      split at h
      case isTrue => exact Nat.lt_succ_of_lt (length_upTo?_lt h)
      case isFalse => simp at h

/-- A tag attribute takes at least one character. -/
theorem length_tagAttribute?_lt
    {text rest : List Char} {first : TagAttribute}
    (h : tagAttribute? text = some (first, rest)) :
    rest.length < text.length := by
  unfold tagAttribute? at h
  split at h
  case h_1 => simp at h
  case h_2 name behindName hn =>
    split at h
    case h_2 => simp at h
    case h_1 behindSign hs =>
      obtain ⟨⟨v, r⟩, hv, h⟩ := Option.map_eq_some_iff.1 h
      simp only [Prod.mk.injEq] at h
      have h₁ := length_attributeName?_lt hn
      have h₂ := length_attributeValue?_lt hv
      have h₃ := length_skipSpace_le text
      have h₄ := length_skipSpace_le behindName
      have h₅ := length_skipSpace_le behindSign
      rw [hs, List.length_cons] at h₄
      rw [← h.2]
      omega

/-- The end of a tag takes at least one character. -/
theorem length_tagEnd?_lt
    {text rest : List Char} {closed : Bool}
    (h : tagEnd? text = some (closed, rest)) :
    rest.length < text.length := by
  have hs := length_skipSpace_le text
  unfold tagEnd? at h
  split at h
  case h_1 behind hb =>
    simp only [Option.some.injEq, Prod.mk.injEq] at h
    rw [hb, List.length_cons] at hs
    rw [← h.2]
    omega
  case h_2 behind hb =>
    simp only [Option.some.injEq, Prod.mk.injEq] at h
    rw [hb, List.length_cons, List.length_cons] at hs
    rw [← h.2]
    omega
  case h_3 => simp at h

/-- The end of a closing tag takes at least one character. -/
theorem length_closingTag?_lt
    {name : Name} {text rest : List Char}
    (h : closingTag? name text = some rest) :
    rest.length < text.length := by
  unfold closingTag? at h
  simp only at h
  split at h
  case isFalse => simp at h
  case isTrue =>
    split at h
    case h_2 => simp at h
    case h_1 behind hb =>
      simp only [Option.some.injEq] at h
      have h₁ :=
        length_skipSpace_le
          (text.dropWhile fun c => !Text.isSpace c && decide (c ≠ '>'))
      have h₂ :=
        length_dropWhile_le
          (fun c => !Text.isSpace c && decide (c ≠ '>')) text
      rw [hb, List.length_cons] at h₁
      rw [← h]
      omega

end Lengths

/-- All tag attributes at the front of a text, and the text behind them. -/
def tagAttributes (text : List Char) : List TagAttribute × List Char :=
  match h : tagAttribute? text with
  | none => ([], text)
  | some (first, rest) =>
      have := length_tagAttribute?_lt h
      let (later, rest) := tagAttributes rest
      (first :: later, rest)
termination_by text.length

theorem length_tagAttributes_le
    (text : List Char) :
    (tagAttributes text).2.length ≤ text.length := by
  fun_induction tagAttributes text with
  | case1 => exact Nat.le_refl _
  | case2 text first rest h hlt later rest' heq ih =>
      rw [heq] at ih
      exact Nat.le_of_lt (Nat.lt_of_le_of_lt ih hlt)

end Markup
end DotCascade
