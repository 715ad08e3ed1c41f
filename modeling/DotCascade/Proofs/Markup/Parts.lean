import DotCascade.Proofs.Atom.Faithful
import DotCascade.Proofs.Reading.Pieces

/-!
# How the parts of a tag are rendered

Each part of a tag has its renditions: white space that may be left out, a value
between quotes of a kind that it does not hold, a tag attribute with white space
around its equals sign, and the tag as a whole.

A reader takes a part from the front of a text exactly if the text begins with a
rendition of that part (`tagName?_eq_some_iff` and the lemmas behind it).  A tag
name alone does not end by its own spelling, so what comes behind it matters.
-/

namespace DotCascade
namespace Markup

open Reading

section Renditions

/-- White space of any length. -/
def IsSpacing (text : List Char) : Prop :=
  ∀ c ∈ text, Text.isSpace c = true

/-- The value of a tag attribute between quotes that it does not hold. -/
inductive RendersValue (value : List Char) : List Char → Prop
  | double (h : '"' ∉ value) :
      RendersValue value ('"' :: (value ++ ['"']))
  | single (h : '\x27' ∉ value) :
      RendersValue value ('\x27' :: (value ++ ['\x27']))

/-- A tag attribute with white space in front of it and around its equals sign. -/
inductive RendersAttribute : TagAttribute → List Char → Prop
  | mk
      {name value : String} {front behindName behindSign quoted : List Char}
      (hfront : IsSpacing front)
      (hname : isAttributeName name.toList = true)
      (hbehindName : IsSpacing behindName)
      (hbehindSign : IsSpacing behindSign)
      (hvalue : RendersValue value.toList quoted) :
      RendersAttribute (name, value)
        (front ++ (name.toList ++ (behindName ++ '=' :: (behindSign ++ quoted))))

/-- Tag attributes, one behind the other. -/
inductive RendersAttributes : List TagAttribute → List Char → Prop
  | nil : RendersAttributes [] []
  | cons
      {tag : TagAttribute} {later : List TagAttribute} {front back : List Char}
      (h : RendersAttribute tag front)
      (hlater : RendersAttributes later back) :
      RendersAttributes (tag :: later) (front ++ back)

/-- The inside of a tag: its name, tag attributes and white space.  What stands directly behind the
name does not go on with it. -/
inductive RendersTag (name : Name) (attributes : List TagAttribute) : List Char → Prop
  | mk
      {tags space : List Char}
      (hname : isTagName name.text.toList = true)
      (htags : RendersAttributes attributes tags)
      (hspace : IsSpacing space)
      (hbehind : Unlettered (tags ++ space)) :
      RendersTag name attributes (name.text.toList ++ (tags ++ space))

/-- The end of an opening tag, with a slash if the element ends there. -/
def tagMark : Bool → List Char
  | true => ['/', '>']
  | false => ['>']

end Renditions

section Space

variable {text rest : List Char}

/-- White space is skipped up to a character that is none. -/
theorem skipSpace_append
    {space : List Char} (hspace : IsSpacing space)
    (htext : ∀ c ∈ text.head?, Text.isSpace c = false) :
    skipSpace (space ++ text) = text := by
  rw [skipSpace, List.dropWhile_append_of_pos hspace]
  cases text with
  | nil =>
      rfl
  | cons c rest =>
      simp [htext c rfl]

theorem skipSpace_append_cons
    {space : List Char} (hspace : IsSpacing space) {c : Char} (hc : Text.isSpace c = false) :
    skipSpace (space ++ c :: text) = c :: text :=
  skipSpace_append hspace (by simpa using hc)

theorem exists_spacing
    (text : List Char) :
    ∃ space, IsSpacing space ∧ text = space ++ skipSpace text :=
  ⟨text.takeWhile Text.isSpace, fun _ hc => List.mem_takeWhile_imp hc,
    List.takeWhile_append_dropWhile.symm⟩

/-- What may stand behind white space, or at once, may stand behind any white space. -/
theorem IsSpacing.head
    {p : Char → Bool} {space : List Char} (hspace : IsSpacing space)
    (hp : ∀ c, Text.isSpace c = true → p c = false)
    (htext : ∀ c ∈ text.head?, p c = false) :
    ∀ c ∈ (space ++ text).head?, p c = false := by
  cases space with
  | nil =>
      exact htext
  | cons first space =>
      simpa using hp first (hspace first List.mem_cons_self)

theorem isSpacing_nil :
    IsSpacing [] :=
  nofun

theorem isSpacing_blank :
    IsSpacing [' '] := by
  simp [IsSpacing, Text.isSpace, Text.isWhiteSpace]

theorem not_isSpace_of_isAttributeStart
    {c : Char} (h : Text.isAttributeStart c = true) :
    Text.isSpace c = false := by
  have hval : c.toNat = c.val.toNat := rfl
  simp only [Text.isAttributeStart, Bool.or_eq_true, isAlpha_iff, decide_eq_true_eq] at h
  rcases h with h | rfl
  · simp [Text.isSpace, Text.isWhiteSpace, Text.isSeparator] at h ⊢
    omega
  · decide

/-- No white space goes on with the name of a tag attribute. -/
theorem not_isAttributePart_of_isSpace
    {c : Char} (h : Text.isSpace c = true) :
    Text.isAttributePart c = false := by
  have hval : c.toNat = c.val.toNat := rfl
  rw [← Bool.not_eq_true]
  intro hpart
  simp only [Text.isAttributePart, Bool.or_eq_true, decide_eq_true_eq] at hpart
  rcases hpart with (((hstart | hdigit) | rfl) | rfl) | rfl
  · rw [not_isSpace_of_isAttributeStart hstart] at h
    cases h
  · simp only [Char.isDigit, ge_iff_le, Bool.and_eq_true, decide_eq_true_eq,
      UInt32.le_iff_toNat_le] at hdigit
    simp [Text.isSpace, Text.isWhiteSpace, Text.isSeparator] at h hdigit
    omega
  all_goals
    revert h
    decide

theorem dropWhile_append_of_detached
    {p : Char → Bool} {front back : List Char}
    (hfront : ∀ c ∈ front, p c = true)
    (hback : ∀ c ∈ back.head?, p c = false) :
    (front ++ back).dropWhile p = back := by
  rw [List.dropWhile_append_of_pos hfront]
  cases back with
  | nil =>
      rfl
  | cons c rest =>
      simp [hback c rfl]

/-- The characters of some kind at the front of a text. -/
theorem takeWhile_dropWhile_iff
    {p : Char → Bool} {text front back : List Char} :
    text.takeWhile p = front ∧ text.dropWhile p = back ↔
      (∀ c ∈ front, p c = true) ∧ (∀ c ∈ back.head?, p c = false) ∧ text = front ++ back := by
  constructor
  · rintro ⟨rfl, rfl⟩
    refine ⟨fun c hc => List.mem_takeWhile_imp hc, fun c hc => ?_,
      List.takeWhile_append_dropWhile.symm⟩
    have hnot := List.head?_dropWhile_not p text
    rw [Option.mem_def.1 hc] at hnot
    simpa using hnot
  · rintro ⟨hfront, hback, rfl⟩
    exact ⟨takeWhile_append_of_detached hfront hback, dropWhile_append_of_detached hfront hback⟩

end Space

section Names

variable {text rest : List Char}

theorem isTagName_iff
    {name : List Char} :
    isTagName name = true ↔ IsName name := by
  cases name with
  | nil =>
      simp [isTagName, IsName]
  | cons c rest =>
      simp [isTagName, IsName, and_assoc]

/-- What comes behind the longest word does not go on with it. -/
theorem exists_of_word?
    {word : List Char} (h : Text.word? text = some word) :
    ∃ rest, text = word ++ rest ∧ Unlettered rest := by
  obtain ⟨c, tail, rfl, hc⟩ := exists_cons_of_word? h
  rw [Text.word?, if_pos hc] at h
  obtain rfl := Option.some.inj h
  obtain ⟨-, hrest, htail⟩ := takeWhile_dropWhile_iff.1 ⟨rfl, rfl⟩
  exact ⟨_, congrArg (c :: ·) htail, hrest⟩

/-- A text begins with a tag name if the rest does not go on with that name. -/
theorem tagName?_eq_some_iff
    {name : Name} :
    tagName? text = some (name, rest) ↔
      isTagName name.text.toList = true ∧ Unlettered rest ∧ text = name.text.toList ++ rest := by
  constructor
  · intro h
    unfold tagName? at h
    split at h
    case h_2 =>
      cases h
    case h_1 word hword =>
      obtain ⟨found, hfound, heq⟩ := Option.map_eq_some_iff.1 h
      obtain ⟨rfl, rfl⟩ := Prod.mk.inj heq
      have htext : found.text = String.ofList word := by
        unfold Name.ofString? at hfound
        split at hfound
        case isFalse =>
          cases hfound
        case isTrue =>
          rw [← Option.some.inj hfound]
      obtain ⟨rest, rfl, hrest⟩ := exists_of_word? hword
      rw [htext, String.toList_ofList, List.drop_left]
      exact ⟨isTagName_iff.2 (isName_of_word? hword), hrest, rfl⟩
  · rintro ⟨hname, hrest, rfl⟩
    have hword := word?_append (isTagName_iff.1 hname) hrest
    have hof : Name.ofString? name.text = some name := by
      simp [Name.ofString?, name.nonempty]
    simp [tagName?, hword, hof]

/-- A text begins with the name of a tag attribute if the rest does not go on with that name. -/
theorem attributeName?_eq_some_iff
    {name : List Char} :
    attributeName? text = some (name, rest) ↔
      isAttributeName name = true ∧ (∀ c ∈ rest.head?, Text.isAttributePart c = false) ∧
        text = name ++ rest := by
  constructor
  · intro h
    cases text with
    | nil =>
        cases h
    | cons c tail =>
        rw [attributeName?] at h
        split at h
        case isFalse =>
          cases h
        case isTrue hstart =>
          obtain ⟨rfl, rfl⟩ := Prod.mk.inj (Option.some.inj h)
          obtain ⟨hname, hrest, htail⟩ := takeWhile_dropWhile_iff.1 ⟨rfl, rfl⟩
          refine ⟨?_, hrest, congrArg (c :: ·) htail⟩
          rw [isAttributeName, hstart, Bool.true_and, List.all_eq_true]
          exact hname
  · rintro ⟨hname, hrest, rfl⟩
    cases name with
    | nil =>
        cases hname
    | cons c tail =>
        simp only [isAttributeName, Bool.and_eq_true, List.all_eq_true] at hname
        obtain ⟨htake, hdrop⟩ := takeWhile_dropWhile_iff.2 ⟨hname.2, hrest, rfl⟩
        rw [List.cons_append, attributeName?, if_pos hname.1, htake, hdrop]

end Names

section Values

variable {text rest value : List Char}

/-- A text leads up to the first quote character in it. -/
theorem upTo?_eq_some_iff
    {quote : Char} :
    upTo? quote text = some (value, rest) ↔ quote ∉ value ∧ text = value ++ quote :: rest := by
  constructor
  · intro h
    induction text generalizing value with
    | nil =>
        cases h
    | cons c tail ih =>
        rw [upTo?] at h
        split at h
        case isTrue hc =>
          obtain ⟨rfl, rfl⟩ := Prod.mk.inj (Option.some.inj h)
          exact ⟨List.not_mem_nil, congrArg (· :: tail) hc⟩
        case isFalse hne =>
          obtain ⟨⟨inner, behind⟩, hinner, heq⟩ := Option.map_eq_some_iff.1 h
          obtain ⟨rfl, rfl⟩ := Prod.mk.inj heq
          obtain ⟨hfree, rfl⟩ := ih hinner
          exact ⟨List.not_mem_cons_of_ne_of_not_mem (Ne.symm hne) hfree, rfl⟩
  · rintro ⟨hfree, rfl⟩
    induction value with
    | nil =>
        simp [upTo?]
    | cons c value ih =>
        rw [List.mem_cons, not_or] at hfree
        simp [upTo?, Ne.symm hfree.1, ih hfree.2]

/-- A text begins with a value exactly if it begins with a rendition of that value. -/
theorem attributeValue?_eq_some_iff :
    attributeValue? text = some (value, rest) ↔
      ∃ quoted, RendersValue value quoted ∧ text = quoted ++ rest := by
  constructor
  · intro h
    cases text with
    | nil =>
        cases h
    | cons quote tail =>
        rw [attributeValue?] at h
        split at h
        case isFalse =>
          cases h
        case isTrue hquote =>
          obtain ⟨hfree, rfl⟩ := upTo?_eq_some_iff.1 h
          simp only [Bool.or_eq_true, decide_eq_true_eq] at hquote
          rcases hquote with rfl | rfl
          · exact ⟨_, .double hfree, by simp⟩
          · exact ⟨_, .single hfree, by simp⟩
  · rintro ⟨quoted, hvalue, rfl⟩
    cases hvalue with
    | double hfree =>
        simpa [attributeValue?] using upTo?_eq_some_iff.2 ⟨hfree, rfl⟩
    | single hfree =>
        simpa [attributeValue?] using upTo?_eq_some_iff.2 ⟨hfree, rfl⟩

/-- A rendition of a value begins with a quote character. -/
theorem RendersValue.not_isSpace
    {quoted : List Char} (h : RendersValue value quoted) :
    ∀ c ∈ (quoted ++ rest).head?, Text.isSpace c = false := by
  have hdouble : Text.isSpace '"' = false := by decide
  have hsingle : Text.isSpace '\x27' = false := by decide
  cases h with
  | double =>
      simpa using hdouble
  | single =>
      simpa using hsingle

/-- A value that stands between quotes of one kind does not hold both kinds. -/
theorem RendersValue.isQuotable
    {quoted : List Char} (h : RendersValue value quoted) :
    isQuotable value = true := by
  cases h with
  | double hfree =>
      simp [Markup.isQuotable, hfree]
  | single hfree =>
      simp [Markup.isQuotable, hfree]

end Values

section Tags

variable {text rest : List Char}

/-- The name of a tag attribute begins with no white space. -/
theorem not_isSpace_of_isAttributeName
    {name : List Char} (h : isAttributeName name = true) (text : List Char) :
    ∀ c ∈ (name ++ text).head?, Text.isSpace c = false := by
  cases name with
  | nil =>
      cases h
  | cons first tail =>
      rw [isAttributeName, Bool.and_eq_true] at h
      simpa using not_isSpace_of_isAttributeStart h.1

/-- A text begins with a tag attribute exactly if it begins with a rendition of it. -/
theorem tagAttribute?_eq_some_iff
    {tag : TagAttribute} :
    tagAttribute? text = some (tag, rest) ↔
      ∃ front, RendersAttribute tag front ∧ text = front ++ rest := by
  constructor
  · intro h
    unfold tagAttribute? at h
    split at h
    case h_1 =>
      cases h
    case h_2 name behindName hname =>
      split at h
      case h_2 =>
        cases h
      case h_1 behindSign hsign =>
        obtain ⟨⟨value, behind⟩, hvalue, heq⟩ := Option.map_eq_some_iff.1 h
        obtain ⟨rfl, rfl⟩ := Prod.mk.inj heq
        obtain ⟨hname, -, hskipped⟩ := attributeName?_eq_some_iff.1 hname
        obtain ⟨quoted, hquoted, hskippedSign⟩ := attributeValue?_eq_some_iff.1 hvalue
        obtain ⟨front, hfront, htext⟩ := exists_spacing text
        obtain ⟨space, hspace, hbehindName⟩ := exists_spacing behindName
        obtain ⟨spaceSign, hspaceSign, hbehindSign⟩ := exists_spacing behindSign
        refine ⟨_, .mk hfront (by simpa using hname) hspace hspaceSign
          (by simpa using hquoted), ?_⟩
        rw [htext, hskipped, hbehindName, hsign, hbehindSign, hskippedSign]
        simp
  · rintro ⟨front, htag, rfl⟩
    cases htag with
    | @mk name value front behindName behindSign quoted hfront hname hbehindName hbehindSign
        hvalue =>
        let behind := '=' :: (behindSign ++ (quoted ++ rest))
        have hskip : skipSpace (front ++ (name.toList ++ (behindName ++ behind))) =
            name.toList ++ (behindName ++ behind) :=
          skipSpace_append hfront (not_isSpace_of_isAttributeName hname _)
        have hread : attributeName? (name.toList ++ (behindName ++ behind)) =
            some (name.toList, behindName ++ behind) := by
          refine attributeName?_eq_some_iff.2 ⟨hname, ?_, rfl⟩
          have hsign : Text.isAttributePart '=' = false := by decide
          exact hbehindName.head (fun c => not_isAttributePart_of_isSpace)
            (by simpa [behind] using hsign)
        have hsign : skipSpace (behindName ++ behind) = behind :=
          skipSpace_append_cons hbehindName (by decide)
        have hquote : skipSpace (behindSign ++ (quoted ++ rest)) = quoted ++ rest :=
          skipSpace_append hbehindSign hvalue.not_isSpace
        have hread' : attributeValue? (quoted ++ rest) = some (value.toList, rest) :=
          attributeValue?_eq_some_iff.2 ⟨quoted, hvalue, rfl⟩
        simp only [tagAttribute?, List.append_assoc, List.cons_append, hskip, hread, hsign, behind,
          hquote, hread', Option.map_some, String.ofList_toList]

theorem tagAttributes_of_none
    (h : tagAttribute? text = none) :
    tagAttributes text = ([], text) := by
  rw [tagAttributes]
  split
  case h_1 =>
    rfl
  case h_2 first rest hfirst =>
    rw [h] at hfirst
    cases hfirst

theorem tagAttributes_of_some
    {first : TagAttribute} (h : tagAttribute? text = some (first, rest)) :
    tagAttributes text = (first :: (tagAttributes rest).1, (tagAttributes rest).2) := by
  rw [tagAttributes]
  split
  case h_1 hnone =>
    rw [h] at hnone
    cases hnone
  case h_2 first' rest' hsome =>
    rw [h] at hsome
    obtain ⟨rfl, rfl⟩ := Prod.mk.inj (Option.some.inj hsome)
    rfl

/-- All tag attributes are taken from a text exactly if it begins with a rendition of them, and none
stands behind that. -/
theorem tagAttributes_eq_iff
    {attributes : List TagAttribute} :
    tagAttributes text = (attributes, rest) ↔
      ∃ front, RendersAttributes attributes front ∧ tagAttribute? rest = none ∧
        text = front ++ rest := by
  constructor
  · intro h
    fun_induction tagAttributes text generalizing attributes rest with
    | case1 text hnone =>
        obtain ⟨rfl, rfl⟩ := Prod.mk.inj h
        exact ⟨[], .nil, hnone, rfl⟩
    | case2 text first behind hfirst _ later last hlater ih =>
        obtain ⟨rfl, rfl⟩ := Prod.mk.inj h
        obtain ⟨piece, hpiece, rfl⟩ := tagAttribute?_eq_some_iff.1 hfirst
        obtain ⟨front, hfront, hnone, rfl⟩ := ih hlater
        exact ⟨piece ++ front, .cons hpiece hfront, hnone, (List.append_assoc ..).symm⟩
  · rintro ⟨front, hattributes, hnone, rfl⟩
    induction hattributes with
    | nil =>
        exact tagAttributes_of_none hnone
    | @cons tag later front back htag _ ih =>
        have hfirst : tagAttribute? (front ++ (back ++ rest)) = some (tag, back ++ rest) :=
          tagAttribute?_eq_some_iff.2 ⟨front, htag, rfl⟩
        rw [List.append_assoc, tagAttributes_of_some hfirst, ih]

theorem RendersAttribute.isWritable
    {tag : TagAttribute} (h : RendersAttribute tag text) :
    tag.isWritable = true := by
  cases h with
  | mk _ hname _ _ hvalue =>
      rw [TagAttribute.isWritable, hname, hvalue.isQuotable, Bool.true_and]

theorem RendersAttributes.isWritable
    {attributes : List TagAttribute} (h : RendersAttributes attributes text) :
    attributes.all TagAttribute.isWritable = true := by
  induction h with
  | nil =>
      rfl
  | cons htag _ ih =>
      rw [List.all_cons, htag.isWritable, ih, Bool.true_and]

/-- The tag attributes that are taken from a text can be read again. -/
theorem isWritable_tagAttributes
    (text : List Char) :
    (tagAttributes text).1.all TagAttribute.isWritable = true := by
  obtain ⟨front, hfront, -⟩ := tagAttributes_eq_iff.1 (Eq.refl (tagAttributes text))
  exact hfront.isWritable

/-- A tag ends with a bracket, and a slash in front of it if the element ends there. -/
theorem tagEnd?_eq_some_iff
    {closed : Bool} :
    tagEnd? text = some (closed, rest) ↔
      ∃ space, IsSpacing space ∧ text = space ++ (tagMark closed ++ rest) := by
  constructor
  · intro h
    obtain ⟨space, hspace, htext⟩ := exists_spacing text
    unfold tagEnd? at h
    split at h
    case h_1 behind hend =>
      obtain ⟨rfl, rfl⟩ := Prod.mk.inj (Option.some.inj h)
      exact ⟨space, hspace, by rw [htext, hend]; rfl⟩
    case h_2 behind hend =>
      obtain ⟨rfl, rfl⟩ := Prod.mk.inj (Option.some.inj h)
      exact ⟨space, hspace, by rw [htext, hend]; rfl⟩
    case h_3 =>
      cases h
  · rintro ⟨space, hspace, rfl⟩
    cases closed with
    | true =>
        have hskip : skipSpace (space ++ '/' :: '>' :: rest) = '/' :: '>' :: rest :=
          skipSpace_append_cons hspace (by decide)
        simp [tagEnd?, tagMark, hskip]
    | false =>
        have hskip : skipSpace (space ++ '>' :: rest) = '>' :: rest :=
          skipSpace_append_cons hspace (by decide)
        simp [tagEnd?, tagMark, hskip]

/-- Behind white space and the mark of its end, a tag has no more tag attributes. -/
theorem tagAttribute?_tagMark
    {space : List Char} (hspace : IsSpacing space) (closed : Bool) :
    tagAttribute? (space ++ (tagMark closed ++ rest)) = none := by
  have hnone {c : Char} {behind : List Char} (hc : Text.isSpace c = false)
      (hstart : Text.isAttributeStart c = false) :
      tagAttribute? (space ++ c :: behind) = none := by
    simp [tagAttribute?, skipSpace_append_cons hspace hc, attributeName?, hstart]
  cases closed with
  | true =>
      exact hnone (by decide) (by decide)
  | false =>
      exact hnone (by decide) (by decide)

/-- A closing tag goes on behind its slash with the name of the element, white space and a bracket.
A name with white space in it cannot stand there. -/
theorem closingTag?_eq_some_iff
    {name : Name} (hname : isTagName name.text.toList = true) :
    closingTag? name text = some rest ↔
      name.text.toList.all (fun c => !Text.isSpace c) = true ∧
        ∃ space, IsSpacing space ∧ text = name.text.toList ++ (space ++ '>' :: rest) := by
  constructor
  · intro h
    unfold closingTag? at h
    simp only at h
    split at h
    case isFalse =>
      cases h
    case isTrue hsame =>
      split at h
      case h_2 =>
        cases h
      case h_1 behind hend =>
        obtain rfl := Option.some.inj h
        obtain ⟨hpart, -, htext⟩ := takeWhile_dropWhile_iff.1 ⟨rfl, rfl⟩
        obtain ⟨space, hspace, hskipped⟩ := exists_spacing (text.dropWhile _)
        rw [hend] at hskipped
        rw [← hsame, String.toList_ofList, List.all_eq_true]
        refine ⟨fun c hc => ?_, space, hspace, htext.trans (congrArg (_ ++ ·) hskipped)⟩
        have hc := hpart c hc
        rw [Bool.and_eq_true] at hc
        exact hc.1
  · rintro ⟨hplain, space, hspace, rfl⟩
    let isNamePart := fun c => !Text.isSpace c && decide (c ≠ '>')
    have hpart : ∀ c ∈ name.text.toList, isNamePart c = true := by
      intro c hc
      have hword := isWordPart_of_mem_name (isTagName_iff.1 hname) c hc
      have hbracket : c ≠ '>' := by
        rintro rfl
        exact absurd hword (by decide)
      simpa [isNamePart, hbracket] using List.all_eq_true.1 hplain c hc
    have hbehind : ∀ c ∈ (space ++ '>' :: rest).head?, isNamePart c = false :=
      hspace.head (fun c hc => by simp [isNamePart, hc]) (by simp [isNamePart])
    obtain ⟨htake, hdrop⟩ := takeWhile_dropWhile_iff.2 ⟨hpart, hbehind, rfl⟩
    have hskip : skipSpace (space ++ '>' :: rest) = '>' :: rest :=
      skipSpace_append_cons hspace (by decide)
    unfold closingTag?
    simp only [isNamePart] at htake hdrop
    simp only [htake, hdrop, hskip, String.ofList_toList, if_true]

theorem RendersTag.isTagName
    {name : Name} {attributes : List TagAttribute} {tag : List Char}
    (h : RendersTag name attributes tag) :
    Markup.isTagName name.text.toList = true := by
  cases h with
  | mk hname _ _ _ =>
      exact hname

/-- The inside of a tag, its end and what comes behind are taken apart as they were put together. -/
theorem RendersTag.read
    {name : Name} {attributes : List TagAttribute} {tag : List Char}
    (h : RendersTag name attributes tag) (closed : Bool) (rest : List Char) :
    ∃ behindName behind,
      tagName? (tag ++ (tagMark closed ++ rest)) = some (name, behindName) ∧
        tagAttributes behindName = (attributes, behind) ∧ tagEnd? behind = some (closed, rest) := by
  cases h with
  | @mk tags space hname htags hspace hbehind =>
      refine ⟨tags ++ (space ++ (tagMark closed ++ rest)), space ++ (tagMark closed ++ rest),
        tagName?_eq_some_iff.2 ⟨hname, ?_, by simp⟩,
        tagAttributes_eq_iff.2 ⟨tags, htags, tagAttribute?_tagMark hspace closed, rfl⟩,
        tagEnd?_eq_some_iff.2 ⟨space, hspace, rfl⟩⟩
      have hmark : Unlettered (tagMark closed ++ rest) := by
        cases closed <;> exact unlettered_cons (by decide)
      rw [← List.append_assoc]
      cases hfront : tags ++ space with
      | nil =>
          exact hmark
      | cons c front =>
          rw [hfront] at hbehind
          exact unlettered_cons (hbehind c rfl)

/-- What was taken as an opening tag is the inside of a tag and its end. -/
theorem exists_rendersTag
    {name : Name} {behindName : List Char} {closed : Bool}
    (hname : tagName? text = some (name, behindName))
    (hend : tagEnd? (tagAttributes behindName).2 = some (closed, rest)) :
    ∃ tag, RendersTag name (tagAttributes behindName).1 tag ∧
      text = tag ++ (tagMark closed ++ rest) := by
  obtain ⟨hletters, hbehind, htext⟩ := tagName?_eq_some_iff.1 hname
  obtain ⟨tags, htags, -, hbehindName⟩ :=
    tagAttributes_eq_iff.1 (Eq.refl (tagAttributes behindName))
  obtain ⟨space, hspace, hbehindTags⟩ := tagEnd?_eq_some_iff.1 hend
  rw [hbehindTags, ← List.append_assoc] at hbehindName
  refine ⟨name.text.toList ++ (tags ++ space), .mk hletters htags hspace fun c hc => ?_, ?_⟩
  · refine hbehind c ?_
    rw [hbehindName, List.head?_append, Option.mem_def.1 hc]
    rfl
  · rw [htext, List.append_assoc, ← hbehindName]

end Tags

section Brackets

theorem isRunChar_of_ne
    {p : Char → Bool} {c : Char} (hc : p c = true) (hopen : p '<' = false)
    (hclose : p '>' = false) :
    isRunChar c = true := by
  have hne : c ≠ '<' := by
    rintro rfl
    simp [hopen] at hc
  have hne' : c ≠ '>' := by
    rintro rfl
    simp [hclose] at hc
  exact isRunChar_iff.2 ⟨hne, hne'⟩

theorem isRunChar_of_isTagName
    {name : List Char} (h : isTagName name = true) :
    ∀ c ∈ name, isRunChar c = true :=
  fun c hc =>
    isRunChar_of_ne (isWordPart_of_mem_name (isTagName_iff.1 h) c hc) (by decide) (by decide)

theorem isRunChar_of_isAttributeName
    {name : List Char} (h : isAttributeName name = true) :
    ∀ c ∈ name, isRunChar c = true := by
  cases name with
  | nil =>
      simp [isAttributeName] at h
  | cons first rest =>
      simp only [isAttributeName, Bool.and_eq_true, List.all_eq_true] at h
      intro c hc
      refine isRunChar_of_ne (p := Text.isAttributePart) ?_ (by decide) (by decide)
      rcases List.mem_cons.1 hc with rfl | hc
      · exact Text.isAttributePart_of_isAttributeStart h.1
      · exact h.2 c hc

/-- A run of text goes on up to the next bracket. -/
theorem isRunChar_of_mem_run
    {c : Char} (hopen : c ≠ '<') (hclose : c ≠ '>') (rest : List Char) :
    ∀ d ∈ c :: rest.takeWhile isRunChar, isRunChar d = true := by
  rw [List.forall_mem_cons]
  exact ⟨isRunChar_iff.2 ⟨hopen, hclose⟩, fun d hd => List.mem_takeWhile_imp hd⟩

theorem IsSpacing.isRunChar
    {space : List Char} (h : IsSpacing space) :
    ∀ c ∈ space, isRunChar c = true :=
  fun c hc => isRunChar_of_ne (h c hc) (by decide) (by decide)

theorem RendersValue.isRunChar
    {value quoted : List Char} (h : RendersValue value quoted)
    (hplain : ∀ c ∈ value, isRunChar c = true) :
    ∀ c ∈ quoted, isRunChar c = true := by
  cases h with
  | double =>
      exact List.forall_mem_cons.2
        ⟨by decide, List.forall_mem_append.2 ⟨hplain, List.forall_mem_singleton.2 (by decide)⟩⟩
  | single =>
      exact List.forall_mem_cons.2
        ⟨by decide, List.forall_mem_append.2 ⟨hplain, List.forall_mem_singleton.2 (by decide)⟩⟩

/-- No tag attribute of some has an angle bracket in its value. -/
theorem RendersAttributes.isRunChar
    {attributes : List TagAttribute} {text : List Char} (h : RendersAttributes attributes text)
    (hplain : ∀ value ∈ attributes.map Prod.snd, isBracketFree value.toList = true) :
    ∀ c ∈ text, isRunChar c = true := by
  induction h with
  | nil =>
      simp
  | cons htag _ ih =>
      rw [List.map_cons, List.forall_mem_cons] at hplain
      rw [List.forall_mem_append]
      refine ⟨?_, ih hplain.2⟩
      cases htag with
      | mk hfront hname hbehindName hbehindSign hvalue =>
          have hvalue := hvalue.isRunChar (List.all_eq_true.1 hplain.1)
          simp only [List.forall_mem_append, List.forall_mem_cons]
          exact ⟨hfront.isRunChar, isRunChar_of_isAttributeName hname, hbehindName.isRunChar,
            by decide, hbehindSign.isRunChar, hvalue⟩

theorem RendersTag.isRunChar
    {name : Name} {attributes : List TagAttribute} {tag : List Char}
    (h : RendersTag name attributes tag)
    (hplain : ∀ value ∈ attributes.map Prod.snd, isBracketFree value.toList = true) :
    ∀ c ∈ tag, Markup.isRunChar c = true := by
  cases h with
  | mk hname htags hspace _ =>
      simp only [List.forall_mem_append]
      exact ⟨isRunChar_of_isTagName hname, htags.isRunChar hplain, hspace.isRunChar⟩

theorem balanced_of_all
    {text : List Char} (h : ∀ c ∈ text, isRunChar c = true) :
    Balanced text := by
  induction text with
  | nil =>
      exact .nil
  | cons c rest ih =>
      obtain ⟨hopen, hclose⟩ := isRunChar_iff.1 (h c List.mem_cons_self)
      exact .plain hopen hclose (ih fun d hd => h d (List.mem_cons_of_mem _ hd))

end Brackets

end Markup
end DotCascade
