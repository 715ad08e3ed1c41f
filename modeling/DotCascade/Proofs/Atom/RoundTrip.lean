import DotCascade.Proofs.Markup.RoundTrip
import DotCascade.Proofs.Reading.Scans

/-!
# Atoms are spelled by their written form

Between quotes, an escape-safe text is written so that decoding gives it back
(`decodeString_written`).  A faithful atom is therefore spelled by its written
form, as a string or as markup, whatever comes behind it (`stands_written`).
-/

namespace DotCascade

open Grammar Reading

section Texts

theorem quotable_written
    {value : List Char} (h : escapeSafe value = true) :
    Quotable (value.flatMap writtenTextChar) := by
  fun_induction escapeSafe value with
  | case1 c rest ih =>
      simp only [Bool.and_eq_true, decide_eq_true_eq] at h
      simpa [writtenTextChar, h.1.1] using Quotable.pair (ih h.2)
  | case2 =>
      simp at h
  | case3 c rest hpair hlast ih =>
      have hslash := ne_backslash hpair hlast
      rw [List.flatMap_cons, writtenTextChar]
      split
      case isTrue hquote =>
        exact .pair (ih h)
      case isFalse hquote =>
        exact .plain hquote hslash (ih h)
  | case4 =>
      exact .nil

/-- Decoding takes back what writing a text did. -/
theorem decodeString_written
    {value : List Char} (h : escapeSafe value = true) :
    decodeString (value.flatMap writtenTextChar) = value := by
  fun_induction escapeSafe value with
  | case1 c rest ih =>
      simp only [Bool.and_eq_true, decide_eq_true_eq] at h
      obtain ⟨⟨hquote, hfeed⟩, hrest⟩ := h
      have hwritten :
          ('\\' :: c :: rest).flatMap writtenTextChar =
            '\\' :: c :: rest.flatMap writtenTextChar := by
        simp [writtenTextChar, hquote]
      rw [hwritten, decodeString, ih hrest]
      · exact hquote
      · exact hfeed
  | case2 =>
      simp at h
  | case3 c rest hpair hlast ih =>
      have hslash := ne_backslash hpair hlast
      rw [List.flatMap_cons, writtenTextChar]
      split
      case isTrue hquote =>
        rw [hquote]
        simp [decodeString, ih h]
      case isFalse hquote =>
        simp [decodeString, hslash, ih h]
  | case4 =>
      rfl

end Texts

namespace Atom

/-- The word that an atom is written as. -/
def word : Atom → Word
  | text value => ⟨.string, value⟩
  | markup nodes => ⟨.markup, nodes⟩

/-- A faithful atom is spelled by its written form, whatever comes behind it. -/
theorem stands_written
    {atom : Atom} (h : atom.isFaithful = true) (text : List Char) :
    Stands atom.word atom.written text := by
  cases atom with
  | text value =>
      have hspelling : Spelling .string (written (.text value)) :=
        ⟨_, rfl, quotable_written h⟩
      refine stands_of_spelling hspelling (Or.inl rfl) ?_
      have hinner :
          (written (.text value)).tail.dropLast = value.toList.flatMap writtenTextChar := by
        simp [written]
      simp only [word, lexeme, hinner, decodeString_written h, String.ofList_toList]
  | markup nodes =>
      have hprintable := h
      simp only [isFaithful, Markup.isPrintable, Bool.and_eq_true] at hprintable
      have hspelling : Spelling .markup (written (.markup nodes)) :=
        ⟨_, rfl, Markup.balanced_written hprintable.1.2 hprintable.2⟩
      exact stands_of_spelling hspelling (Or.inl rfl) (Markup.ofWord_written h)

end Atom

end DotCascade
