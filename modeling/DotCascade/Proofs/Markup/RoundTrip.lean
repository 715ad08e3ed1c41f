import DotCascade.Atom.Written
import DotCascade.Markup.Written
import DotCascade.Proofs.Markup.Rendition

/-!
# Markup is read as it was written

The written form of nodes that tags can hold is one of their renditions
(`renditions_written`).  So it is read as the same nodes if these are normal
(`ofWord_written`), and its brackets balance if no value of a tag attribute holds
one (`balanced_written`): the word ends where the outermost bracket is closed.
-/

namespace DotCascade
namespace Markup

open Reading

section Tags

/-- A value is written between quotes that it does not hold. -/
theorem rendersValue_written
    {value : String} (h : isQuotable value.toList = true) :
    RendersValue value.toList (writtenValue value) := by
  unfold writtenValue
  by_cases hdouble : '"' ∈ value.toList
  · have hsingle : '\x27' ∉ value.toList := by
      simpa [isQuotable, hdouble] using h
    simpa [hdouble] using RendersValue.single hsingle
  · simpa [hdouble] using RendersValue.double hdouble

theorem rendersAttributes_written
    {attributes : List TagAttribute} (h : attributes.all TagAttribute.isWritable = true) :
    RendersAttributes attributes (writtenAttributes attributes) := by
  induction attributes with
  | nil =>
      exact .nil
  | cons first later ih =>
      obtain ⟨name, value⟩ := first
      simp only [List.all_cons, TagAttribute.isWritable, Bool.and_eq_true] at h
      obtain ⟨⟨hname, hvalue⟩, hlater⟩ := h
      have htag := RendersAttribute.mk isSpacing_blank hname isSpacing_nil isSpacing_nil
        (rendersValue_written hvalue)
      simpa [writtenAttributes] using RendersAttributes.cons htag (ih hlater)

theorem rendersTag_written
    {name : Name} {attributes : List TagAttribute}
    (hname : isTagName name.text.toList = true)
    (hattributes : attributes.all TagAttribute.isWritable = true) :
    RendersTag name attributes (name.text.toList ++ (writtenAttributes attributes ++ [])) := by
  refine .mk hname (rendersAttributes_written hattributes) isSpacing_nil ?_
  cases attributes with
  | nil =>
      exact unlettered_nil
  | cons first later =>
      exact unlettered_cons (by decide)

end Tags

section Written

theorem writtenRun_eq
    {run : String} (h : run.toList.all isRunChar = true) :
    writtenRun run = run.toList := by
  unfold writtenRun
  generalize run.toList = chars at h
  induction chars with
  | nil =>
      rfl
  | cons c rest ih =>
      simp only [List.all_cons, Bool.and_eq_true] at h
      obtain ⟨hc, hrest⟩ := h
      rw [isRunChar_iff] at hc
      rw [List.flatMap_cons, ih hrest, writtenChar, if_neg hc.1, if_neg hc.2]
      rfl

/-- The written form of nodes is one of their renditions. -/
theorem renditions_written :
    (nodes : List Node) → isWritable nodes = true → Renditions nodes (written nodes)
  | [], _ => .nil
  | .text run :: later, h => by
      simp only [isWritable, Node.isWritable, Bool.and_eq_true] at h
      rw [written, Node.written, writtenRun_eq h.1]
      exact .run h.1 (renditions_written later h.2)
  | .element name attributes [] :: later, h => by
      simp only [isWritable, Node.isWritable, Bool.and_eq_true] at h
      obtain ⟨⟨⟨⟨hname, _⟩, hattributes⟩, _⟩, hlater⟩ := h
      simpa [written, Node.written] using
        Renditions.single (rendersTag_written hname hattributes) (renditions_written later hlater)
  | .element name attributes (child :: children) :: later, h => by
      rw [isWritable, Node.isWritable] at h
      simp only [List.isEmpty_cons, Bool.false_or, Bool.and_eq_true] at h
      obtain ⟨⟨⟨⟨hname, hplain⟩, hattributes⟩, hchildren⟩, hlater⟩ := h
      simpa [written, Node.written] using
        Renditions.paired (rendersTag_written hname hattributes)
          (renditions_written (child :: children) hchildren) hplain isSpacing_nil
          (renditions_written later hlater)

/-- A printable list of nodes is read from its word. -/
theorem ofWord_written
    {nodes : List Node} (h : isPrintable nodes = true) :
    ofWord (Atom.written (.markup nodes)) = .ok nodes := by
  simp only [isPrintable, Bool.and_eq_true] at h
  exact ofWord_of_renditions (renditions_written nodes h.1.2) h.1.1

/-- The brackets of the written form of nodes balance. -/
theorem balanced_written
    {nodes : List Node} (hwritable : isWritable nodes = true) (hplain : hasPlainTags nodes = true) :
    Balanced (written nodes) :=
  (renditions_written nodes hwritable).balanced (List.all_eq_true.1 hplain)

end Written

end Markup
end DotCascade
