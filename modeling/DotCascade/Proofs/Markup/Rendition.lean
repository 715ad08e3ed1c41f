import DotCascade.Proofs.Markup.Normal
import DotCascade.Proofs.Markup.Parts

/-!
# Renditions of markup

`Renditions` says in which ways nodes can stand in a source: a run of text as it
is, an element as a tag or as two tags with a rendition of its children between
them.  White space inside the tags and the quotes around the values of tag
attributes are left open.

Reading finds the nodes of every rendition of normal nodes
(`readNodes_of_renditions`), and what has been read at some place is a rendition
of the nodes found so far (`Before`).  So a word is read as some nodes exactly if
it holds a rendition of these nodes between its outer brackets
(`ofWord_eq_ok_iff`).
-/

namespace DotCascade
namespace Markup

open Reading

/-- Nodes in one of the ways in which they can stand in a source. -/
inductive Renditions : List Node → List Char → Prop
  | nil : Renditions [] []
  | run
      {run : String} {later : List Node} {text : List Char}
      (hrun : run.toList.all isRunChar = true)
      (hlater : Renditions later text) :
      Renditions (.text run :: later) (run.toList ++ text)
  | single
      {name : Name} {attributes : List TagAttribute} {later : List Node} {tag text : List Char}
      (htag : RendersTag name attributes tag)
      (hlater : Renditions later text) :
      Renditions (.element name attributes [] :: later) ('<' :: (tag ++ '/' :: '>' :: text))
  | paired
      {name : Name} {attributes : List TagAttribute} {children later : List Node}
      {tag body space text : List Char}
      (htag : RendersTag name attributes tag)
      (hchildren : Renditions children body)
      (hplain : name.text.toList.all (fun c => !Text.isSpace c) = true)
      (hspace : IsSpacing space)
      (hlater : Renditions later text) :
      Renditions (.element name attributes children :: later)
        ('<' :: (tag ++ '>' ::
          (body ++ '<' :: '/' :: (name.text.toList ++ (space ++ '>' :: text)))))

theorem Renditions.append
    {nodes later : List Node} {text behind : List Char}
    (h : Renditions nodes text) (hlater : Renditions later behind) :
    Renditions (nodes ++ later) (text ++ behind) := by
  induction h with
  | nil =>
      exact hlater
  | run hrun _ ih =>
      simpa using Renditions.run hrun ih
  | single htag _ ih =>
      simpa using Renditions.single htag ih
  | paired htag hchildren hplain hspace _ _ ih =>
      simpa using Renditions.paired htag hchildren hplain hspace ih

section Completeness

/-- The next character is an angle bracket. -/
def AtBracket (text : List Char) : Prop :=
  ∃ c rest, text = c :: rest ∧ isRunChar c = false

variable (openElements : List OpenElement) (before : List Node)

theorem readNodes_run
    {run : String} {text : List Char}
    (hne : run ≠ "") (hrun : run.toList.all isRunChar = true) (htext : AtBracket text) :
    readNodes openElements before (run.toList ++ text) =
      readNodes openElements (.text run :: before) text := by
  obtain ⟨c, rest, hlist⟩ := List.exists_cons_of_ne_nil fun h => hne (String.toList_eq_nil_iff.1 h)
  obtain ⟨bracket, behind, rfl, hbracket⟩ := htext
  rw [hlist] at hrun ⊢
  simp only [List.all_cons, Bool.and_eq_true, List.all_eq_true] at hrun
  obtain ⟨hc, hrest⟩ := hrun
  obtain ⟨htake, hdrop⟩ :=
    takeWhile_dropWhile_iff.2 ⟨hrest, by simpa using hbracket, Eq.refl (rest ++ bracket :: behind)⟩
  rw [isRunChar_iff] at hc
  rw [List.cons_append, readNodes]
  · rw [htake, hdrop, ← hlist, String.ofList_toList]
  all_goals simp_all

/-- A tag stands behind an opening bracket. -/
theorem readNodes_renderedTag
    {name : Name} {attributes : List TagAttribute} {tag : List Char}
    (htag : RendersTag name attributes tag) (closed : Bool) (text : List Char) :
    readNodes openElements before ('<' :: (tag ++ (tagMark closed ++ text))) =
      if closed then readNodes openElements (.element name attributes [] :: before) text
      else readNodes (⟨name, attributes, before⟩ :: openElements) [] text := by
  obtain ⟨behindName, behind, hname, hattributes, hend⟩ := htag.read closed text
  generalize tag ++ (tagMark closed ++ text) = rest at hname
  have hslash : ∀ later, rest = '/' :: later → False := by
    rintro later rfl
    simp [tagName?, Text.word?, Text.isWordStart, Text.isWideLetter] at hname
  rw [readNodes]
  · split
    case h_1 hnone =>
      rw [hname] at hnone
      cases hnone
    case h_2 name' behindName' hsome =>
      rw [hname] at hsome
      obtain ⟨rfl, rfl⟩ := Prod.mk.inj (Option.some.inj hsome)
      simp only [hattributes]
      split
      case h_1 hnone =>
        rw [hattributes, hend] at hnone
        cases hnone
      case h_2 behind' hclosed =>
        rw [hattributes, hend] at hclosed
        obtain ⟨rfl, rfl⟩ := Prod.mk.inj (Option.some.inj hclosed)
        rfl
      case h_3 behind' hopen =>
        rw [hattributes, hend] at hopen
        obtain ⟨rfl, rfl⟩ := Prod.mk.inj (Option.some.inj hopen)
        rfl
  · exact hslash

/-- A closing tag closes the innermost open element. -/
theorem readNodes_renderedClosingTag
    (element : OpenElement) {space : List Char} (text : List Char)
    (hname : isTagName element.name.text.toList = true)
    (hplain : element.name.text.toList.all (fun c => !Text.isSpace c) = true)
    (hspace : IsSpacing space) :
    readNodes (element :: openElements) before
        ('<' :: '/' :: (element.name.text.toList ++ (space ++ '>' :: text))) =
      readNodes openElements (element.close before :: element.before) text := by
  have hclosing :
      closingTag? element.name (element.name.text.toList ++ (space ++ '>' :: text)) = some text :=
    (closingTag?_eq_some_iff hname).2 ⟨hplain, space, hspace, rfl⟩
  rw [readNodes]
  split
  case h_1 hnone =>
    rw [hclosing] at hnone
    cases hnone
  case h_2 behind hsome =>
    rw [hclosing] at hsome
    obtain rfl := Option.some.inj hsome
    rfl

/-- Nodes that do not begin with a run of text are rendered from a bracket on. -/
theorem Renditions.atBracket
    {nodes : List Node} {body text : List Char} (h : Renditions nodes body)
    (hhead : nodes.head?.any Node.isRun = false) (htext : AtBracket text) :
    AtBracket (body ++ text) := by
  cases h with
  | nil =>
      exact htext
  | run =>
      simp [Node.isRun] at hhead
  | single =>
      exact ⟨'<', _, rfl, by decide⟩
  | paired =>
      exact ⟨'<', _, rfl, by decide⟩

/-- Normal nodes are found in each of their renditions. -/
theorem readNodes_of_renditions
    {nodes : List Node} {body : List Char} (h : Renditions nodes body)
    (hnormal : isNormal nodes = true) {text : List Char} (htext : AtBracket text) :
    readNodes openElements before (body ++ text) =
      readNodes openElements (nodes.reverse ++ before) text := by
  induction h generalizing openElements before text with
  | nil =>
      rfl
  | @run run later body hrun hlater ih =>
      simp only [isNormal, Node.isNormal, Node.isRun, Bool.true_and, Bool.and_eq_true,
        decide_eq_true_eq, Bool.not_eq_true'] at hnormal
      obtain ⟨⟨hne, hnormal⟩, hbeside⟩ := hnormal
      rw [List.append_assoc,
        readNodes_run openElements before hne hrun (hlater.atBracket hbeside htext),
        ih _ _ hnormal htext]
      simp
  | @single name attributes later tag body htag _ ih =>
      simp only [isNormal, Node.isNormal, Node.isRun, Bool.and_eq_true] at hnormal
      have hread := readNodes_renderedTag openElements before htag true (body ++ text)
      simp only [List.cons_append, List.append_assoc]
      refine hread.trans ?_
      rw [if_pos rfl, ih _ _ hnormal.1.2 htext]
      simp
  | @paired name attributes children later tag inner space body htag hchildren hplain hspace _
      ihchildren ih =>
      simp only [isNormal, Node.isNormal, Node.isRun, Bool.and_eq_true] at hnormal
      let element : OpenElement := ⟨name, attributes, before⟩
      let closing := '<' :: '/' :: (name.text.toList ++ (space ++ '>' :: (body ++ text)))
      have hopening := readNodes_renderedTag openElements before htag false (inner ++ closing)
      have hbracket : AtBracket closing := ⟨'<', _, rfl, by decide⟩
      have hinner := ihchildren (element :: openElements) [] hnormal.1.1 hbracket
      have hclosing :=
        readNodes_renderedClosingTag openElements (children.reverse ++ []) element (body ++ text)
          htag.isTagName hplain hspace
      have hclose : element.close (children.reverse ++ []) = .element name attributes children := by
        simp [element, OpenElement.close]
      simp only [List.cons_append, List.append_assoc]
      refine hopening.trans ?_
      rw [if_neg (by decide), hinner, hclosing, hclose, ih _ _ hnormal.1.2 htext]
      simp [element]

/-- Normal nodes are found in each of their renditions between two brackets. -/
theorem ofWord_of_renditions
    {nodes : List Node} {body : List Char} (h : Renditions nodes body)
    (hnormal : isNormal nodes = true) :
    ofWord ('<' :: (body ++ ['>'])) = .ok nodes := by
  have hbracket : AtBracket ['>'] := ⟨'>', [], rfl, by decide⟩
  rw [ofWord, List.tail_cons, readNodes_of_renditions [] [] h hnormal hbracket]
  simp [readNodes]

end Completeness

section Soundness

/-- What stands in front of some place, given the elements that are open there and the nodes in
front of it in the innermost one, the last one first. -/
inductive Before : List OpenElement → List Node → List Char → Prop
  | outermost
      {before : List Node} {text : List Char}
      (h : Renditions before.reverse text) :
      Before [] before text
  | inside
      {element : OpenElement} {outer : List OpenElement} {before : List Node}
      {front tag text : List Char}
      (houter : Before outer element.before front)
      (htag : RendersTag element.name element.attributes tag)
      (h : Renditions before.reverse text) :
      Before (element :: outer) before (front ++ '<' :: (tag ++ '>' :: text))

/-- One more node can stand at a place. -/
theorem Before.cons
    {openElements : List OpenElement} {before : List Node} {front text : List Char} {node : Node}
    (h : Before openElements before front) (hnode : Renditions [node] text) :
    Before openElements (node :: before) (front ++ text) := by
  cases h with
  | outermost h =>
      refine .outermost ?_
      rw [List.reverse_cons]
      exact h.append hnode
  | @inside element outer _ front tag body houter htag h =>
      have hgrown : Renditions (node :: before).reverse (body ++ text) := by
        rw [List.reverse_cons]
        exact h.append hnode
      simpa using Before.inside houter htag hgrown

/-- What is read behind some place, with what stands in front of it, makes a rendition of all
nodes. -/
theorem renditions_of_readNodes
    {openElements : List OpenElement} {before nodes : List Node} {front text : List Char}
    (hfront : Before openElements before front)
    (h : readNodes openElements before text = .ok nodes) :
    ∃ body rest, Renditions nodes body ∧ front ++ text = body ++ '>' :: rest := by
  fun_induction readNodes openElements before text generalizing front with
  | case4 before rest element outer behind hclosing _ ih =>
      cases hfront with
      | @inside _ _ _ front tag body houter htag hbody =>
          obtain ⟨hplain, space, hspace, rfl⟩ := (closingTag?_eq_some_iff htag.isTagName).1 hclosing
          have hnode : Renditions [element.close before] _ :=
            .paired htag hbody hplain hspace .nil
          obtain ⟨found, last, hfound, htext⟩ := ih (houter.cons hnode) h
          exact ⟨found, last, hfound, by simpa using htext⟩
  | case7 openElements before rest _ name behindName hname _ _ behind hend _ ih =>
      obtain ⟨tag, htag, rfl⟩ := exists_rendersTag hname hend
      obtain ⟨found, last, hfound, htext⟩ := ih (hfront.cons (.single htag .nil)) h
      exact ⟨found, last, hfound, by simpa [tagMark] using htext⟩
  | case8 openElements before rest _ name behindName hname _ _ behind hend _ ih =>
      obtain ⟨tag, htag, rfl⟩ := exists_rendersTag hname hend
      have hinside : Before (⟨name, (tagAttributes behindName).1, before⟩ :: openElements) [] _ :=
        .inside hfront htag .nil
      obtain ⟨found, last, hfound, htext⟩ := ih hinside h
      exact ⟨found, last, hfound, by simpa [tagMark] using htext⟩
  | case9 before rest =>
      obtain rfl := Except.ok.inj h
      cases hfront with
      | outermost hbefore =>
          exact ⟨front, rest, hbefore, rfl⟩
  | case11 openElements before c rest _ hleft hright _ ih =>
      have hrun : (String.ofList (c :: rest.takeWhile isRunChar)).toList.all isRunChar = true := by
        rw [String.toList_ofList, List.all_eq_true]
        exact isRunChar_of_mem_run hleft hright rest
      obtain ⟨found, last, hfound, htext⟩ := ih (hfront.cons (.run hrun .nil)) h
      refine ⟨found, last, hfound, ?_⟩
      simpa using htext
  | _ =>
      cases h

end Soundness

section Words

/-- The brackets of a rendition balance if the values of the tag attributes hold none. -/
theorem Renditions.balanced
    {nodes : List Node} {body : List Char} (h : Renditions nodes body)
    (hplain : ∀ value ∈ tagValues nodes, isBracketFree value.toList = true) :
    Balanced body := by
  induction h with
  | nil =>
      exact .nil
  | run hrun _ ih =>
      rw [tagValues, List.forall_mem_append] at hplain
      exact (balanced_of_all (List.all_eq_true.1 hrun)).append (ih hplain.2)
  | @single name attributes later tag text htag _ ih =>
      simp only [tagValues, Node.tagValues, List.forall_mem_append] at hplain
      have hslash : Balanced ['/'] := balanced_of_all (List.forall_mem_singleton.2 (by decide))
      have htag : Balanced (tag ++ ['/']) :=
        (balanced_of_all (htag.isRunChar hplain.1.1)).append hslash
      simpa using Balanced.group htag (ih hplain.2)
  | @paired name attributes children later tag body space text htag _ _ hspace _ ihchildren ih =>
      simp only [tagValues, Node.tagValues, List.forall_mem_append] at hplain
      have hclosing : Balanced ('/' :: (name.text.toList ++ space)) := by
        refine balanced_of_all (List.forall_mem_cons.2 ⟨by decide, ?_⟩)
        exact List.forall_mem_append.2 ⟨isRunChar_of_isTagName htag.isTagName, hspace.isRunChar⟩
      have hbehind := (ihchildren hplain.1.2).append (Balanced.group hclosing (ih hplain.2))
      simpa using Balanced.group (balanced_of_all (htag.isRunChar hplain.1.1)) hbehind

/-- A word is read as normal markup exactly if it holds a rendition of this markup between its
outer brackets. -/
theorem ofWord_eq_ok_iff
    {text word : List Char} {nodes : List Node}
    (hword : markupPiece? text = some word) (hplain : hasPlainTags nodes = true) :
    ofWord word = .ok nodes ↔
      isNormal nodes = true ∧ ∃ body, Renditions nodes body ∧ word = '<' :: (body ++ ['>']) := by
  constructor
  · intro h
    have hspelling : Spelling .markup word := spelling_of_piece? hword
    obtain ⟨inner, rfl, hinner⟩ := hspelling
    have hfront : Before [] [] [] := .outermost .nil
    obtain ⟨body, rest, hbody, htext⟩ := renditions_of_readNodes hfront h
    have hbalanced := hbody.balanced (List.all_eq_true.1 hplain)
    -- Both balanced texts are closed by the first bracket behind them.
    have hends := toClosingBracket?_append hinner 0 ['>']
    have hends' := toClosingBracket?_append hbalanced 0 ('>' :: rest)
    have htext : inner ++ ['>'] = body ++ '>' :: rest := htext
    rw [← htext, hends] at hends'
    have hsame : inner ++ ['>'] = body ++ ['>'] := by
      simpa [toClosingBracket?] using hends'
    exact ⟨(fine_of_ofWord h).1, body, hbody, congrArg ('<' :: ·) hsame⟩
  · rintro ⟨hnormal, body, hbody, rfl⟩
    exact ofWord_of_renditions hbody hnormal

/-- White space and quotes inside tags are left open: the word begins a text that goes on, and it is
read as an element in an element. -/
theorem ofWord_eq_ok_iff_spaced :
    let word := "<<b c = 'd\"'\n>e<br /></b >>".toList
    let nodes : List Node :=
      [.element ⟨"b", by decide⟩ [("c", "d\"")] [.text "e", .element ⟨"br", by decide⟩ [] []]]
    markupPiece? (word ++ ['>']) = some word ∧ hasPlainTags nodes = true ∧
      ofWord word = .ok nodes ∧
      isNormal nodes = true ∧ ∃ body, Renditions nodes body ∧ word = '<' :: (body ++ ['>']) := by
  intro word nodes
  have hword : markupPiece? (word ++ ['>']) = some word := by
    decide +kernel
  have hplain : hasPlainTags nodes = true := by
    decide +kernel
  have hread : ofWord word = .ok nodes := by
    decide +kernel
  exact ⟨hword, hplain, hread, (ofWord_eq_ok_iff hword hplain).1 hread⟩

end Words

end Markup
end DotCascade
