/-!
# The text of a file

A file holds bytes.  Its text is their strict UTF-8 reading in which every line
ends with a single line feed: a carriage return, alone or in front of a line
feed, becomes one line feed.
-/

namespace DotCascade
namespace Text

/-- Every line end as one line feed. -/
def lineFeeds : List Char → List Char
  | '\r' :: '\n' :: rest => '\n' :: lineFeeds rest
  | '\r' :: rest => '\n' :: lineFeeds rest
  | c :: rest => c :: lineFeeds rest
  | [] => []

/-- The text of a file, or nothing when its bytes are no UTF-8. -/
def decoded? (bytes : ByteArray) : Option String :=
  (String.fromUTF8? bytes).map fun text => String.ofList (lineFeeds text.toList)

/-- A text without carriage returns is kept. -/
theorem lineFeeds_eq_self
    {text : List Char} (h : '\r' ∉ text) :
    lineFeeds text = text := by
  fun_induction lineFeeds text with
  | case1 => simp at h
  | case2 => simp at h
  | case3 c rest _ _ ih => simp_all
  | case4 => rfl

/-- No carriage return is left. -/
theorem not_mem_lineFeeds
    (text : List Char) :
    '\r' ∉ lineFeeds text := by
  fun_induction lineFeeds text with
  | case1 rest ih => simp [ih]
  | case2 rest _ ih => simp [ih]
  | case3 c rest _ h ih =>
      have hc : c ≠ '\r' := fun hc => h hc
      simp [ih, Ne.symm hc]
  | case4 => simp

end Text
end DotCascade
