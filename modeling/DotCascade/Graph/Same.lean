import DotCascade.Graph.Basic

/-!
# Graphs that differ in attribute order alone

Two contents are the same when their statements correspond one to one and all
corresponding attribute maps answer every look-up alike.
-/

namespace DotCascade

mutual

/-- Two statements that differ in attribute order alone. -/
def Statement.same : Statement → Statement → Bool
  | .defaults k as, .defaults l bs => k = l && as.same bs
  | .node i as, .node j bs => i = j && as.same bs
  | .edge h t as, .edge k u bs => h = k && t = u && as.same bs
  | .subgraph i as ss, .subgraph j bs ts =>
      i = j && as.same bs && Statement.sameList ss ts
  | _, _ => false

/-- Two lists of statements that differ in attribute order alone. -/
def Statement.sameList : List Statement → List Statement → Bool
  | [], [] => true
  | s :: ss, t :: ts => s.same t && Statement.sameList ss ts
  | _, _ => false

end

/-- Two contents that differ in attribute order alone. -/
def Content.same (a b : Content) : Bool :=
  a.attributes.same b.attributes && Statement.sameList a.statements b.statements

/-- Two graphs that differ in attribute order alone. -/
def Graph.same (a b : Graph) : Bool :=
  a.id = b.id && a.strict = b.strict && a.directed = b.directed &&
    a.content.same b.content

end DotCascade
