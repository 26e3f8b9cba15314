import JavaAtlas.Java.Grammar
import JavaAtlas.Parsing.Reader

/-!
# From a text to its tree

The tables of the Java grammar are computed once. The tree of a text shows what has a node of its own;
the children of what has none stand in its place, and a role that it has falls to them.
-/

namespace JavaAtlas.Java

set_option autoImplicit false

open Parsing (ChildLabel NodeSymbol Source Subtree Table)

def table : Table :=
  .ofGrammar numberedGrammar.grammar (numberedGrammar.kinds.map (·.isSome))

/-- How a tree is shown where it is not given another name. -/
def kindOf : NodeSymbol → Option Kind
  | .symbol n => numberedGrammar.kinds.getD n none
  | .error => some .error
  | .passedOver => none

mutual

/-- The nodes that a tree shows, whose white space starts at `start`. -/
def nodesOf (label : ChildLabel) (start : Nat) : Subtree → List Tree
  | .node i children =>
    let labels := table.labels.getD i.labels []
    match (label.shownAs.map Kind.phrase).or (kindOf i.symbol) with
    | none => nodesOfAll label.role labels start children
    | some kind =>
      let first := start + i.padding.bytes
      [.node ⟨kind, label.role, .clamp first (first + i.size.bytes), i.isMissing⟩
        (nodesOfAll none labels start children)]

/-- The nodes that trees in a row show. Extras have no label. -/
def nodesOfAll (inherited : Option Field) (labels : List ChildLabel) (start : Nat) :
    List Subtree → List Tree
  | [] => []
  | c :: rest =>
    let next := start + c.extent.bytes
    if c.isExtra then nodesOf {} start c ++ nodesOfAll inherited labels next rest
    else
      let label := labels.headD {}
      nodesOf { label with role := label.role.or inherited } start c ++
        nodesOfAll inherited labels.tail next rest

end

/-- The tree of a text. There is one for every text. -/
def parseTree (text : String) : Tree :=
  match nodesOf {} 0 (table.read (.ofString text)) with
  | tree :: _ => tree
  | [] => .node ⟨.error, none, default, false⟩ []

def parser : Parser := fun text => .ok (parseTree text)

end JavaAtlas.Java
