import FieldBinding.Graph.Basic

/-!
# The content of values

A `Tree` is what a value shows when nobody asks which nodes are shared: `Graph.content` unfolds a value into
a tree, `Graph.plant` makes new nodes with the content of a tree.  `Tree.text` writes the content.

The values that the tree can be unfolded from form no cycles, so a path of handles meets each node at most
once and the number of nodes bounds the depth.
-/

namespace FieldBinding

/-- The content of a value. -/
inductive Tree where
  | null
  | scalar (s : Scalar)
  | sequence (kind : SequenceKind) (element : TypeTag) (items : List Tree)
  | map (element : TypeTag) (entries : List (String × Tree))
  | object (typeName : String) (members : List (String × Tree))
  deriving Inhabited, Repr

namespace Tree

mutual

/-- The text of a content: the type name stands for an object. -/
def text : Tree → String
  | null => "null"
  | scalar s => s.text
  | sequence _ _ items => "[" ++ ", ".intercalate (texts items) ++ "]"
  | map _ entries => "\x7b" ++ ", ".intercalate (entryTexts entries) ++ "\x7d"
  | object typeName _ => "<" ++ typeName ++ ">"

/-- The texts of elements. -/
def texts : List Tree → List String
  | [] => []
  | t :: rest => t.text :: texts rest

/-- The texts of entries. -/
def entryTexts : List (String × Tree) → List String
  | [] => []
  | (key, t) :: rest => (key ++ ": " ++ t.text) :: entryTexts rest

end

end Tree

namespace Graph

/-! ## Unfolding -/

/-- The content of a value as far as it takes no more than a number of handles. -/
def contentWithin (g : Graph) : Nat → Value → Tree
  | _, .null => .null
  | _, .scalar s => .scalar s
  | 0, _ => .null
  | depth + 1, .sequence kind id =>
    let node := g.sequence id
    .sequence kind node.element (node.items.map (g.contentWithin depth))
  | depth + 1, .map id =>
    let node := g.map id
    .map node.element (node.entries.toList.map fun e => (e.1, g.contentWithin depth e.2))
  | depth + 1, .object id =>
    let node := g.object id
    .object node.typeName (node.members.toList.map fun e => (e.1, g.contentWithin depth e.2))

/-- The content of a value. -/
def content (g : Graph) (v : Value) : Tree :=
  g.contentWithin g.size v

/-- The text of a value. -/
def text (g : Graph) (v : Value) : String :=
  (g.content v).text

/-! ## Planting -/

mutual

/-- A value of new nodes with a given content. -/
def plant (g : Graph) : Tree → Value × Graph
  | .null => (.null, g)
  | .scalar s => (.scalar s, g)
  | .sequence kind element items =>
    let (values, g) := g.plantAll items
    g.newSequence kind ⟨element, values⟩
  | .map element entries =>
    let (entries, g) := g.plantEntries entries
    g.newMap ⟨element, .ofList entries⟩
  | .object typeName members =>
    let (members, g) := g.plantEntries members
    g.newObject ⟨typeName, .ofList members⟩

/-- Values of new nodes with given contents. -/
def plantAll (g : Graph) : List Tree → List Value × Graph
  | [] => ([], g)
  | t :: rest =>
    let (v, g) := g.plant t
    let (values, g) := g.plantAll rest
    (v :: values, g)

/-- Entries of new nodes with given contents. -/
def plantEntries (g : Graph) : List (String × Tree) → List (String × Value) × Graph
  | [] => ([], g)
  | (key, t) :: rest =>
    let (v, g) := g.plant t
    let (entries, g) := g.plantEntries rest
    ((key, v) :: entries, g)

end

end Graph

end FieldBinding
