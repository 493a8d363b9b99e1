import AheadOfTime.Diagnostic
import AheadOfTime.Marking.Run

/-!
# Node systems given by a table

A table says for every name which edges its node has, and what else is special about it.  A node
that watches the marked nodes finds an edge for each name that starts with a given lead; the
target's name has another lead in its place.
-/

set_option autoImplicit false

namespace AheadOfTime.Marking

/-- A rule for finding edges: a name that starts with `lead` gives an edge to the name in which
`replacement` stands for it. -/
structure Watch where
  /-- The characters that names start with. -/
  lead : List Char
  /-- What stands in its place. -/
  replacement : String
  /-- The label of the edges. -/
  label : String
deriving DecidableEq, Repr

/-- The edge that a rule finds at a name, which is given by its characters. -/
def Watch.edge? (w : Watch) (name : List Char) : Option (Edge String) :=
  (w.lead.isPrefixOf? name).map fun rest => ⟨w.replacement ++ String.ofList rest, w.label⟩

/-- One row of a table. -/
structure Row where
  /-- The edges. -/
  expansion : Expansion String := {}
  /-- Whether the node is deferred. -/
  deferred : Bool := false
  /-- The text with which expanding the node fails. -/
  failure : Option String := none
  /-- Whether expanding the node asks the run to stop. -/
  stops : Bool := false
  /-- The rules of a node that watches. -/
  watches : Option (List Watch) := none
  /-- The name that makes the search of this node fail. -/
  dreaded : Option String := none
deriving DecidableEq, Repr

/-- The edges that the rules of a row find at a name. -/
def Row.edges (row : Row) (name : String) : List (Edge String) :=
  let chars := name.toList
  (row.watches.getD []).filterMap (·.edge? chars)

/-- The edges that the rules of a row find among some names, unless one of them is dreaded. -/
def Row.found (self : String) (row : Row) (seen : List String) :
    Except Diagnostic (List (Edge String)) :=
  match seen.find? fun name => row.dreaded == some name with
  | some name => .error (.other (self ++ " saw " ++ name))
  | none => .ok (seen.flatMap row.edges)

/-- Rows by name; a name without a row has an empty one. -/
structure Table where
  /-- The rows. -/
  rows : Std.HashMap String Row := ∅

/-- What a node of a table reports. -/
inductive Visit where
  /-- The node was expanded. -/
  | expanded (name : String)
  /-- The node was expanded and has no edges. -/
  | leaf (name : String)
  /-- The node was shown some names. -/
  | searched (name : String) (seen : List String)
deriving DecidableEq, Repr

/-- The text of a report. -/
def Visit.text : Visit → String
  | expanded name => "expand " ++ name
  | leaf name => "leaf " ++ name
  | searched name seen => "search " ++ name ++ ": " ++ String.intercalate " " seen

namespace Table

/-- The table with some rows. -/
def ofList (rows : List (String × Row)) : Table :=
  ⟨Std.HashMap.ofList rows⟩

/-- The row of a name. -/
def row (t : Table) (name : String) : Row :=
  t.rows[name]?.getD {}

/-- Expands a name. -/
def expand (t : Table) (name : String) :
    Recorded (Array Visit) (Except Diagnostic (Expansion String)) := do
  .report (Visit.expanded name)
  let row := t.row name
  match row.failure with
  | some text => pure (.error (.other text))
  | none =>
    if row.expansion.isEmpty then .report (Visit.leaf name)
    pure (.ok row.expansion)

/-- Shows a node some names. -/
def search (t : Table) (name : String) (seen : List String) :
    Recorded (Array Visit) (Except Diagnostic (List (Edge String))) := do
  .report (Visit.searched name seen)
  pure (Row.found name (t.row name) seen)

/-- The node system of a table. -/
def system (t : Table) : NodeSystem String Diagnostic (Array Visit) where
  expand := t.expand
  search := t.search
  isDeferred name := (t.row name).deferred
  isDynamic name := (t.row name).watches.isSome || (t.row name).dreaded.isSome
  requestsStop name := (t.row name).stops

end Table

end AheadOfTime.Marking
