import AheadOfTime.Proofs.Dot
import AheadOfTime.Proofs.Marking.Reasons

/-!
# Drawings of marked graphs

The forest of first reasons is written as Graphviz text, one line for each marked node and one for
each node that is no root.  A `Drawing` is what such a text says: which nodes there are, with their
labels, and which edges, with their labels and how they are drawn.  `Drawing.read` reads it off the
tokens of the text and accepts nothing else.  Each line is read by itself, so what is read is in the
order in which it was written (`Reads`).
-/

set_option autoImplicit false

namespace AheadOfTime.Marking

open Dot (Token Lexes)

/-- What kind of edge is drawn. -/
inductive EdgeKind where
  /-- An edge that holds at once. -/
  | edge
  /-- An edge that was released by its condition. -/
  | conditional
  /-- An edge that a search found. -/
  | dynamic
deriving DecidableEq, Repr

/-- A node of a drawing. -/
structure DrawnNode where
  /-- The position of the node. -/
  id : Nat
  /-- Its label. -/
  label : String
deriving DecidableEq, Repr

/-- An edge of a drawing. -/
structure DrawnEdge where
  /-- The position of the node that it comes from. -/
  source : Nat
  /-- The position of the node that it leads to. -/
  target : Nat
  /-- Its label. -/
  label : String
  /-- Its kind. -/
  kind : EdgeKind
deriving DecidableEq, Repr

/-- What a graph is drawn as. -/
structure Drawing where
  /-- The name. -/
  name : String
  /-- The nodes, in order. -/
  nodes : List DrawnNode
  /-- The edges, in order. -/
  edges : List DrawnEdge
deriving DecidableEq, Repr

namespace Drawing

/-! ## Reading -/

/-- The position that the name of a node stands for. -/
def position? : List Char → Option Nat
  | 'n' :: digits =>
    if !digits.isEmpty && digits.all Char.isDigit then some (Nat.ofDigitChars 10 digits 0) else none
  | _ => none

/-- Reads attributes up to the bracket that closes them. -/
def readAttributes : List Token → Option (List (List Char × Token))
  | [.word key, .sign '=', value, .sign ']'] => some [(key, value)]
  | .word key :: .sign '=' :: value :: .sign ',' :: rest =>
    (readAttributes rest).map ((key, value) :: ·)
  | _ => none

/-- The label among some attributes. -/
def label? (attributes : List (List Char × Token)) : Option String :=
  match attributes.lookup "label".toList with
  | some (.text t) => (Dot.unescape t).map String.ofList
  | _ => none

/-- The kind of an edge by its attributes. -/
def kind? (attributes : List (List Char × Token)) : Option EdgeKind :=
  match attributes.lookup "style".toList with
  | none => some .edge
  | some (.word w) =>
    if w = "dashed".toList then some .conditional
    else if w = "dotted".toList then some .dynamic
    else none
  | some _ => none

/-- A statement of a drawing. -/
inductive Statement where
  /-- How nodes are drawn unless it is said otherwise. -/
  | defaults
  /-- A node. -/
  | node (n : DrawnNode)
  /-- An edge. -/
  | edge (e : DrawnEdge)
deriving DecidableEq, Repr

/-- The node of a statement. -/
def Statement.node? : Statement → Option DrawnNode
  | node n => some n
  | _ => none

/-- The edge of a statement. -/
def Statement.edge? : Statement → Option DrawnEdge
  | edge e => some e
  | _ => none

/-- Reads the tokens of one statement. -/
def readStatement : List Token → Option Statement
  | .word w :: .sign '[' :: rest => do
    let attributes ← readAttributes rest
    if w = "node".toList then return .defaults
    let id ← position? w
    let label ← label? attributes
    return .node ⟨id, label⟩
  | .word v :: .sign '-' :: .sign '>' :: .word w :: .sign '[' :: rest => do
    let attributes ← readAttributes rest
    let source ← position? v
    let target ← position? w
    let label ← label? attributes
    let kind ← kind? attributes
    return .edge ⟨source, target, label, kind⟩
  | _ => none

/-- Reads statements, each up to its semicolon, and the brace that closes them; `begun` is what has
been read of the first one. -/
def readStatements (begun : List Token) : List Token → Option (List Statement)
  | [] => none
  | t :: rest =>
    if t = .sign ';' then do
      let first ← readStatement begun
      let others ← readStatements [] rest
      return first :: others
    else if t = .sign '\x7d' then
      if begun.isEmpty && rest.isEmpty then some [] else none
    else readStatements (begun ++ [t]) rest

/-- The drawing that a text stands for. -/
def read (text : String) : Option Drawing := do
  match ← Dot.tokens text.toList with
  | .word w :: .text name :: .sign '\x7b' :: rest =>
    if w = "digraph".toList then
      let name ← Dot.unescape name
      let statements ← readStatements [] rest
      return ⟨.ofList name, statements.filterMap (·.node?), statements.filterMap (·.edge?)⟩
    else none
  | _ => none

/-! ## The drawing of a graph -/

/-- A label as it can be read back. -/
def written (s : String) : String :=
  .ofList (Dot.withoutReturns s.toList)

/-- The edge by which the node at a position was marked first; roots were marked without one. -/
def edgeTo? (id : Nat) : Reason → Option DrawnEdge
  | .root _ => none
  | .edge source label => some ⟨source, id, written label, .edge⟩
  | .conditional source _ label => some ⟨source, id, written label, .conditional⟩
  | .dynamic source label => some ⟨source, id, written label, .dynamic⟩

/-- The name of a node is a letter and its number. -/
theorem toList_nodeName (id : Nat) : (Graph.nodeName id).toList = 'n' :: Nat.toDigits 10 id := by
  rw [Graph.nodeName, String.toList_append, Nat.toList_repr]
  rfl

/-- The number is read back from the name. -/
theorem position?_nodeName (id : Nat) : position? (Graph.nodeName id).toList = some id := by
  have hdigits : (Nat.toDigits 10 id).all Char.isDigit = true :=
    List.all_eq_true.2 fun c hc => Nat.isDigit_of_mem_toDigits (by decide) (by decide) hc
  have hne : (Nat.toDigits 10 id).isEmpty = false := by simp
  rw [toList_nodeName, position?, hdigits, hne, Nat.ofDigitChars_ten_toDigits]
  rfl

/-- No node is called like the word that states the defaults. -/
theorem nodeName_ne_node (id : Nat) : (Graph.nodeName id).toList ≠ "node".toList := by
  intro heq
  have hposition := position?_nodeName id
  rw [heq] at hposition
  cases hposition

/-- The name of a node is read as one word. -/
theorem lexes_nodeName (id : Nat) :
    Lexes ((Graph.nodeName id).toList ++ [' ']) [.word (Graph.nodeName id).toList] := by
  rw [toList_nodeName]
  refine Dot.lexes_word fun c hc => ?_
  rcases List.mem_cons.1 hc with rfl | hc
  · rfl
  · have hdigit : c.isDigit = true := Nat.isDigit_of_mem_toDigits (by decide) (by decide) hc
    simp [Dot.isWordChar, Char.isAlphanum, hdigit]

/-! ## Reading line by line -/

/-- Text that is read as some statements, whatever follows. -/
def Reads (text : List Char) (statements : List Statement) : Prop :=
  ∃ ts, Lexes text ts ∧
    ∀ rest, readStatements [] (ts ++ rest) = (readStatements [] rest).map (statements ++ ·)

/-- An empty text has no statements. -/
theorem Reads.nil : Reads [] [] :=
  ⟨[], rfl, fun rest => by simp⟩

/-- Texts that can be read by themselves can be joined, and so are their statements. -/
theorem Reads.append {a b : List Char} {first second : List Statement} (ha : Reads a first)
    (hb : Reads b second) : Reads (a ++ b) (first ++ second) := by
  obtain ⟨ts, hts, hfirst⟩ := ha
  obtain ⟨us, hus, hsecond⟩ := hb
  refine ⟨ts ++ us, hts.append hus, fun rest => ?_⟩
  rw [List.append_assoc, hfirst, hsecond, Option.map_map]
  simp only [Function.comp_def, List.append_assoc]

/-- Lines that are read one by one are read all together. -/
theorem Reads.flatMap {α : Type} {l : List α} {line : α → List Char} {said : α → List Statement}
    (h : ∀ a ∈ l, Reads (line a) (said a)) : Reads (l.flatMap line) (l.flatMap said) := by
  induction l with
  | nil => exact .nil
  | cons a l ih =>
    exact (h a List.mem_cons_self).append (ih fun b hb => h b (List.mem_cons_of_mem _ hb))

/-- The tokens before a semicolon are read as one statement. -/
theorem readStatements_append {ts : List Token} (hts : ∀ t ∈ ts, t ≠ .sign ';' ∧ t ≠ .sign '\x7d')
    (begun rest : List Token) :
    readStatements begun (ts ++ .sign ';' :: rest) =
      (readStatement (begun ++ ts)).bind fun first =>
        (readStatements [] rest).map (first :: ·) := by
  induction ts generalizing begun with
  | nil =>
    rw [List.nil_append, readStatements, if_pos rfl, List.append_nil]
    cases readStatement begun with
    | none => rfl
    | some first => cases readStatements [] rest <;> rfl
  | cons t ts ih =>
    obtain ⟨hsemicolon, hbrace⟩ := hts t List.mem_cons_self
    rw [List.cons_append, readStatements, if_neg hsemicolon, if_neg hbrace,
      ih fun u hu => hts u (List.mem_cons_of_mem _ hu), List.append_assoc, List.singleton_append]

/-- A line with one statement is read as that statement. -/
theorem reads_of_lexes {text : List Char} {ts : List Token} {said : Statement}
    (hlexes : Lexes text (ts ++ [.sign ';']))
    (hts : ∀ t ∈ ts, t ≠ .sign ';' ∧ t ≠ .sign '\x7d') (hsaid : readStatement ts = some said) :
    Reads text [said] := by
  refine ⟨_, hlexes, fun rest => ?_⟩
  rw [List.append_assoc, List.singleton_append, readStatements_append hts, List.nil_append, hsaid]
  rfl

/-- The attributes that a style adds to a label. -/
structure Styles (style : String) (more : List Token) (attributes : List (List Char × Token)) :
    Prop where
  lexes : Lexes (style ++ "];\n").toList (more ++ [.sign ']', .sign ';'])
  plain : ∀ t ∈ more ++ [.sign ']'], t ≠ .sign ';' ∧ t ≠ .sign '\x7d'
  reads : ∀ value, readAttributes (.word "label".toList :: .sign '=' :: value ::
    (more ++ [.sign ']'])) = some (("label".toList, value) :: attributes)

/-- Without a style there are no further attributes. -/
theorem styles_none : Styles "" [] [] :=
  ⟨rfl, by simp, fun _ => rfl⟩

/-- A style with one attribute is read as this attribute. -/
theorem styles_one {style : String} (key value : List Char)
    (h : Lexes (style ++ "];\n").toList
      [.sign ',', .word key, .sign '=', .word value, .sign ']', .sign ';']) :
    Styles style [.sign ',', .word key, .sign '=', .word value] [(key, .word value)] :=
  ⟨h, by simp, fun _ => rfl⟩

/-- The tokens of a label with a style. -/
theorem Styles.lexes_label {style : String} {more : List Token}
    {attributes : List (List Char × Token)} (h : Styles style more attributes) (label : String) :
    Lexes ("[label=".toList ++ ('"' :: Dot.escapeChars label.toList ++ ['"']) ++
        (style ++ "];\n").toList)
      (.sign '[' :: .word "label".toList :: .sign '=' :: .text (Dot.escapeChars label.toList) ::
        (more ++ [.sign ']']) ++ [.sign ';']) := by
  have hopen : Lexes "[label=".toList [.sign '[', .word "label".toList, .sign '='] := rfl
  have hall := (hopen.append (Dot.lexes_label label.toList)).append h.lexes
  simpa using hall

/-- The label is found first and read as it was written. -/
theorem label?_cons (label : String) (attributes : List (List Char × Token)) :
    label? (("label".toList, .text (Dot.escapeChars label.toList)) :: attributes) =
      some (written label) := by
  rw [label?, List.lookup_cons_self]
  simp only [Dot.unescape_escapeChars, Option.map_some]
  rfl

variable {N ε σ ω : Type} [BEq N] [LawfulBEq N] [Hashable N]

/-- The style of a node can always be read. -/
theorem exists_styles_nodeStyle (g : Graph N ε) (id : Nat) (r : Reason) :
    ∃ more attributes, Styles (g.nodeStyle id r) more attributes := by
  have hroot : ∃ more attributes, Styles ", style=bold" more attributes :=
    ⟨_, _, styles_one "style".toList "bold".toList rfl⟩
  have hother : ∃ more attributes,
      Styles (if g.hasFailed id then ", color=red" else "") more attributes := by
    split
    · exact ⟨_, _, styles_one "color".toList "red".toList rfl⟩
    · exact ⟨_, _, styles_none⟩
  cases r with
  | root label => exact hroot
  | _ => exact hother

/-- How an edge is drawn tells its kind. -/
theorem exists_styles_edgeStyle {id : Nat} {r : Reason} {e : DrawnEdge}
    (h : edgeTo? id r = some e) :
    ∃ more attributes, Styles (Graph.edgeStyle r) more attributes ∧
      ∀ value, kind? (("label".toList, value) :: attributes) = some e.kind := by
  cases r with
  | root label => cases h
  | edge source label =>
    cases h
    exact ⟨_, _, styles_none, fun _ => rfl⟩
  | conditional source condition label =>
    cases h
    have hstyles : Styles ", style=dashed" _ _ :=
      styles_one "style".toList "dashed".toList rfl
    exact ⟨_, _, hstyles, fun _ => rfl⟩
  | dynamic source label =>
    cases h
    have hstyles : Styles ", style=dotted" _ _ :=
      styles_one "style".toList "dotted".toList rfl
    exact ⟨_, _, hstyles, fun _ => rfl⟩

/-- The line of a node is read as that node. -/
theorem reads_nodeLine (g : Graph N ε) (label : N → String) (id : Nat) (n : N) (r : Reason) :
    Reads (g.nodeLine label id n r).toList [.node ⟨id, written (label n)⟩] := by
  obtain ⟨more, attributes, hstyles⟩ := exists_styles_nodeStyle g id r
  have hlexes : Lexes (g.nodeLine label id n r).toList
      (.word (Graph.nodeName id).toList :: .sign '[' :: .word "label".toList :: .sign '=' ::
        .text (Dot.escapeChars (label n).toList) :: (more ++ [.sign ']']) ++ [.sign ';']) := by
    have hindent : Lexes "  ".toList [] := rfl
    have hpieces := (hindent.append (lexes_nodeName id)).append (hstyles.lexes_label (label n))
    simpa [Graph.nodeLine, Dot.escape] using hpieces
  refine reads_of_lexes hlexes ?_ ?_
  · simpa using hstyles.plain
  · simp only [readStatement, hstyles.reads, Option.bind_eq_bind, Option.bind_some,
      nodeName_ne_node, if_false, position?_nodeName, label?_cons, Option.pure_def]

/-- A drawn edge leads from the source of the reason to the node and has the label of the reason. -/
theorem source?_of_edgeTo? {id : Nat} {r : Reason} {e : DrawnEdge} (h : edgeTo? id r = some e) :
    r.source? = some e.source ∧ e.target = id ∧ e.label = written r.label := by
  cases r with
  | root label => cases h
  | _ =>
    cases h
    exact ⟨rfl, rfl, rfl⟩

/-- The line of an edge is read as that edge; there is none for a root. -/
theorem reads_edgeLine (id : Nat) (r : Reason) :
    Reads (Graph.edgeLine id r).toList ((edgeTo? id r).toList.map .edge) := by
  cases he : edgeTo? id r with
  | none =>
    cases r with
    | root label => exact .nil
    | _ => cases he
  | some e =>
    obtain ⟨hsource, rfl, hlabel⟩ := source?_of_edgeTo? he
    obtain ⟨more, attributes, hstyles, hkind⟩ := exists_styles_edgeStyle he
    have hlexes : Lexes (Graph.edgeLine e.target r).toList
        (.word (Graph.nodeName e.source).toList :: .sign '-' :: .sign '>' ::
          .word (Graph.nodeName e.target).toList :: .sign '[' :: .word "label".toList :: .sign '=' ::
          .text (Dot.escapeChars r.label.toList) :: (more ++ [.sign ']']) ++ [.sign ';']) := by
      have hindent : Lexes "  ".toList [] := rfl
      have harrow : Lexes "-> ".toList [.sign '-', .sign '>'] := rfl
      have hpieces := (((hindent.append (lexes_nodeName e.source)).append harrow).append
        (lexes_nodeName e.target)).append (hstyles.lexes_label r.label)
      simpa [Graph.edgeLine, hsource, Dot.escape] using hpieces
    refine reads_of_lexes hlexes ?_ ?_
    · simpa using hstyles.plain
    · simp only [readStatement, hstyles.reads, Option.bind_eq_bind, Option.bind_some,
        position?_nodeName, label?_cons, hkind, Option.pure_def, ← hlabel]

/-- The line with the defaults is read as such. -/
theorem reads_defaults :
    Reads "  node [shape=box, fontname=\"monospace\"];\n".toList [.defaults] := by
  have hlexes : Lexes "  node [shape=box, fontname=\"monospace\"];\n".toList
      ([.word "node".toList, .sign '[', .word "shape".toList, .sign '=', .word "box".toList,
        .sign ',', .word "fontname".toList, .sign '=', .text "monospace".toList, .sign ']'] ++
        [.sign ';']) := rfl
  exact reads_of_lexes hlexes (by simp) rfl

/-- The text of a whole drawing, by its name and what its lines say. -/
theorem read_digraph {text : List Char} {statements : List Statement} (name : String)
    (h : Reads text statements) :
    read (.ofList ("digraph ".toList ++ ('"' :: Dot.escapeChars name.toList ++ ['"']) ++
        " \x7b\n".toList ++ text ++ "\x7d\n".toList)) =
      some ⟨written name, statements.filterMap (·.node?), statements.filterMap (·.edge?)⟩ := by
  obtain ⟨ts, hts, hread⟩ := h
  have hkeyword : Lexes "digraph ".toList [.word "digraph".toList] := rfl
  have hopen : Lexes " \x7b\n".toList [.sign '\x7b'] := rfl
  have hclose : Lexes "\x7d\n".toList [.sign '\x7d'] := rfl
  have hlexes := (((hkeyword.append (Dot.lexes_label name.toList)).append hopen).append hts).append
    hclose
  have hend : readStatements [] [.sign '\x7d'] = some [] := rfl
  have hbody : readStatements [] (ts ++ [.sign '\x7d']) = some statements := by
    rw [hread, hend, Option.map_some, List.append_nil]
  rw [read, String.toList_ofList, hlexes.tokens_eq]
  simp only [List.cons_append, List.nil_append, Option.bind_eq_bind, Option.bind_some, if_true,
    Dot.unescape_escapeChars, hbody, Option.pure_def]
  rfl

section Said

variable {α : Type} (l : List α)

/-- From the statements about nodes, the nodes are read back. -/
theorem filterMap_node?_nodes (f : α → DrawnNode) :
    (l.flatMap fun a => [Statement.node (f a)]).filterMap (·.node?) = l.map f := by
  induction l with
  | nil => rfl
  | cons a l ih =>
    rw [List.flatMap_cons, List.filterMap_append, ih]
    rfl

/-- The statements about nodes draw no edges. -/
theorem filterMap_edge?_nodes (f : α → DrawnNode) :
    (l.flatMap fun a => [Statement.node (f a)]).filterMap (·.edge?) = [] := by
  simp only [List.filterMap_eq_nil_iff, List.mem_flatMap, List.mem_singleton]
  rintro _ ⟨a, -, rfl⟩
  rfl

/-- The statements about edges draw no nodes. -/
theorem filterMap_node?_edges (f : α → Option DrawnEdge) :
    (l.flatMap fun a => (f a).toList.map Statement.edge).filterMap (·.node?) = [] := by
  simp only [List.filterMap_eq_nil_iff, List.mem_flatMap, List.mem_map]
  rintro _ ⟨a, -, e, -, rfl⟩
  rfl

/-- From the statements about edges, the edges are read back. -/
theorem filterMap_edge?_edges (f : α → Option DrawnEdge) :
    (l.flatMap fun a => (f a).toList.map Statement.edge).filterMap (·.edge?) = l.filterMap f := by
  induction l with
  | nil => rfl
  | cons a l ih =>
    rw [List.flatMap_cons, List.filterMap_append, ih, List.filterMap_cons]
    cases f a <;> rfl

end Said

/-- Reading what is drawn of a graph gives its nodes with their labels and the edges of its reasons,
in order. -/
theorem read_toDot (g : Graph N ε) (hlength : g.reasons.toList.length = g.nodes.toList.length)
    (name : String) (label : N → String) :
    read (g.toDot name label) = some {
      name := written name
      nodes := g.nodes.toList.zipIdx.map fun (n, id) => ⟨id, written (label n)⟩
      edges := g.reasons.toList.zipIdx.filterMap fun (r, id) => edgeTo? id r } := by
  have hnodes := Reads.flatMap (l := g.entries.zipIdx) fun p _ =>
    reads_nodeLine g label p.2 p.1.1 p.1.2
  have hedges := Reads.flatMap (l := g.entries.zipIdx) fun p _ => reads_edgeLine p.2 p.1.2
  have hread := read_digraph name ((reads_defaults.append hnodes).append hedges)
  have htext : g.toDot name label = .ofList ("digraph ".toList ++
      ('"' :: Dot.escapeChars name.toList ++ ['"']) ++ " \x7b\n".toList ++
      ("  node [shape=box, fontname=\"monospace\"];\n".toList ++
        g.entries.zipIdx.flatMap (fun p => (g.nodeLine label p.2 p.1.1 p.1.2).toList) ++
        g.entries.zipIdx.flatMap fun p => (Graph.edgeLine p.2 p.1.2).toList) ++
      "\x7d\n".toList) := by
    rw [← String.toList_inj, String.toList_ofList]
    simp [Graph.toDot, Dot.escape, String.toList_join, List.flatMap_map]
  -- the entries are the nodes and the reasons side by side
  have hfst : g.nodes.toList = g.entries.map Prod.fst :=
    (List.map_fst_zip (Nat.le_of_eq hlength.symm)).symm
  have hsnd : g.reasons.toList = g.entries.map Prod.snd :=
    (List.map_snd_zip (Nat.le_of_eq hlength)).symm
  rw [htext, hread, hfst, hsnd, List.zipIdx_map, List.zipIdx_map]
  simp only [List.filterMap_append, filterMap_node?_nodes, filterMap_node?_edges,
    filterMap_edge?_nodes, filterMap_edge?_edges, List.map_map, List.filterMap_map]
  simp only [List.append_nil]
  rfl

end Drawing

/-! ## Reachable graphs -/

namespace Course

variable {N ε σ ω : Type} [BEq N] [LawfulBEq N] [Hashable N] [Recorder σ ω] [Inhabited σ]
  {sys : NodeSystem N ε σ} {c : Course N ε}

/-- Escaped text stays on its line and within its quotes, and it can be read back, but for carriage
returns.  So the text that draws a marking, whatever was done to it and whatever its nodes are
called, reads as one node for each marked node, in order and with its label, and one edge for each
node that is no root, with the source, the label and the kind of the first reason. -/
theorem toDot_readable (h : Leads sys {} c) (name : String) (label : N → String) :
    (∀ s : String, '\n' ∉ (Dot.escape s).toList ∧ Dot.QuotesEscaped (Dot.escape s).toList ∧
      Dot.unescape (Dot.escape s).toList = some (Dot.withoutReturns s.toList)) ∧
    Drawing.read (c.analysis.graph.toDot name label) = some {
      name := Drawing.written name
      nodes := c.analysis.nodes.zipIdx.map fun (n, id) => ⟨id, Drawing.written (label n)⟩
      edges := c.analysis.reasons.zipIdx.filterMap fun (r, id) => Drawing.edgeTo? id r } := by
  refine ⟨fun s => ?_, Drawing.read_toDot _ (founded_of_leads h).length name label⟩
  rw [Dot.escape, String.toList_ofList]
  exact ⟨Dot.newline_not_mem_escapeChars _, Dot.quotesEscaped_escapeChars _,
    Dot.unescape_escapeChars _⟩

/-- What is read of a run of `shortcut` whose nodes have quotes, line ends and backslashes in their
labels; the carriage return is lost. -/
theorem toDot_readable_shortcut : ∃ c : Course Nat String, Leads Analysis.shortcut {} c ∧
    Drawing.read (c.analysis.graph.toDot "a\\" fun n => "\"" ++ Nat.repr n ++ "\"\r\n\\") = some {
      name := "a\\"
      nodes := [⟨0, "\"0\"\n\\"⟩, ⟨1, "\"1\"\n\\"⟩, ⟨2, "\"2\"\n\\"⟩, ⟨3, "\"3\"\n\\"⟩]
      edges := [⟨0, 1, "the \"next\" one", .edge⟩, ⟨1, 2, "edge", .edge⟩,
        ⟨2, 3, "if 0", .conditional⟩] } := by
  obtain ⟨s, hrun, hshows⟩ := Analysis.value_run_shortcut
  let c : Course Nat String := ⟨[(0, "start")], s⟩
  have hleads : Leads Analysis.shortcut {} c :=
    (Relation.ReflTransGen.single (.addRoot {} 0 "start")).tail
      (.run _ Analysis.shortcut.requestsStop 5 (.inl hrun))
  have hread := (toDot_readable hleads "a\\" fun n => "\"" ++ Nat.repr n ++ "\"\r\n\\").2
  refine ⟨c, hleads, hread.trans ?_⟩
  rw [hshows.nodes, hshows.reasons]
  rfl

end Course

end AheadOfTime.Marking
