import Sentential.Identifier

/-!
# Drawings of diagrams

A drawing is a list of items: a circle for every decision, a table with two cells for every
element, an edge from the circle to each of its tables, and an edge from a cell to the circle of
the decision that the cell stands for. Terminals and literals have no items of their own; their
labels stand in the cells. Only a root that is no decision has a box of its own.

An item is named by the position of its node in the numbering of the diagram. What an item
declares and what it joins is kept apart from its looks, and `Item.text` alone knows how an item
is written.
-/

namespace Sentential.Dot

/-- The cells of a table. -/
inductive Side where
  | left
  | right
deriving DecidableEq, Repr

def Side.letter : Side → String
  | left => "L"
  | right => "R"

/-- The looks of an element: the label of the edge to its table, and a color. -/
structure Paint where
  label : String
  color : String
deriving DecidableEq, Repr

/-- A part of a drawing. -/
inductive Item where
  | box (node : Nat) (label : String)
  | circle (node : Nat) (vtree : VtreeId) (color : Option String)
  | table (node index : Nat) (paint : Option Paint) (left right : String)
  /-- The edge from a circle to one of its tables. -/
  | tie (node index : Nat) (paint : Option Paint)
  /-- The edge from a cell to a circle. -/
  | link (node index : Nat) (side : Side) (child : Nat) (paint : Option Paint)
deriving DecidableEq, Repr

/-- The attributes of a table's frame. -/
def tableFrame (paint : Option Paint) : String :=
  "BORDER=\"0\" CELLBORDER=\"1\" CELLSPACING=\"0\" CELLPADDING=\"0\" PORT=\"T\"" ++
    match paint with
    | some p => s!" COLOR=\"{p.color}\""
    | none => ""

def Item.text : Item → String
  | box n label => s!"\nn{n} [label=\"{label}\",shape=box];"
  | circle n v color =>
    s!"\nn{n} [label=\"{v.raw}\",style=filled,fillcolor=gray95,shape=circle,fixedsize=true," ++
      "height=.5,width=.5" ++
      match color with
      | some c => s!",color={c},xlabel=\"\"];"
      | none => "];"
  | table n i paint left right =>
    s!"\nn{n}e{i}\n[label=<\n<TABLE {tableFrame paint}>\n<TR>\n<TD PORT=\"L\">{left}</TD>\n" ++
      s!"<TD PORT=\"R\">{right}</TD>\n</TR>\n</TABLE>\n>,\n" ++
      "shape=none,margin=0,fillcolor=white,style=filled,\nfontsize=20,fontname=\"Times\",\n];\n"
  | tie n i paint =>
    s!"\nn{n}->n{n}e{i}:T [arrowsize=.50" ++
      match paint with
      | some p => s!",label=<{p.label}>,color={p.color}];"
      | none => "];"
  | link n i side child paint =>
    s!"\nn{n}e{i}:{side.letter}:c->n{child} [arrowsize=.50,tailclip=false,arrowtail=dot,dir=both" ++
      match paint with
      | some p => s!",color={p.color}];"
      | none => "];"

/-- The file of a drawing. -/
def graphText (items : List Item) : String :=
  "digraph sdd \x7b\noverlap=false\n" ++ String.join (items.map Item.text) ++ "\n\n\n\x7d\n"

end Sentential.Dot
