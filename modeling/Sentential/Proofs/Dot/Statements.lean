import Sentential.Dot.Basic
import Sentential.Proofs.Text.Rendered
import Sentential.Proofs.Weight.OneLine

/-!
# The statements of a drawing

Apart from its looks an item is a statement: it declares a name, or it draws an edge between two
names. Circles and boxes are named by a number, and tables by that of their circle and a position.
The names of different things are different (`Mark.name?_inj`).

A statement begins a line of the file, and no other line of the file begins with the letter that all
names begin with. So the statements can be read off the file (`statementTexts`), and as long as no
label has a line break they are those of the items, in their order (`statementTexts_graphText`).
-/

namespace Sentential.Dot

open Text

/-! ## Names -/

/-- The name of a circle or of a box. -/
def nodeName (n : Nat) : Field := 'n' :: natField n

/-- The name of a table. -/
def tableName (n i : Nat) : Field := nodeName n ++ 'e' :: natField i

theorem natField_inj {m n : Nat} (h : natField m = natField n) : m = n := by
  have hread := Decimal.readDigits?_digits m
  rw [show Decimal.digits m = Decimal.digits n from h, Decimal.readDigits?_digits] at hread
  exact (Option.some_inj.1 hread).symm

theorem nodeName_inj {m n : Nat} (h : nodeName m = nodeName n) : m = n :=
  natField_inj (List.cons.inj h).2

theorem letter_notMem_nodeName (n : Nat) : 'e' ∉ nodeName n := by
  rw [nodeName, List.mem_cons, not_or]
  exact ⟨by decide, Decimal.notMem_digits (by decide) n⟩

theorem nodeName_ne_tableName (m n i : Nat) : nodeName m ≠ tableName n i := by
  intro h
  apply letter_notMem_nodeName m
  rw [h, tableName]
  exact List.mem_append_right _ List.mem_cons_self

theorem tableName_inj {m n i j : Nat} (h : tableName m i = tableName n j) : m = n ∧ i = j := by
  have hposition : 'e' ∉ natField i := Decimal.notMem_digits (by decide) i
  obtain ⟨hname, -, hindex⟩ :=
    (List.append_cons_inj_of_notMem (letter_notMem_nodeName m) hposition).1 h
  exact ⟨nodeName_inj hname, natField_inj hindex⟩

/-! ## Statements -/

/-- An end of an edge: a name, and where at the thing of this name the edge ends. -/
structure End where
  name : Field
  port : List Char := []

def End.text (e : End) : List Char := e.name ++ e.port

/-- What the file says besides looks. -/
inductive Statement where
  | declare (name : Field)
  | edge (tail head : End)

namespace Statement

def text : Statement → List Char
  | declare name => name
  | edge tail head => tail.text ++ '-' :: '>' :: head.text

/-- The name that is declared. -/
def name? : Statement → Option Field
  | declare name => some name
  | edge .. => none

/-- The names that are joined. -/
def ends : Statement → List Field
  | declare _ => []
  | edge tail head => [tail.name, head.name]

end Statement

/-! ## Items without their looks -/

/-- What an item is, whatever it looks like. -/
inductive Mark where
  | box (node : Nat)
  | circle (node : Nat)
  | table (node index : Nat)
  | tie (node index : Nat)
  | link (node index : Nat) (side : Side) (child : Nat)
deriving DecidableEq, Repr

namespace Mark

/-- The number of the node that an item is drawn for. -/
def owner : Mark → Nat
  | box n => n
  | circle n => n
  | table n _ => n
  | tie n _ => n
  | link n _ _ _ => n

/-- The position of the element that an item is drawn for. -/
def position? : Mark → Option Nat
  | box _ => none
  | circle _ => none
  | table _ i => some i
  | tie _ i => some i
  | link _ i _ _ => some i

def statement : Mark → Statement
  | box n => .declare (nodeName n)
  | circle n => .declare (nodeName n)
  | table n i => .declare (tableName n i)
  | tie n i => .edge ⟨nodeName n, []⟩ ⟨tableName n i, ":T".toList⟩
  | link n i side child =>
    .edge ⟨tableName n i, ':' :: (side.letter.toList ++ ":c".toList)⟩ ⟨nodeName child, []⟩

/-- The name that an item declares. -/
def name? (m : Mark) : Option Field := m.statement.name?

/-- Only a box and a circle of the same number could have one name. -/
theorem name?_inj {a b : Mark} {name : Field} (ha : a.name? = some name) (hb : b.name? = some name)
    (hbox : ∀ n, ¬ (a = box n ∧ b = circle n) ∧ ¬ (a = circle n ∧ b = box n)) : a = b := by
  have hname : a.name? = b.name? := ha.trans hb.symm
  cases a <;> cases b <;>
    simp only [name?, statement, Statement.name?, Option.some_inj, reduceCtorEq] at ha hb hname
  case box.box => rw [nodeName_inj hname]
  case box.circle n m => exact absurd ⟨rfl, by rw [nodeName_inj hname]⟩ (hbox n).1
  case box.table => exact absurd hname (nodeName_ne_tableName _ _ _)
  case circle.box n m => exact absurd ⟨rfl, by rw [nodeName_inj hname]⟩ (hbox n).2
  case circle.circle => rw [nodeName_inj hname]
  case circle.table => exact absurd hname (nodeName_ne_tableName _ _ _)
  case table.box => exact absurd hname.symm (nodeName_ne_tableName _ _ _)
  case table.circle => exact absurd hname.symm (nodeName_ne_tableName _ _ _)
  case table.table =>
    obtain ⟨rfl, rfl⟩ := tableName_inj hname
    rfl

end Mark

def Item.mark : Item → Mark
  | .box n _ => .box n
  | .circle n _ _ => .circle n
  | .table n i _ _ _ => .table n i
  | .tie n i _ => .tie n i
  | .link n i side child _ => .link n i side child

/-! ## The lines of an item -/

/-- What stands behind the statement on the first line of an item. -/
def Item.looks : Item → List Char
  | .box _ label => ' ' :: s!"[label=\"{label}\",shape=box];".toList
  | .circle _ v color =>
    ' ' :: (s!"[label=\"{v.raw}\",style=filled,fillcolor=gray95,shape=circle,fixedsize=true," ++
      "height=.5,width=.5" ++
      match color with
      | some c => s!",color={c},xlabel=\"\"];"
      | none => "];").toList
  | .table .. => []
  | .tie _ _ paint =>
    ' ' :: ("[arrowsize=.50" ++
      match paint with
      | some p => s!",label=<{p.label}>,color={p.color}];"
      | none => "];").toList
  | .link _ _ _ _ paint =>
    ' ' :: ("[arrowsize=.50,tailclip=false,arrowtail=dot,dir=both" ++
      match paint with
      | some p => s!",color={p.color}];"
      | none => "];").toList

/-- The other lines of an item. -/
def Item.more : Item → List (List Char)
  | .table _ _ paint left right =>
    ["[label=<".toList, "<TABLE ".toList ++ ((tableFrame paint).toList ++ ['>']), "<TR>".toList,
      "<TD PORT=\"L\">".toList ++ (left.toList ++ "</TD>".toList),
      "<TD PORT=\"R\">".toList ++ (right.toList ++ "</TD>".toList),
      "</TR>".toList, "</TABLE>".toList, ">,".toList,
      "shape=none,margin=0,fillcolor=white,style=filled,".toList,
      "fontsize=20,fontname=\"Times\",".toList, "];".toList, []]
  | _ => []

/-- All lines of an item. -/
def Item.lines (x : Item) : List (List Char) := (x.mark.statement.text ++ x.looks) :: x.more

theorem toList_repr (n : Nat) : n.repr.toList = natField n := Nat.toList_repr

/-- An item is written as its statement and its looks, every line behind a line break. -/
theorem Item.toList_text (x : Item) : x.text.toList = x.lines.flatMap ('\n' :: ·) := by
  rw [lines, List.flatMap_cons]
  have hnode : "\nn".toList = ['\n', 'n'] := by decide
  have hletter : "e".toList = ['e'] := by decide
  have hlabel : " [label=\"".toList = ' ' :: "[label=\"".toList := by decide
  cases x with
  | box n label =>
    unfold text looks
    simp only [ToString.toString, String.toList_append, toList_repr, hnode, hlabel]
    simp only [more, mark, Mark.statement, Statement.text, nodeName, List.flatMap_nil,
      List.append_nil, List.append_assoc, List.cons_append, List.nil_append]
  | circle n v color =>
    unfold text looks
    cases color <;>
      simp only [ToString.toString, String.toList_append, toList_repr, hnode, hlabel, more, mark,
        Mark.statement, Statement.text, nodeName, List.flatMap_nil, List.append_nil,
        List.append_assoc, List.cons_append, List.nil_append]
  | table n i paint left right =>
    have hopen : "\n[label=<\n<TABLE ".toList
        = '\n' :: "[label=<".toList ++ '\n' :: "<TABLE ".toList := by decide
    have hrow : ">\n<TR>\n<TD PORT=\"L\">".toList
        = '>' :: '\n' :: "<TR>".toList ++ '\n' :: "<TD PORT=\"L\">".toList := by decide
    have hcell : "</TD>\n".toList = "</TD>".toList ++ ['\n'] := by decide
    have hclose : "</TD>\n</TR>\n</TABLE>\n>,\n".toList
        = "</TD>".toList ++ '\n' :: "</TR>".toList ++ '\n' :: "</TABLE>".toList ++
          '\n' :: ">,".toList ++ ['\n'] := by decide
    have hend :
        "shape=none,margin=0,fillcolor=white,style=filled,\nfontsize=20,fontname=\"Times\",\n];\n".toList
        = "shape=none,margin=0,fillcolor=white,style=filled,".toList ++
          '\n' :: "fontsize=20,fontname=\"Times\",".toList ++ '\n' :: "];".toList ++ ['\n'] := by
      decide
    unfold text looks more
    simp only [ToString.toString, String.toList_append, toList_repr, hnode, hletter, hopen, hrow,
      hcell, hclose, hend]
    simp only [mark, Mark.statement, Statement.text, tableName, nodeName, List.flatMap_cons,
      List.flatMap_nil, List.append_assoc, List.cons_append, List.nil_append, List.append_nil]
  | tie n i paint =>
    have harrow : "->n".toList = ['-', '>', 'n'] := by decide
    have hport : ":T [arrowsize=.50".toList = ":T".toList ++ ' ' :: "[arrowsize=.50".toList := by
      decide
    unfold text looks
    cases paint <;>
      simp only [ToString.toString, String.toList_append, toList_repr, hnode, hletter, harrow, hport,
        more, mark, Mark.statement, Statement.text, End.text, tableName, nodeName, List.flatMap_nil,
        List.append_nil, List.append_assoc, List.cons_append, List.nil_append]
  | link n i side child paint =>
    have hcolon : ":".toList = [':'] := by decide
    have harrow : ":c->n".toList = ":c".toList ++ ['-', '>', 'n'] := by decide
    have hlooks : " [arrowsize=.50,tailclip=false,arrowtail=dot,dir=both".toList
        = ' ' :: "[arrowsize=.50,tailclip=false,arrowtail=dot,dir=both".toList := by decide
    unfold text looks
    cases paint <;>
      simp only [ToString.toString, String.toList_append, toList_repr, hnode, hletter, hcolon, harrow,
        hlooks, more, mark, Mark.statement, Statement.text, End.text, tableName, nodeName,
        List.flatMap_nil, List.append_nil, List.append_assoc, List.cons_append, List.nil_append]

/-! ## Reading the statements off a file -/

/-- The statement that a line of a file begins with, up to the first blank. -/
def statementText? (line : List Char) : Option (List Char) :=
  if line.head? = some 'n' then some (line.takeWhile (· ≠ ' ')) else none

/-- The statements of a file, in their order. -/
def statementTexts (text : List Char) : List (List Char) :=
  (text.splitOn '\n').filterMap statementText?

theorem statementTexts_lines {first : List Char} {ls : List (List Char)} (hfirst : '\n' ∉ first)
    (hls : ∀ l ∈ ls, '\n' ∉ l) : statementTexts (first ++ ls.flatMap ('\n' :: ·))
      = (first :: ls).filterMap statementText? := by
  unfold statementTexts
  congr 1
  induction ls generalizing first with
  | nil => rw [List.flatMap_nil, List.append_nil, List.splitOn_eq_singleton hfirst]
  | cons l ls ih =>
    obtain ⟨hl, hls⟩ := List.forall_mem_cons.1 hls
    rw [List.flatMap_cons, List.cons_append, List.splitOn_append_cons_self_of_not_mem hfirst,
      ih hl hls]

/-- The text of a statement begins with the letter of all names and has neither blanks nor line
breaks. -/
theorem Mark.text_spec (m : Mark) : m.statement.text.head? = some 'n' ∧
    (∀ c ∈ m.statement.text, c ≠ ' ') ∧ '\n' ∉ m.statement.text := by
  have hnat : ∀ {c : Char}, c.isDigit = false → ∀ n, c ∉ natField n := Decimal.notMem_digits
  have hside : ∀ side : Side, ' ' ∉ side.letter.toList ∧ '\n' ∉ side.letter.toList := by
    rintro (_ | _) <;> decide
  have hblank : ∀ n, ' ' ∉ natField n := hnat (by decide)
  have hbreak : ∀ n, '\n' ∉ natField n := hnat (by decide)
  have hmem : (∀ c ∈ m.statement.text, c ≠ ' ') ↔ ' ' ∉ m.statement.text :=
    ⟨fun h hc => h ' ' hc rfl, fun h c hc heq => h (heq ▸ hc)⟩
  rw [hmem]
  cases m <;>
    simp [statement, Statement.text, End.text, tableName, nodeName, hblank, hbreak, hside]

/-! ## Looks that take one line -/

/-- A label or a color without line breaks. -/
def OneLine (s : String) : Prop := '\n' ∉ s.toList

instance : DecidablePred OneLine := fun s => inferInstanceAs (Decidable ('\n' ∉ s.toList))

def Paint.OneLine (p : Paint) : Prop := Dot.OneLine p.label ∧ Dot.OneLine p.color

/-- All labels and colors of an item are without line breaks. -/
def Item.OneLine : Item → Prop
  | .box _ label => Dot.OneLine label
  | .circle _ _ color => ∀ c, color = some c → Dot.OneLine c
  | .table _ _ paint left right =>
    (∀ p, paint = some p → p.OneLine) ∧ Dot.OneLine left ∧ Dot.OneLine right
  | .tie _ _ paint => ∀ p, paint = some p → p.OneLine
  | .link _ _ _ _ paint => ∀ p, paint = some p → p.OneLine

theorem newline_notMem_tableFrame {paint : Option Paint} (h : ∀ p, paint = some p → p.OneLine) :
    '\n' ∉ (tableFrame paint).toList := by
  cases paint with
  | none => decide
  | some p =>
    have hcolor : '\n' ∉ p.color.toList := (h p rfl).2
    unfold tableFrame
    rw [String.toList_append, List.mem_append, not_or]
    refine ⟨by decide, ?_⟩
    simp only [String.toList_append, ToString.toString, List.mem_append, not_or]
    exact ⟨⟨by decide, hcolor⟩, by decide⟩

/-- A blank stands between the statement of an item and its looks. -/
theorem Item.looks_eq (x : Item) : x.looks = [] ∨ ∃ rest, x.looks = ' ' :: rest := by
  cases x with
  | table n i paint left right => exact Or.inl rfl
  | _ => exact Or.inr ⟨_, rfl⟩

/-- The looks of such an item take the first line to its end. -/
theorem Item.OneLine.newline_notMem_looks {x : Item} (h : x.OneLine) : '\n' ∉ x.looks := by
  cases x with
  | box n label =>
    have hlabel : '\n' ∉ label.toList := h
    simp only [looks, String.toList_append, ToString.toString, List.mem_cons, List.mem_append, not_or]
    exact ⟨by decide, ⟨by decide, hlabel⟩, by decide⟩
  | circle n v color =>
    have hvtree : '\n' ∉ natField v.raw := Decimal.notMem_digits (by decide) v.raw
    simp only [looks, String.toList_append, ToString.toString, toList_repr, List.mem_cons,
      List.mem_append, not_or]
    refine ⟨by decide, ⟨⟨⟨by decide, hvtree⟩, by decide⟩, by decide⟩, ?_⟩
    cases color with
    | none => decide
    | some c =>
      have hcolor : '\n' ∉ c.toList := h c rfl
      simp only [String.toList_append, List.mem_append, not_or]
      exact ⟨⟨by decide, hcolor⟩, by decide⟩
  | table n i paint left right => exact List.not_mem_nil
  | tie n i paint =>
    simp only [looks, String.toList_append, ToString.toString, List.mem_cons, List.mem_append, not_or]
    refine ⟨by decide, by decide, ?_⟩
    cases paint with
    | none => decide
    | some p =>
      have hlabel : '\n' ∉ p.label.toList := (h p rfl).1
      have hcolor : '\n' ∉ p.color.toList := (h p rfl).2
      simp only [String.toList_append, List.mem_append, not_or]
      exact ⟨⟨⟨⟨by decide, hlabel⟩, by decide⟩, hcolor⟩, by decide⟩
  | link n i side child paint =>
    simp only [looks, String.toList_append, ToString.toString, List.mem_cons, List.mem_append, not_or]
    refine ⟨by decide, by decide, ?_⟩
    cases paint with
    | none => decide
    | some p =>
      have hcolor : '\n' ∉ p.color.toList := (h p rfl).2
      simp only [String.toList_append, List.mem_append, not_or]
      exact ⟨⟨by decide, hcolor⟩, by decide⟩

/-- A line that begins with a tag takes one line and begins with another letter than names do. -/
theorem newline_notMem_tag {tag rest : List Char} (hhead : tag.head? = some '<') (htag : '\n' ∉ tag)
    (hrest : '\n' ∉ rest) : '\n' ∉ tag ++ rest ∧ (tag ++ rest).head? ≠ some 'n' := by
  rw [List.mem_append, not_or, List.head?_append, hhead]
  exact ⟨⟨htag, hrest⟩, by simp⟩

/-- The other lines of such an item begin with another letter than names do. -/
theorem Item.OneLine.spec_more {x : Item} (h : x.OneLine) :
    ∀ l ∈ x.more, '\n' ∉ l ∧ l.head? ≠ some 'n' := by
  cases x with
  | table n i paint left right =>
    obtain ⟨hpaint, hleft, hright⟩ := h
    have hframe : '\n' ∉ (tableFrame paint).toList ++ ['>'] := by
      rw [List.mem_append, not_or]
      exact ⟨newline_notMem_tableFrame hpaint, by decide⟩
    have hcell : ∀ {label : String}, Dot.OneLine label → '\n' ∉ label.toList ++ "</TD>".toList := by
      intro label hlabel
      rw [List.mem_append, not_or]
      exact ⟨hlabel, by decide⟩
    simp only [more, List.forall_mem_cons]
    exact ⟨by decide, newline_notMem_tag (by decide) (by decide) hframe, by decide,
      newline_notMem_tag (by decide) (by decide) (hcell hleft),
      newline_notMem_tag (by decide) (by decide) (hcell hright),
      by decide, by decide, by decide, by decide, by decide, by decide, by simp, by simp⟩
  | _ => simp [more]

theorem Item.OneLine.newline_notMem {x : Item} (h : x.OneLine) : ∀ l ∈ x.lines, '\n' ∉ l := by
  rw [lines, List.forall_mem_cons, List.mem_append, not_or]
  exact ⟨⟨x.mark.text_spec.2.2, h.newline_notMem_looks⟩, fun l hl => (h.spec_more l hl).1⟩

/-- The lines of such an item are one statement. -/
theorem Item.OneLine.filterMap_lines {x : Item} (h : x.OneLine) :
    x.lines.filterMap statementText? = [x.mark.statement.text] := by
  obtain ⟨hhead, hblank, -⟩ := x.mark.text_spec
  have hsilent : x.more.filterMap statementText? = [] := by
    rw [List.filterMap_eq_nil_iff]
    intro l hl
    rw [statementText?, if_neg (h.spec_more l hl).2]
  have hfirst : statementText? (x.mark.statement.text ++ x.looks) = some x.mark.statement.text := by
    rw [statementText?, if_pos (by rw [List.head?_append, hhead]; rfl),
      List.takeWhile_append_of_pos (by simpa using hblank)]
    rcases x.looks_eq with hlooks | ⟨rest, hlooks⟩ <;> simp [hlooks]
  rw [lines, List.filterMap_cons_some hfirst, hsilent]

/-- The statements of a file are those of its items if no label has a line break. -/
theorem statementTexts_graphText {items : List Item} (h : ∀ x ∈ items, x.OneLine) :
    statementTexts (graphText items).toList = items.map fun x => x.mark.statement.text := by
  have htext : (graphText items).toList = "digraph sdd \x7b".toList ++
      (["overlap=false".toList, []] ++ (items.flatMap Item.lines ++ [[], [], ['\x7d'], []])).flatMap
        ('\n' :: ·) := by
    have hgraph : graphText items = "digraph sdd \x7b\noverlap=false\n" ++
        String.join (items.map Item.text) ++ "\n\n\n\x7d\n" := rfl
    have hbegin : "digraph sdd \x7b\noverlap=false\n".toList
        = "digraph sdd \x7b".toList ++ '\n' :: "overlap=false".toList ++ ['\n'] := by decide
    have hend : "\n\n\n\x7d\n".toList = ['\n', '\n', '\n', '\x7d', '\n'] := by decide
    have hitems : items.flatMap (fun x => x.text.toList)
        = (items.flatMap Item.lines).flatMap ('\n' :: ·) := by
      rw [List.flatMap_assoc]
      exact List.flatMap_congr fun x _ => x.toList_text
    rw [hgraph]
    simp only [String.toList_append, String.toList_join, List.flatMap_map, hitems, hbegin, hend]
    simp only [List.flatMap_append, List.flatMap_cons, List.flatMap_nil, List.append_assoc,
      List.cons_append, List.nil_append, List.append_nil]
  have hlines : (items.flatMap Item.lines).filterMap statementText?
      = items.map fun x => x.mark.statement.text := by
    rw [List.filterMap_flatMap, List.flatMap_congr fun x hx => (h x hx).filterMap_lines]
    exact List.map_eq_flatMap.symm
  have hbreaks : ∀ l ∈ ["overlap=false".toList, []] ++
      (items.flatMap Item.lines ++ [[], [], ['\x7d'], []]), '\n' ∉ l := by
    simp only [List.forall_mem_append, List.forall_mem_flatMap]
    exact ⟨by decide, fun x hx => (h x hx).newline_notMem, by decide⟩
  have hbefore : ["digraph sdd \x7b".toList, "overlap=false".toList, []].filterMap statementText?
      = [] := by decide
  have hbehind : ([[], [], ['\x7d'], []] : List (List Char)).filterMap statementText? = [] := by decide
  rw [htext, statementTexts_lines (by decide) hbreaks, ← List.cons_append, List.filterMap_append,
    List.filterMap_append, hbefore, hbehind, hlines, List.nil_append, List.append_nil]

end Sentential.Dot
