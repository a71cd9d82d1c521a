import Cppboot.Bytes

/-!
# Documents in HTML

A document is a title and a tree of elements, written line by line with as many tabs as an
element is deep. An element without children and without a text has no end tag. A table
writes its rows and cells itself.

Nothing is escaped. A document of plain elements, without tables and inputs, can be told
from what is written of it as long as no name, attribute or text holds a character that
ends it: the tabs say where the children of an element end. A table reads as the elements
for its rows and cells.
-/

namespace Cppboot.Html

/-- `Element`, and the classes that write themselves differently. -/
inductive Element where
  | element (name_ : Bytes) (attr_ : List (Bytes × Bytes)) (text_ : Bytes)
      (children_ : List Element)
  | input (id_ label_ value_ : Bytes)
  | table (heads_ : List Bytes) (data_ : List (List Bytes))

def tab : UInt8 := 9

def newline : UInt8 := 10

/-- The indentation of an element that is so deep. -/
def prefixOf (depth : Nat) : Bytes := List.replicate depth tab

/-- The attributes in a start tag, each behind a blank. -/
def dumpAttr : List (Bytes × Bytes) → Bytes
  | [] => []
  | (name, value) :: attr =>
    byte ' ' :: (name ++ byte '=' :: byte '"' :: (value ++ byte '"' :: dumpAttr attr))

/-- The end tag and the end of its line. -/
def endTag (name : Bytes) : Bytes := byte '<' :: byte '/' :: (name ++ [byte '>', newline])

/-- A line with a start tag, a text and the end tag. -/
def line (depth : Nat) (name content : Bytes) : Bytes :=
  prefixOf depth ++ byte '<' :: (name ++ byte '>' :: (content ++ endTag name))

/-- A line with a start tag, lines, and a line with the end tag. -/
def block (depth : Nat) (name : Bytes) (lines : Bytes) : Bytes :=
  prefixOf depth ++ byte '<' ::
    (name ++ byte '>' :: newline :: (lines ++ (prefixOf depth ++ endTag name)))

/-- A row of a table, with its cells under a name. -/
def dumpRow (depth : Nat) (cell : Bytes) (cells : List Bytes) : Bytes :=
  block depth (text "tr") (cells.flatMap (line (depth + 1) cell))

/-- `Table::Dump`. -/
def dumpTable (depth : Nat) (heads_ : List Bytes) (data_ : List (List Bytes)) : Bytes :=
  block depth (text "table")
    ((if heads_.isEmpty then [] else dumpRow (depth + 1) (text "th") heads_) ++
      data_.flatMap fun row => dumpRow (depth + 1) (text "td") (row.take heads_.length))

/-- `Input::Dump`. -/
def dumpInput (depth : Nat) (id_ label_ value_ : Bytes) : Bytes :=
  prefixOf depth ++ text "<label for=\"" ++ id_ ++ text "\">" ++ label_ ++ text "</label>\n" ++
    prefixOf depth ++ text "<input type=\"text\" id=\"" ++ id_ ++ text "\" name=\"" ++ id_ ++
    text "\" value=\"" ++ value_ ++ text "\"><br>\n"

mutual

/-- `Element::Dump`. -/
def dump (depth : Nat) : Element → Bytes
  | .element name_ attr_ text_ children_ =>
    prefixOf depth ++ byte '<' :: (name_ ++ (dumpAttr attr_ ++ byte '>' ::
      (if children_.isEmpty then if text_.isEmpty then [newline] else text_ ++ endTag name_
       else newline :: (dumpAll (depth + 1) children_ ++ (prefixOf depth ++ endTag name_)))))
  | .input id_ label_ value_ => dumpInput depth id_ label_ value_
  | .table heads_ data_ => dumpTable depth heads_ data_

/-- The elements one after the other. -/
def dumpAll (depth : Nat) : List Element → Bytes
  | [] => []
  | element :: elements => dump depth element ++ dumpAll depth elements

end

/-- A title, and the elements of the body. -/
structure Document where
  title_ : Bytes
  body_ : Element

/-- What comes before the title. -/
def front : Bytes :=
  text "<!DOCTYPE html>\n" ++ text "<html>\n" ++ text "<head>\n" ++
    text "<meta charset=\"UTF-8\">\n" ++ text "<style>\n" ++ text "table, th, td \x7b\n" ++
    text "  border: 1px solid black;\n" ++ text "  border-collapse: collapse;\n" ++
    text "\x7d\n" ++ text "</style>\n"

/-- `Document::Dump`. -/
def Document.dump (document : Document) : Bytes :=
  front ++ (text "<title>" ++ (document.title_ ++ (text "</title>\n" ++ (text "</head>\n" ++
    (Html.dump 0 document.body_ ++ text "</html>\n")))))

/-! ## Legible documents -/

/-- None of the characters is one that ends the text. -/
def Free (stops : List UInt8) (s : Bytes) : Prop := ∀ c ∈ s, c ∉ stops

instance (stops : List UInt8) (s : Bytes) : Decidable (Free stops s) :=
  inferInstanceAs (Decidable (∀ c ∈ s, c ∉ stops))

mutual

/-- The element and those in it are plain ones, nothing in it ends what it stands in, and a
text has no children beside. -/
def Legible : Element → Prop
  | .element name_ attr_ text_ children_ =>
    Free [byte ' ', byte '>'] name_ ∧
      (∀ pair ∈ attr_, Free [byte '='] pair.1 ∧ Free [byte '"'] pair.2) ∧
      Free [byte '<', newline] text_ ∧ (children_ = [] ∨ text_ = []) ∧ AllLegible children_
  | .input .. => False
  | .table .. => False

/-- All of them are. -/
def AllLegible : List Element → Prop
  | [] => True
  | element :: elements => Legible element ∧ AllLegible elements

end

/-- Up to the first character that ends it a text is determined. -/
theorem free_unique {stops : List UInt8} {s t : Bytes} (free : Free stops s) (other : Free stops t)
    {c d : UInt8} (ends : c ∈ stops) (stop : d ∈ stops) {rest more : Bytes}
    (same : s ++ c :: rest = t ++ d :: more) : s = t ∧ c :: rest = d :: more := by
  induction s generalizing t with
  | nil =>
    cases t with
    | nil => exact ⟨rfl, same⟩
    | cons b t =>
      obtain ⟨rfl, _⟩ := List.cons.inj same
      exact absurd ends (other c List.mem_cons_self)
  | cons b s inductionHypothesis =>
    cases t with
    | nil =>
      obtain ⟨rfl, _⟩ := List.cons.inj same
      exact absurd stop (free b List.mem_cons_self)
    | cons a t =>
      obtain ⟨rfl, tails⟩ := List.cons.inj same
      obtain ⟨rfl, behind⟩ := inductionHypothesis
        (fun c member => free c (List.mem_cons_of_mem _ member))
        (fun c member => other c (List.mem_cons_of_mem _ member)) tails
      exact ⟨rfl, behind⟩

/-- The attributes begin with a blank, or the tag ends. -/
theorem dumpAttr_begins (attr : List (Bytes × Bytes)) (rest : Bytes) :
    ∃ c more, dumpAttr attr ++ byte '>' :: rest = c :: more ∧ c ∈ [byte ' ', byte '>'] := by
  cases attr with
  | nil => exact ⟨_, _, rfl, List.mem_cons_of_mem _ List.mem_cons_self⟩
  | cons pair attr => exact ⟨_, _, rfl, List.mem_cons_self⟩

/-- The attributes are determined by what is written of them. -/
theorem dumpAttr_unique {attr other : List (Bytes × Bytes)}
    (free : ∀ pair ∈ attr, Free [byte '='] pair.1 ∧ Free [byte '"'] pair.2)
    (plain : ∀ pair ∈ other, Free [byte '='] pair.1 ∧ Free [byte '"'] pair.2) {rest more : Bytes}
    (same : dumpAttr attr ++ byte '>' :: rest = dumpAttr other ++ byte '>' :: more) :
    attr = other ∧ rest = more := by
  induction attr generalizing other with
  | nil =>
    cases other with
    | nil => exact ⟨rfl, (List.cons.inj same).2⟩
    | cons pair other => exact absurd (List.cons.inj same).1 (by decide)
  | cons pair attr inductionHypothesis =>
    cases other with
    | nil => exact absurd (List.cons.inj same).1 (by decide)
    | cons first other =>
      obtain ⟨name, value⟩ := pair
      obtain ⟨label, content⟩ := first
      obtain ⟨named, valued⟩ := free _ List.mem_cons_self
      obtain ⟨labelled, contained⟩ := plain _ List.mem_cons_self
      simp only [dumpAttr, List.cons_append, List.append_assoc, List.cons.injEq, true_and] at same
      obtain ⟨rfl, valueFrom⟩ :=
        free_unique named labelled List.mem_cons_self List.mem_cons_self same
      have quoted := (List.cons.inj (List.cons.inj valueFrom).2).2
      obtain ⟨rfl, attrFrom⟩ :=
        free_unique valued contained List.mem_cons_self List.mem_cons_self quoted
      obtain ⟨rfl, rfl⟩ := inductionHypothesis
        (fun pair member => free pair (List.mem_cons_of_mem _ member))
        (fun pair member => plain pair (List.mem_cons_of_mem _ member)) (List.cons.inj attrFrom).2
      exact ⟨rfl, rfl⟩

/-! ## Depths -/

/-- No element of the depth begins here. -/
def Above (depth : Nat) (s : Bytes) : Prop := ¬ prefixOf depth <+: s

/-- One level deeper there is one tab more. -/
theorem prefixOf_succ (depth : Nat) : prefixOf (depth + 1) = prefixOf depth ++ [tab] :=
  List.replicate_succ'

/-- A tag of a depth ends the elements that are deeper. -/
theorem above_tag (depth : Nat) (rest : Bytes) :
    Above (depth + 1) (prefixOf depth ++ byte '<' :: rest) := by
  rintro ⟨more, same⟩
  rw [prefixOf_succ, List.append_assoc] at same
  have first := (List.cons.inj (List.append_cancel_left same)).1
  exact absurd first (by decide)

/-- What stands above a depth stands above every greater one. -/
theorem Above.deeper {depth : Nat} {s : Bytes} (above : Above depth s) : Above (depth + 1) s := by
  intro begins
  rw [prefixOf_succ] at begins
  exact above ((List.prefix_append _ _).trans begins)

/-- An element begins with its indentation and the start of its tag. -/
theorem dump_begins (depth : Nat) {element : Element} (legible : Legible element) :
    ∃ rest, dump depth element = prefixOf depth ++ byte '<' :: rest := by
  cases element with
  | element name_ attr_ text_ children_ =>
    rw [dump]
    exact ⟨_, rfl⟩
  | input => exact legible.elim
  | table => exact legible.elim

/-- What follows in a document is not deeper than the elements that are written first. -/
theorem Above.behind {depth : Nat} {rest : Bytes} (above : Above depth rest)
    {elements : List Element} (legible : AllLegible elements) :
    Above (depth + 1) (dumpAll depth elements ++ rest) := by
  cases elements with
  | nil => exact above.deeper
  | cons element elements =>
    obtain ⟨more, begins⟩ := dump_begins depth legible.1
    rw [dumpAll, begins, List.append_assoc, List.append_assoc, List.cons_append]
    exact above_tag depth _

/-- What stands behind the start tag of an element. -/
def content (depth : Nat) (name_ text_ : Bytes) (children_ : List Element) : Bytes :=
  if children_.isEmpty then if text_.isEmpty then [newline] else text_ ++ endTag name_
  else newline :: (dumpAll (depth + 1) children_ ++ (prefixOf depth ++ endTag name_))

/-- An element in front of a rest is its tag, its content and the rest. -/
theorem dump_append (depth : Nat) (name_ text_ : Bytes) (attr_ : List (Bytes × Bytes))
    (children_ : List Element) (rest : Bytes) :
    dump depth (.element name_ attr_ text_ children_) ++ rest =
      prefixOf depth ++ byte '<' :: (name_ ++ (dumpAttr attr_ ++ byte '>' ::
        (content depth name_ text_ children_ ++ rest))) := by
  rw [dump, ← content]
  simp only [List.append_assoc, List.cons_append]

/-- A leaf with a text has the text and the end tag on its line. -/
theorem content_text (depth : Nat) (name_ : Bytes) {text_ : Bytes} (filled : text_ ≠ []) :
    content depth name_ text_ [] = text_ ++ endTag name_ :=
  if_neg (mt List.isEmpty_iff.mp filled)

/-- A text does not begin like the content of an element without one. -/
theorem text_begins {text_ : Bytes} (free : Free [byte '<', newline] text_) (filled : text_ ≠ [])
    (rest more : Bytes) : text_ ++ rest ≠ newline :: more := by
  cases text_ with
  | nil => exact absurd rfl filled
  | cons c text_ =>
    intro same
    have first := (List.cons.inj same).1
    have other := free c List.mem_cons_self
    exact other (first ▸ List.mem_cons_of_mem _ List.mem_cons_self)

/-- Children are not taken for a text or for the elements that follow. -/
theorem content_apart {depth : Nat} {name_ text_ words : Bytes}
    (free : Free [byte '<', newline] text_) {child : Element} {children : List Element}
    (legible : Legible child) {rest more : Bytes} (above : Above (depth + 1) rest) :
    content depth name_ text_ [] ++ rest ≠
      content depth name_ words (child :: children) ++ more := by
  intro same
  by_cases bare : text_ = []
  · subst bare
    obtain ⟨behind, begins⟩ := dump_begins (depth + 1) legible
    have follows : rest = dumpAll (depth + 1) (child :: children) ++
        (prefixOf depth ++ endTag name_) ++ more := (List.cons.inj same).2
    rw [dumpAll, begins, List.append_assoc, List.append_assoc, List.append_assoc] at follows
    exact above ⟨_, follows.symm⟩
  · rw [content_text depth name_ bare, List.append_assoc] at same
    exact text_begins free bare _ _ same

/-- What an element contains is determined by what is written of it, if that holds of its
children. -/
theorem content_unique {depth : Nat} {name_ text_ words : Bytes} {children_ children : List Element}
    (free : Free [byte '<', newline] text_) (plain : Free [byte '<', newline] words)
    (single : children_ = [] ∨ text_ = []) (alone : children = [] ∨ words = [])
    (within : AllLegible children_) (inside : AllLegible children) {rest more : Bytes}
    (above : Above (depth + 1) rest) (beyond : Above (depth + 1) more)
    (deeper : ∀ {r m : Bytes}, Above (depth + 1) r → Above (depth + 1) m →
      dumpAll (depth + 1) children_ ++ r = dumpAll (depth + 1) children ++ m →
        children_ = children ∧ r = m)
    (same : content depth name_ text_ children_ ++ rest =
      content depth name_ words children ++ more) :
    text_ = words ∧ children_ = children ∧ rest = more := by
  cases children_ with
  | nil =>
    cases children with
    | nil =>
      by_cases bare : text_ = []
      · subst bare
        by_cases empty : words = []
        · subst empty
          exact ⟨rfl, rfl, (List.cons.inj same).2⟩
        · rw [content_text depth name_ empty, List.append_assoc] at same
          exact absurd same.symm (text_begins plain empty _ _)
      · by_cases empty : words = []
        · subst empty
          rw [content_text depth name_ bare, List.append_assoc] at same
          exact absurd same (text_begins free bare _ _)
        · rw [content_text depth name_ bare, content_text depth name_ empty, List.append_assoc,
            List.append_assoc] at same
          obtain ⟨rfl, behind⟩ :=
            free_unique free plain List.mem_cons_self List.mem_cons_self same
          have ends : endTag name_ ++ rest = endTag name_ ++ more := behind
          exact ⟨rfl, rfl, List.append_cancel_left ends⟩
    | cons child children => exact absurd same (content_apart free inside.1 above)
  | cons first children_ =>
    cases children with
    | nil => exact absurd same.symm (content_apart plain within.1 beyond)
    | cons child children =>
      obtain rfl : text_ = [] := single.resolve_left (List.cons_ne_nil _ _)
      obtain rfl : words = [] := alone.resolve_left (List.cons_ne_nil _ _)
      have lists : dumpAll (depth + 1) (first :: children_) ++
          (prefixOf depth ++ endTag name_) ++ rest = dumpAll (depth + 1) (child :: children) ++
          (prefixOf depth ++ endTag name_) ++ more := (List.cons.inj same).2
      rw [List.append_assoc, List.append_assoc, List.append_assoc, List.append_assoc] at lists
      obtain ⟨equal, behind⟩ := deeper (above_tag depth _) (above_tag depth _) lists
      have ends : endTag name_ ++ rest = endTag name_ ++ more := List.append_cancel_left behind
      exact ⟨rfl, equal, List.append_cancel_left ends⟩

mutual

/-- An element is determined by what is written of it, and so is what follows. -/
theorem dump_unique {depth : Nat} {element other : Element} (legible : Legible element)
    (readable : Legible other) {rest more : Bytes} (above : Above (depth + 1) rest)
    (beyond : Above (depth + 1) more)
    (same : dump depth element ++ rest = dump depth other ++ more) :
    element = other ∧ rest = more := by
  match element, other, legible, readable with
  | .element name_ attr_ text_ children_, .element name attr words children,
    ⟨named, attributed, free, single, within⟩, ⟨labelled, described, plain, alone, inside⟩ =>
    rw [dump_append, dump_append] at same
    have tags := (List.cons.inj (List.append_cancel_left same)).2
    obtain ⟨c, behind, begins, stop⟩ :=
      dumpAttr_begins attr_ (content depth name_ text_ children_ ++ rest)
    obtain ⟨d, follow, starts, ends⟩ :=
      dumpAttr_begins attr (content depth name words children ++ more)
    rw [begins, starts] at tags
    obtain ⟨rfl, attributes⟩ := free_unique named labelled stop ends tags
    rw [← begins, ← starts] at attributes
    obtain ⟨rfl, contents⟩ := dumpAttr_unique attributed described attributes
    obtain ⟨rfl, rfl, rfl⟩ := content_unique free plain single alone within inside above beyond
      (fun high low lists => dumpAll_unique within inside high low lists) contents
    exact ⟨rfl, rfl⟩
  | .input .., _, illegible, _ => exact illegible.elim
  | .table .., _, illegible, _ => exact illegible.elim
  | .element .., .input .., _, illegible => exact illegible.elim
  | .element .., .table .., _, illegible => exact illegible.elim

/-- Elements are determined by what is written of them in front of what is not deeper. -/
theorem dumpAll_unique {depth : Nat} {elements others : List Element}
    (legible : AllLegible elements) (readable : AllLegible others) {rest more : Bytes}
    (above : Above depth rest) (beyond : Above depth more)
    (same : dumpAll depth elements ++ rest = dumpAll depth others ++ more) :
    elements = others ∧ rest = more := by
  match elements, others with
  | [], [] => exact ⟨rfl, same⟩
  | [], other :: others =>
    obtain ⟨behind, begins⟩ := dump_begins depth readable.1
    rw [dumpAll, dumpAll, begins, List.append_assoc, List.append_assoc] at same
    exact absurd ⟨_, same.symm⟩ above
  | element :: elements, [] =>
    obtain ⟨behind, begins⟩ := dump_begins depth legible.1
    rw [dumpAll, dumpAll, begins, List.append_assoc, List.append_assoc] at same
    exact absurd ⟨_, same⟩ beyond
  | element :: elements, other :: others =>
    rw [dumpAll, dumpAll, List.append_assoc, List.append_assoc] at same
    obtain ⟨rfl, behind⟩ := dump_unique legible.1 readable.1 (above.behind legible.2)
      (beyond.behind readable.2) same
    obtain ⟨rfl, rfl⟩ := dumpAll_unique legible.2 readable.2 above beyond behind
    exact ⟨rfl, rfl⟩

end

/-! ## Documents -/

/-- A legible document is determined by what is written of it. -/
theorem Document.dump_inj {document other : Document}
    (titled : Free [byte '<'] document.title_) (named : Free [byte '<'] other.title_)
    (legible : Legible document.body_) (readable : Legible other.body_) :
    document.dump = other.dump ↔ document = other := by
  constructor
  · intro same
    obtain ⟨title_, body_⟩ := document
    obtain ⟨title, body⟩ := other
    have titles := List.append_cancel_left (List.append_cancel_left same)
    have stop : text "</title>\n" = byte '<' :: text "/title>\n" := rfl
    dsimp only at titles titled named
    rw [stop, List.cons_append, List.cons_append] at titles
    obtain ⟨rfl, behind⟩ := free_unique titled named List.mem_cons_self List.mem_cons_self titles
    have bodies := List.append_cancel_left (List.append_cancel_left (List.cons.inj behind).2)
    have closing : Above 1 (text "</html>\n") := above_tag 0 _
    obtain ⟨rfl, _⟩ := dump_unique legible readable closing closing bodies
    rfl
  · exact congrArg Document.dump

/-- An element with children only. -/
def group (name : Bytes) (children : List Element) : Element := .element name [] [] children

/-- A group of legible elements is legible. -/
theorem group_legible {name : Bytes} (free : Free [byte ' ', byte '>'] name)
    {children : List Element} (legible : AllLegible children) : Legible (group name children) :=
  ⟨free, fun _ nothing => absurd nothing List.not_mem_nil,
    fun _ nothing => absurd nothing List.not_mem_nil, Or.inr rfl, legible⟩

/-- A point of a list is told from one behind the list. -/
theorem nesting_differs :
    Document.dump ⟨text "T", group (text "body") [group (text "ul") [group (text "li") []]]⟩ ≠
      Document.dump
        ⟨text "T", group (text "body") [group (text "ul") [], group (text "li") []]⟩ := by
  have title : Free [byte '<'] (text "T") := by decide +kernel
  have body : Free [byte ' ', byte '>'] (text "body") := by decide +kernel
  have list : Free [byte ' ', byte '>'] (text "ul") := by decide +kernel
  have point : Legible (group (text "li") []) := group_legible (by decide +kernel) trivial
  have nested : Legible (group (text "body") [group (text "ul") [group (text "li") []]]) :=
    group_legible body ⟨group_legible list ⟨point, trivial⟩, trivial⟩
  have beside : Legible (group (text "body") [group (text "ul") [], group (text "li") []]) :=
    group_legible body ⟨group_legible list trivial, point, trivial⟩
  intro same
  cases (Document.dump_inj title title nested beside).mp same

/-! ## Tables -/

/-- The elements that a table reads as. -/
def cellElement (name content : Bytes) : Element := .element name [] content []

/-- A row as an element: a group of cells. -/
def rowElement (cell : Bytes) (cells : List Bytes) : Element :=
  group (text "tr") (cells.map (cellElement cell))

/-- A table as an element: the row of its heads in front of its data. -/
def tableElement (heads_ : List Bytes) (data_ : List (List Bytes)) : Element :=
  group (text "table")
    (rowElement (text "th") heads_ ::
      data_.map fun row => rowElement (text "td") (row.take heads_.length))

/-- What is written of elements is what is written of each. -/
theorem dumpAll_flatMap (depth : Nat) (elements : List Element) :
    dumpAll depth elements = elements.flatMap (dump depth) := by
  induction elements with
  | nil => rfl
  | cons element elements inductionHypothesis =>
    rw [dumpAll, inductionHypothesis, List.flatMap_cons]

/-- A group is written as a block. -/
theorem dump_group (depth : Nat) (name : Bytes) {children : List Element} (filled : children ≠ []) :
    dump depth (group name children) = block depth name (children.flatMap (dump (depth + 1))) := by
  rw [group, dump, if_neg (mt List.isEmpty_iff.mp filled), dumpAll_flatMap]
  rfl

/-- A cell with a content is written on one line. -/
theorem dump_cell (depth : Nat) (name : Bytes) {content : Bytes} (filled : content ≠ []) :
    dump depth (cellElement name content) = line depth name content := by
  have ends : (if content.isEmpty then [newline] else content ++ endTag name) =
      content ++ endTag name := if_neg (mt List.isEmpty_iff.mp filled)
  rw [line, ← ends]
  rfl

/-- A row of filled cells is written as the element for it. -/
theorem dump_row (depth : Nat) (cell : Bytes) {cells : List Bytes} (shown : cells ≠ [])
    (filled : ∀ content ∈ cells, content ≠ []) :
    dump depth (rowElement cell cells) = dumpRow depth cell cells := by
  have lines : cells.flatMap (fun content => dump (depth + 1) (cellElement cell content)) =
      cells.flatMap (line (depth + 1) cell) :=
    List.flatMap_congr fun content member => dump_cell (depth + 1) cell (filled content member)
  rw [rowElement, dump_group depth _ (mt List.map_eq_nil_iff.mp shown), List.flatMap_map, lines]
  rfl

/-- A table is written as its elements are when no cell, no row and not the heading is empty. -/
theorem table_reads (depth : Nat) {heads_ : List Bytes} {data_ : List (List Bytes)}
    (headed : heads_ ≠ []) (rows : ∀ row ∈ data_, row ≠ [])
    (named : ∀ content ∈ heads_, content ≠ [])
    (filled : ∀ row ∈ data_, ∀ content ∈ row, content ≠ []) :
    dump depth (.table heads_ data_) = dump depth (tableElement heads_ data_) := by
  have below : data_.flatMap (fun row =>
        dump (depth + 1) (rowElement (text "td") (row.take heads_.length))) =
      data_.flatMap fun row => dumpRow (depth + 1) (text "td") (row.take heads_.length) := by
    refine List.flatMap_congr fun row member => ?_
    refine dump_row (depth + 1) _ ?_ fun content inside =>
      filled row member content (List.mem_of_mem_take inside)
    rw [Ne, List.take_eq_nil_iff, not_or]
    exact ⟨mt List.length_eq_zero_iff.mp headed, rows row member⟩
  rw [tableElement, dump_group depth _ (List.cons_ne_nil _ _), List.flatMap_cons,
    List.flatMap_map, below, dump_row (depth + 1) _ headed named, dump, dumpTable,
    if_neg (mt List.isEmpty_iff.mp headed)]

/-- A table with a head and one row, of which a cell is too much. -/
theorem headed_reads :
    dump 1 (.table [text "Id", text "Text"] [[text "1", text "Milk", text "?"]]) =
      dump 1 (tableElement [text "Id", text "Text"] [[text "1", text "Milk", text "?"]]) :=
  table_reads 1 (by decide) (by decide) (by decide +kernel) (by decide +kernel)

end Cppboot.Html
