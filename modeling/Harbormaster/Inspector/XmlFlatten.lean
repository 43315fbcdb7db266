import Harbormaster.Foundation.LabelledTree
import Harbormaster.Foundation.Occurrences
import Harbormaster.Foundation.Writes
import Harbormaster.Foundation.Xml
import Harbormaster.Inspector.Text
import Mathlib.Data.List.TakeWhile

/-! # Flattening XML

`XMLParser` flattens a record to dotted paths of local names. Repeated siblings are
numbered and attributes are prefixed. Every attribute and every leaf with a text keeps a
key of its own exactly when no two of them have the same path, each has a cell, and
whatever else is set under one path has the same text. That is so where no name has a dot
in it, no element has two attributes with one local name, the record is no leaf itself and
the texts of leaves stand in front of the comments in them.
-/

namespace Harbormaster.Inspector

open Dotted Ordered Xml

/-- `_localname`: what follows the last brace. -/
def localname (tag : String) : String :=
  String.ofList (tag.toList.reverse.takeWhile (· ≠ '}')).reverse

theorem localname_of_not_mem {tag : String} (h : '}' ∉ tag.toList) : localname tag = tag := by
  have hall : ∀ c ∈ tag.toList.reverse, decide (c ≠ '}') = true := by
    intro c hc
    exact decide_eq_true fun heq => h (heq ▸ List.mem_reverse.mp hc)
  rw [localname, List.takeWhile_eq_self_iff.mpr hall, List.reverse_reverse, String.ofList_toList]

/-- The namespace is stripped. -/
theorem localname_text (name : QName) : localname name.text = name.name.text := by
  have hbrace : '}' ∉ name.name.text.toList := name.name.not_mem (by decide)
  rw [QName.text]
  cases name.space with
  | none => exact localname_of_not_mem hbrace
  | some space =>
      have hall : ∀ c ∈ name.name.text.toList.reverse, decide (c ≠ '}') = true := by
        intro c hc
        exact decide_eq_true fun heq => hbrace (heq ▸ List.mem_reverse.mp hc)
      have hchars : ("\x7b" ++ space ++ "\x7d" ++ name.name.text).toList.reverse =
          name.name.text.toList.reverse ++ '}' :: ("\x7b" ++ space).toList.reverse := by simp
      rw [localname, hchars, List.takeWhile_append_of_pos hall,
        List.takeWhile_cons_of_neg (by decide), List.append_nil, List.reverse_reverse,
        String.ofList_toList]

end Harbormaster.Inspector

namespace Harbormaster.Inspector.XMLParser

open Dotted Ordered Xml

/-! ## The code -/

/-- Attributes are prefixed so a flattened attribute cannot silently collide with a child
element of the same name. -/
def attrPrefix : String := "@"

/-- `_localname(element.tag)`. -/
def localTag (element : Element) : String := localname element.tag

/-- `(element.text or "").strip()`. -/
def cellText (element : Element) : String := strip (element.text.getD "")

/-- The label of an attribute. -/
def attributeLabel (key : String) : String := attrPrefix ++ localname key

/-- The label of a child, of which the number of namesakes before it is given; it is
numbered if there are several of its name. -/
def label (tags : List String) (occurrence : String × Nat) : String :=
  if 1 < tags.count occurrence.1 then occurrence.1 ++ bracketed occurrence.2 else occurrence.1

/-- The cells of the attributes. -/
def attributeCells (path : String) (element : Element) : Dict String String :=
  .ofPairs (element.attributes.map fun (key, value) => (path ++ attributeLabel key, strip value))

/-- The cells of an element without children. -/
def leafCells (path : String) (element : Element) : Dict String String :=
  let out := attributeCells path element
  let text := cellText element
  if text ≠ "" ∧ path ≠ "" then out.set (stripDots path) text else out

/-- The cells of a child, of which those nested in it are given. -/
def fillChild (out nested : Dict String String) (name : String) (child : Element) :
    Dict String String :=
  let text := cellText child
  if child.children ≠ [] ∨ child.attributes ≠ [] then
    let out := out.update nested
    if text ≠ "" then out.set name text else out
  else out.set name text

mutual

/-- `_flatten`. -/
def flatten (path : String) : Element → Dict String String
  | .special kind attributes text tail => leafCells path (.special kind attributes text tail)
  | .tagged name attributes text children tail =>
      if children.isEmpty then leafCells path (.tagged name attributes text children tail)
      else
        flattenChildren path (children.map localTag) []
          (attributeCells path (.tagged name attributes text children tail)) children

/-- The loop over the children, with the tags of all of them and of those before. -/
def flattenChildren (path : String) (tags seen : List String) (out : Dict String String) :
    List Element → Dict String String
  | [] => out
  | child :: rest =>
      let tag := localTag child
      let name := path ++ label tags (tag, seen.count tag)
      flattenChildren path tags (tag :: seen)
        (fillChild out (flatten (name ++ ".") child) name child) rest

end

/-! ## The tree of a record -/

/-- What an element or an attribute holds, and the text that its cell is set to, by the
path of its labels and perhaps also by the path without the dots at its end. -/
structure Part where
  held : Option String
  cell : Option String
  echoed : Bool

/-- The text of a leaf, unless it is blank. -/
def leafText (element : Element) : Option String :=
  if element.isLeaf ∧ strip element.wholeText ≠ "" then some (strip element.wholeText) else none

/-- An element without any content has an empty cell. -/
def part (element : Element) : Part where
  held := leafText element
  cell :=
    if cellText element ≠ "" ∨ (element.children = [] ∧ element.attributes = []) then
      some (cellText element)
    else none
  echoed := element.children = [] ∧ element.attributes ≠ []

/-- What is read from an instruction is no attribute of an element. -/
def attributeTrees (element : Element) : List (String × LabelledTree Part) :=
  element.attributes.map fun (key, value) =>
    (attributeLabel key,
      .node (some ⟨if element.isTagged then some (strip value) else none, some (strip value),
        false⟩) [])

mutual

/-- The attributes and texts of an element, under the labels that lead to them. -/
def tree : Element → LabelledTree Part
  | .special kind attributes text tail =>
      .node (some (part (.special kind attributes text tail)))
        (attributeTrees (.special kind attributes text tail))
  | .tagged name attributes text children tail =>
      .node (some (part (.tagged name attributes text children tail)))
        (attributeTrees (.tagged name attributes text children tail) ++
          childTrees (children.map localTag) [] children)

def childTrees (tags seen : List String) : List Element → List (String × LabelledTree Part)
  | [] => []
  | child :: rest =>
      (label tags (localTag child, seen.count (localTag child)), tree child) ::
        childTrees tags (localTag child :: seen) rest

end

/-- What lies below an element in its tree. -/
def branches (element : Element) : List (String × LabelledTree Part) :=
  attributeTrees element ++ childTrees (element.children.map localTag) [] element.children

theorem tree_eq (element : Element) :
    tree element = .node (some (part element)) (branches element) := by
  cases element with
  | tagged name attributes text children tail => rw [tree, branches, Element.children]
  | special kind attributes text tail =>
      rw [tree, branches, Element.children, List.map_nil, childTrees, List.append_nil]

/-- The cells that are set for a part; the record itself has none. -/
def cellsAt (entry : List String × Part) : List (String × String) :=
  if entry.1 = [] then []
  else
    entry.2.cell.toList.flatMap fun text =>
      (joined entry.1, text) :: if entry.2.echoed then [(dotted entry.1, text)] else []

/-- All cells that are set for a record. -/
def cells (record : Element) : List (String × String) :=
  ((tree record).entries []).flatMap cellsAt

/-- The attributes and the leaves with text of a record, by their paths. -/
def fields (record : Element) : List (String × String) :=
  ((tree record).entries []).filterMap fun entry => entry.2.held.map (joined entry.1, ·)

/-! ## Writing the cells -/

theorem entries_attributeTrees (path : List String) (element : Element) :
    (LabelledTree.branchEntries path (attributeTrees element)).flatMap cellsAt =
      element.attributes.map fun entry =>
        (withDots path ++ attributeLabel entry.1, strip entry.2) := by
  unfold attributeTrees
  induction element.attributes with
  | nil => rfl
  | cons entry rest ih =>
      rw [List.map_cons, LabelledTree.branchEntries, List.flatMap_append, ih, List.map_cons]
      simp [LabelledTree.entries, LabelledTree.branchEntries, cellsAt, joined_concat]

/-- The cells of the attributes and children of an element, and its own if it is a leaf
below the record. -/
def nestedCells (path : List String) (element : Element) (pair : String × String) : Prop :=
  pair ∈ (LabelledTree.branchEntries path (branches element)).flatMap cellsAt ∨
    (path ≠ [] ∧ element.children = [] ∧ cellText element ≠ "" ∧
      pair = (dotted path, cellText element))

theorem entries_tree (path : List String) (element : Element) :
    ((tree element).entries path).flatMap cellsAt =
      cellsAt (path, part element) ++
        (LabelledTree.branchEntries path (branches element)).flatMap cellsAt := by
  rw [tree_eq, LabelledTree.entries, List.flatMap_append]
  simp

theorem mem_cellsAt {path : List String} {part : Part} {key text : String} :
    (key, text) ∈ cellsAt (path, part) ↔
      path ≠ [] ∧ part.cell = some text ∧
        (key = joined path ∨ part.echoed = true ∧ key = dotted path) := by
  unfold cellsAt
  split
  next hpath => simp [show path = [] from hpath]
  next hpath =>
    rw [and_iff_right hpath]
    cases part.cell with
    | none => simp
    | some value =>
        cases part.echoed with
        | false => simp [@eq_comm _ value, and_comm]
        | true =>
            simp only [Option.toList_some, List.flatMap_cons, List.flatMap_nil, List.append_nil,
              if_true, List.mem_cons, Prod.mk.injEq, List.not_mem_nil, or_false,
              Option.some.injEq, true_and, @eq_comm _ value]
            rw [← or_and_right, and_comm]

theorem cell_part {element : Element} (h : cellText element ≠ "") :
    (part element).cell = some (cellText element) := if_pos (Or.inl h)

theorem cell_part_of_blank {element : Element} (h : cellText element = "")
    (hcontent : element.children ≠ [] ∨ element.attributes ≠ []) : (part element).cell = none := by
  refine if_neg fun hcell => hcell.elim (· h) fun hempty => ?_
  exact hcontent.elim (· hempty.1) (· hempty.2)

theorem echoed_part {element : Element}
    (hcontent : element.children ≠ [] ∨ element.attributes ≠ []) :
    (part element).echoed = true ↔ element.children = [] := by
  rw [part, decide_eq_true_iff]
  exact and_iff_left_of_imp fun hchildren => hcontent.resolve_left (not_not.mpr hchildren)

/-- A child is filled in with the cells of its tree. -/
theorem fillChild_writes {child : Element} {path : List String} (label : String)
    (out : Dict String String) {writes : List (String × String)}
    (hwrites : ∀ pair, pair ∈ writes ↔ nestedCells (path ++ [label]) child pair) :
    ∃ filled, fillChild out (.ofPairs writes) (withDots path ++ label) child = out.write filled ∧
      ∀ pair, pair ∈ filled ↔
        pair ∈ ((tree child).entries (path ++ [label])).flatMap cellsAt := by
  have hpath : path ++ [label] ≠ [] := List.append_ne_nil_of_right_ne_nil path (by simp)
  unfold fillChild nestedCells at *
  simp only [Dict.update_ofPairs]
  by_cases hcontent : child.children ≠ [] ∨ child.attributes ≠ []
  · rw [if_pos hcontent]
    by_cases htext : cellText child = ""
    · refine ⟨writes, if_neg (not_not.mpr htext), fun ⟨key, text⟩ => ?_⟩
      rw [hwrites, entries_tree, List.mem_append, mem_cellsAt, cell_part_of_blank htext hcontent]
      simp [htext]
    · -- the child's own text is set after what is nested in it
      refine ⟨writes ++ [(withDots path ++ label, cellText child)], ?_, fun ⟨key, text⟩ => ?_⟩
      · rw [if_pos htext, Dict.write_append, Dict.write_singleton]
      · rw [List.mem_append, List.mem_singleton, hwrites, entries_tree, List.mem_append,
          mem_cellsAt, cell_part htext, echoed_part hcontent, joined_concat, Option.some.injEq,
          Prod.mk.injEq, Prod.mk.injEq, @eq_comm _ (cellText child)]
        constructor
        · rintro ((hbelow | ⟨-, hchildren, -, hkey, hvalue⟩) | ⟨hkey, hvalue⟩)
          · exact Or.inr hbelow
          · exact Or.inl ⟨hpath, hvalue, Or.inr ⟨hchildren, hkey⟩⟩
          · exact Or.inl ⟨hpath, hvalue, Or.inl hkey⟩
        · rintro (⟨-, hvalue, hkey | ⟨hchildren, hkey⟩⟩ | hbelow)
          · exact Or.inr ⟨hkey, hvalue⟩
          · exact Or.inl (Or.inr ⟨hpath, hchildren, htext, hkey, hvalue⟩)
          · exact Or.inl (Or.inl hbelow)
  · -- nothing is nested in an empty element, and its text is set even if it is blank
    rw [if_neg hcontent]
    obtain ⟨hchildren, hattributes⟩ := not_or.mp hcontent
    rw [not_not] at hchildren hattributes
    refine ⟨[(withDots path ++ label, cellText child)], rfl, fun ⟨key, text⟩ => ?_⟩
    have hcell : (part child).cell = some (cellText child) :=
      if_pos (Or.inr ⟨hchildren, hattributes⟩)
    have hechoed : (part child).echoed = false := decide_eq_false fun h => h.2 hattributes
    have hnone : branches child = [] := by
      rw [branches, attributeTrees, hchildren, hattributes, List.map_nil, List.map_nil, childTrees,
        List.append_nil]
    rw [List.mem_singleton, entries_tree, List.mem_append, mem_cellsAt, hcell, hechoed, hnone,
      joined_concat, Option.some.injEq, Prod.mk.injEq, @eq_comm _ (cellText child)]
    simp only [LabelledTree.branchEntries, List.flatMap_nil, List.not_mem_nil, or_false,
      Bool.false_eq_true, false_and, ne_eq, hpath, not_false_eq_true, true_and]
    exact and_comm

/-- The text of an element without children is set if it has one and is no record. -/
theorem leafCells_writes {element : Element} (hchildren : element.children = [])
    (path : List String) :
    ∃ writes, leafCells (withDots path) element = .ofPairs writes ∧
      ∀ pair, pair ∈ writes ↔ nestedCells path element pair := by
  have hbranches : branches element = attributeTrees element := by
    rw [branches, hchildren, List.map_nil, childTrees, List.append_nil]
  simp only [nestedCells, hbranches, entries_attributeTrees]
  unfold leafCells attributeCells
  dsimp only
  split
  next hset =>
    have hpath : path ≠ [] := fun hnil => hset.2 (withDots_eq_empty.mpr hnil)
    refine ⟨(element.attributes.map fun entry =>
      (withDots path ++ attributeLabel entry.1, strip entry.2)) ++
        [(dotted path, cellText element)], ?_, fun pair => ?_⟩
    · rw [Dict.ofPairs_append, Dict.write_singleton]
      rfl
    · rw [List.mem_append, List.mem_singleton]
      exact or_congr_right ⟨fun h => ⟨hpath, hchildren, hset.1, h⟩, fun h => h.2.2.2⟩
  next hunset =>
    refine ⟨_, rfl, fun pair => (or_iff_left fun h => hunset ⟨h.2.2.1, ?_⟩).symm⟩
    exact fun hempty => h.1 (withDots_eq_empty.mp hempty)

mutual

/-- Flattening an element sets the cells of its tree, some of them twice. -/
theorem flatten_writes (element : Element) (path : List String) :
    ∃ writes, flatten (withDots path) element = .ofPairs writes ∧
      ∀ pair, pair ∈ writes ↔ nestedCells path element pair := by
  cases element with
  | special kind attributes text tail =>
      rw [flatten]
      exact leafCells_writes rfl path
  | tagged name attributes text children tail =>
      rw [flatten]
      split
      next hempty =>
        have hchildren : (Element.tagged name attributes text children tail).children = [] :=
          List.isEmpty_iff.mp hempty
        exact leafCells_writes hchildren path
      next hsome =>
        rw [List.isEmpty_iff] at hsome
        obtain ⟨writes, hloop, hmem⟩ := flattenChildren_writes children path
          (children.map localTag) []
          (attributeCells (withDots path) (.tagged name attributes text children tail))
        refine ⟨_ ++ writes, hloop.trans (Dict.ofPairs_append _ _).symm, fun pair => ?_⟩
        rw [List.mem_append, hmem, nestedCells, branches, LabelledTree.branchEntries_append,
          List.flatMap_append, List.mem_append, entries_attributeTrees]
        simp [Element.children, hsome]

theorem flattenChildren_writes (children : List Element) (path tags seen : List String)
    (out : Dict String String) :
    ∃ writes, flattenChildren (withDots path) tags seen out children = out.write writes ∧
      ∀ pair, pair ∈ writes ↔
        pair ∈ (LabelledTree.branchEntries path (childTrees tags seen children)).flatMap
          cellsAt := by
  cases children with
  | nil => exact ⟨[], rfl, fun pair => Iff.rfl⟩
  | cons child rest =>
      obtain ⟨writes, hflatten, hwrites⟩ := flatten_writes child
        (path ++ [label tags (localTag child, seen.count (localTag child))])
      obtain ⟨filled, hfill, hfilled⟩ := fillChild_writes _ out hwrites
      obtain ⟨more, hloop, hmore⟩ :=
        flattenChildren_writes rest path tags (localTag child :: seen) (out.write filled)
      refine ⟨filled ++ more, ?_, fun pair => ?_⟩
      · rw [flattenChildren, ← withDots_concat, hflatten, hfill, hloop, Dict.write_append]
      · rw [List.mem_append, hfilled, hmore, childTrees, LabelledTree.branchEntries,
          List.flatMap_append, List.mem_append]

end

/-- Flattening a record sets its cells. -/
theorem flatten_cells (record : Element) :
    ∃ writes, flatten "" record = .ofPairs writes ∧
      ∀ pair, pair ∈ writes ↔ pair ∈ cells record := by
  obtain ⟨writes, hflatten, hwrites⟩ := flatten_writes record []
  refine ⟨writes, hflatten, fun pair => ?_⟩
  rw [hwrites, nestedCells, cells, entries_tree]
  simp [cellsAt]

/-! ## Loss -/

/-- The attributes and the leaves with text have entries of their own, and no cell is
overwritten with another text. -/
structure Lossless (record : Element) : Prop where
  held : (fields record).Subperm (flatten "" record).entries
  kept : ∀ cell ∈ cells record, (flatten "" record).get? cell.1 = some cell.2

/-- Paths tell the fields apart and have cells for them, and cells of the same path have the
same text. -/
structure Apart (record : Element) : Prop where
  distinct : ((fields record).map Prod.fst).Nodup
  given : ∀ field ∈ fields record, field ∈ cells record
  agree : ∀ cell ∈ cells record, ∀ other ∈ cells record, cell.1 = other.1 → cell.2 = other.2

theorem lossless_of_apart {record : Element} (h : Apart record) : Lossless record := by
  obtain ⟨writes, hflatten, hwrites⟩ := flatten_cells record
  have hcells : ∀ cell ∈ cells record, (flatten "" record).get? cell.1 = some cell.2 := by
    rw [hflatten]
    exact (Dict.get?_ofPairs_iff_agree hwrites).mpr h.agree
  refine ⟨Dict.subperm_entries_iff.mpr ⟨h.distinct, fun field hfield => ?_⟩, hcells⟩
  exact hcells field (h.given field hfield)

/-- Nothing is lost exactly when no two attributes or leaves with text have the same path,
each of them has a cell, and cells of the same path have the same text. -/
theorem lossless_iff_apart (record : Element) : Lossless record ↔ Apart record := by
  refine ⟨fun ⟨hheld, hkept⟩ => ?_, lossless_of_apart⟩
  obtain ⟨writes, hflatten, hwrites⟩ := flatten_cells record
  obtain ⟨hdistinct, hget⟩ := Dict.subperm_entries_iff.mp hheld
  rw [hflatten] at hget hkept
  refine ⟨hdistinct, fun field hfield => ?_, (Dict.get?_ofPairs_iff_agree hwrites).mp hkept⟩
  exact (hwrites field).mp (Dict.mem_of_get?_ofPairs (hget field hfield))

/-! ## Regular records -/

/-- The attributes have different local names without dots. -/
structure PlainAttributes (element : Element) : Prop where
  nodup : (element.attributes.map fun entry => localname entry.1).Nodup
  dotless : ∀ entry ∈ element.attributes, '.' ∉ (localname entry.1).toList

mutual

/-- No name has a dot in it, the attributes of an element have different local names, and
the text of a leaf stands in front of the comments in it. -/
def Regular : Element → Prop
  | .special _ _ _ _ => True
  | .tagged name attributes text children tail =>
      PlainAttributes (.tagged name attributes text children tail) ∧
        (∀ whole ∈ leafText (.tagged name attributes text children tail),
          whole = cellText (.tagged name attributes text children tail)) ∧
        RegularChildren children

def RegularChildren : List Element → Prop
  | [] => True
  | child :: rest => '.' ∉ (localTag child).toList ∧ Regular child ∧ RegularChildren rest

end

/-- The names in an instruction are words. -/
theorem plainAttributes_special (kind : Special) (attributes : Dict Word String)
    (text tail : Option String) : PlainAttributes (.special kind attributes text tail) := by
  have hlocal : ∀ word : Word, localname word.text = word.text := fun word =>
    localname_of_not_mem fun hbrace => (word.plain _ hbrace).1 rfl
  constructor
  · rw [Element.attributes, List.map_map]
    have hnodup := attributes.nodup
    rw [List.Nodup, List.pairwise_map] at hnodup ⊢
    refine hnodup.imp fun {first second} hne heq => hne ?_
    rw [Function.comp_apply, Function.comp_apply, hlocal, hlocal] at heq
    obtain ⟨⟨text, hplain⟩, value⟩ := first
    obtain ⟨⟨text', hplain'⟩, value'⟩ := second
    obtain rfl : text = text' := heq
    rfl
  · intro entry hentry
    obtain ⟨⟨word, value⟩, -, rfl⟩ := List.mem_map.mp hentry
    rw [hlocal]
    exact fun hdot => (word.plain _ hdot).2.1 rfl

/-- A tag begins like no attribute and ends like no numbered tag. -/
structure IsTag (tag : String) : Prop where
  nonempty : tag ≠ ""
  head : tag.toList.head? ≠ some '@'
  last : tag.toList.getLast? ≠ some ']'

theorem localTag_special (kind : Special) (attributes : Dict Word String)
    (text tail : Option String) :
    localTag (.special kind attributes text tail) = "<" ++ kind.label ++ ">" := by
  rw [localTag, Element.tag]
  apply localname_of_not_mem
  simpa using kind.plain

/-- Comments and instructions have the local name of no element. -/
theorem localTag_ne_special {element special : Element} (h : element.isTagged = true)
    (hspecial : special.isTagged = false) : localTag element ≠ localTag special := by
  cases special with
  | tagged => cases hspecial
  | special kind attributes text tail =>
  cases element with
  | special => cases h
  | tagged name _ _ _ _ =>
      rw [localTag_special, localTag, Element.tag, localname_text]
      intro heq
      apply name.name.head_ne (c := '<') (by decide)
      rw [heq]
      simp

theorem isTag_localTag (element : Element) : IsTag (localTag element) := by
  cases element with
  | tagged name attributes text children tail =>
      rw [localTag, Element.tag, localname_text]
      refine ⟨name.name.nonempty, name.name.head_ne (by decide), fun hlast => ?_⟩
      exact name.name.not_mem (by decide) (List.mem_of_getLast? hlast)
  | special kind attributes text tail =>
      have hchars : ("<" ++ kind.label ++ ">").toList = '<' :: (kind.label.toList ++ ['>']) := by
        simp
      rw [localTag_special]
      refine ⟨fun hempty => ?_, ?_, ?_⟩
      · rw [hempty] at hchars
        cases hchars
      · rw [hchars]
        simp
      · rw [hchars, ← List.cons_append, List.getLast?_concat]
        decide

/-- Siblings with their numbers are told apart by their labels. -/
theorem label_injective {tags : List String} (htags : ∀ tag ∈ tags, IsTag tag)
    {first second : String × Nat} (hfirst : first ∈ Occurrences.numbered [] tags)
    (hsecond : second ∈ Occurrences.numbered [] tags) (heq : label tags first = label tags second) :
    first = second := by
  obtain ⟨tag, index⟩ := first
  obtain ⟨tag', index'⟩ := second
  have hindex := (Occurrences.mem_numbered.mp hfirst).2
  have hindex' := (Occurrences.mem_numbered.mp hsecond).2
  rw [List.count_nil, Nat.zero_add] at hindex hindex'
  have htag := htags tag (List.count_pos_iff.mp (by omega))
  have htag' := htags tag' (List.count_pos_iff.mp (by omega))
  unfold label at heq
  dsimp only at heq
  -- no tag ends like a numbered one, and one that is not numbered is there once
  split at heq <;> split at heq
  next =>
    obtain ⟨rfl, rfl⟩ := append_bracketed_injective heq
    rfl
  next => exact absurd (heq ▸ getLast?_append_bracketed tag index) htag'.last
  next => exact absurd (heq ▸ getLast?_append_bracketed tag' index') htag.last
  next => rw [heq, show index = 0 by omega, show index' = 0 by omega]

theorem labels_childTrees (tags seen : List String) (children : List Element) :
    (childTrees tags seen children).map Prod.fst =
      (Occurrences.numbered seen (children.map localTag)).map (label tags) := by
  induction children generalizing seen with
  | nil => rfl
  | cons child rest ih =>
      rw [childTrees, List.map_cons, ih, List.map_cons, Occurrences.numbered, List.map_cons]

theorem labels_attributeTrees (element : Element) :
    (attributeTrees element).map Prod.fst =
      (element.attributes.map fun entry => localname entry.1).map (attrPrefix ++ ·) := by
  rw [attributeTrees, List.map_map, List.map_map]
  rfl

theorem head_label {tags : List String} {occurrence : String × Nat} (h : IsTag occurrence.1) :
    (label tags occurrence).toList.head? = occurrence.1.toList.head? := by
  unfold label
  split
  next =>
    rw [String.toList_append, List.head?_append_of_ne_nil]
    intro hempty
    exact h.nonempty (String.toList_injective (hempty.trans String.toList_empty.symm))
  next => rfl

theorem plain_label {tags : List String} {occurrence : String × Nat} (h : IsTag occurrence.1)
    (hdot : '.' ∉ occurrence.1.toList) : Plain (label tags occurrence) := by
  constructor
  · intro hempty
    have hhead : (label tags occurrence).toList.head? = occurrence.1.toList.head? := head_label h
    rw [hempty, String.toList_empty, List.head?_nil] at hhead
    exact h.nonempty (String.toList_injective
      ((List.head?_eq_none_iff.mp hhead.symm).trans String.toList_empty.symm))
  · unfold label
    split
    next =>
      rw [String.toList_append, List.mem_append]
      exact not_or.mpr ⟨hdot, dot_not_mem_bracketed _⟩
    next => exact hdot

theorem plain_attributeLabel {key : String} (h : '.' ∉ (localname key).toList) :
    Plain (attributeLabel key) := by
  have hchars : (attributeLabel key).toList = '@' :: (localname key).toList := by
    rw [attributeLabel, String.toList_append]
    rfl
  constructor
  · intro hempty
    rw [hempty] at hchars
    cases hchars
  · rw [hchars, List.mem_cons]
    exact not_or.mpr ⟨by decide, h⟩

/-- The labels below an element differ and are plain if the trees of its children are sound. -/
theorem soundBranches_branches {element : Element} (hattributes : PlainAttributes element)
    (hchildren : ∀ branch ∈ childTrees (element.children.map localTag) [] element.children,
      Plain branch.1 ∧ branch.2.Sound) : LabelledTree.SoundBranches (branches element) := by
  have htags : ∀ tag ∈ element.children.map localTag, IsTag tag := by
    intro tag htag
    obtain ⟨child, -, rfl⟩ := List.mem_map.mp htag
    exact isTag_localTag child
  rw [branches, LabelledTree.soundBranches_iff, List.map_append, labels_attributeTrees,
    labels_childTrees, List.nodup_append]
  refine ⟨⟨?_, ?_, ?_⟩, ?_⟩
  · refine hattributes.nodup.map fun name other heq => String.toList_injective ?_
    have hchars := congrArg String.toList heq
    rw [String.toList_append, String.toList_append] at hchars
    exact List.append_cancel_left hchars
  · exact (Occurrences.nodup_numbered _ _).map_on fun first hfirst second hsecond =>
      label_injective htags hfirst hsecond
  · -- the label of an attribute begins with an @, and no tag does
    rintro _ hattribute other hchild rfl
    obtain ⟨name, -, rfl⟩ := List.mem_map.mp hattribute
    obtain ⟨occurrence, hoccurrence, hlabel⟩ := List.mem_map.mp hchild
    have htag : IsTag occurrence.1 := by
      refine htags _ (List.count_pos_iff.mp ?_)
      have hcount := (Occurrences.mem_numbered.mp hoccurrence).2
      rw [List.count_nil] at hcount
      omega
    apply htag.head
    rw [← head_label htag, hlabel, String.toList_append]
    rfl
  · intro branch hbranch
    rcases List.mem_append.mp hbranch with hattribute | hchild
    · obtain ⟨entry, hentry, rfl⟩ := List.mem_map.mp hattribute
      exact ⟨plain_attributeLabel (hattributes.dotless entry hentry), trivial⟩
    · exact hchildren branch hchild

mutual

theorem sound_tree (element : Element) (h : Regular element) : (tree element).Sound := by
  rw [tree_eq, LabelledTree.Sound]
  cases element with
  | special kind attributes text tail =>
      exact soundBranches_branches (plainAttributes_special kind attributes text tail)
        fun _ hbranch => absurd hbranch List.not_mem_nil
  | tagged name attributes text children tail =>
      obtain ⟨hattributes, -, hchildren⟩ := h
      exact soundBranches_branches hattributes
        (plain_childTrees children hchildren (children.map localTag) [])

theorem plain_childTrees (children : List Element) (h : RegularChildren children)
    (tags seen : List String) :
    ∀ branch ∈ childTrees tags seen children, Plain branch.1 ∧ branch.2.Sound := by
  cases children with
  | nil => exact fun _ hbranch => absurd hbranch List.not_mem_nil
  | cons child rest =>
      obtain ⟨hdot, hchild, hrest⟩ := h
      rw [childTrees, List.forall_mem_cons]
      exact ⟨⟨plain_label (isTag_localTag child) hdot, sound_tree child hchild⟩,
        plain_childTrees rest hrest tags _⟩

end

theorem joined_eq_of_mem {record : Element} (h : Regular record) {entry : List String × Part}
    (hentry : entry ∈ (tree record).entries []) : joined entry.1 = dotted entry.1 := by
  obtain ⟨labels, hplain, hpath⟩ :=
    LabelledTree.path_of_mem_entries _ (sound_tree record h) [] hentry
  rw [hpath]
  exact joined_eq_dotted hplain

/-- The parts of a regular record have different paths. -/
theorem nodup_joined {record : Element} (h : Regular record) :
    (((tree record).entries []).map fun entry => joined entry.1).Nodup := by
  rw [List.map_congr_left fun entry hentry => joined_eq_of_mem h hentry]
  exact LabelledTree.nodup_dotted (sound_tree record h)

theorem keys_fields (record : Element) :
    ((fields record).map Prod.fst).Sublist
      (((tree record).entries []).map fun entry => joined entry.1) := by
  unfold fields
  induction (tree record).entries [] with
  | nil => exact List.Sublist.refl []
  | cons entry rest ih =>
      rw [List.filterMap_cons]
      cases entry.2.held with
      | none => exact ih.cons _
      | some text => exact ih.cons_cons _

mutual

/-- The cell of a part of a regular record holds what the part does. -/
theorem cell_of_held (element : Element) (h : Regular element) (path : List String) :
    ∀ entry ∈ (tree element).entries path, ∀ text ∈ entry.2.held, entry.2.cell = some text := by
  have hattributes : ∀ entry ∈ LabelledTree.branchEntries path (attributeTrees element),
      ∀ text ∈ entry.2.held, entry.2.cell = some text := by
    unfold attributeTrees
    induction element.attributes with
    | nil => exact fun _ hentry => absurd hentry List.not_mem_nil
    | cons pair rest ih =>
        rw [List.map_cons, LabelledTree.branchEntries, List.forall_mem_append]
        refine ⟨fun entry hentry text htext => ?_, ih⟩
        obtain rfl := List.mem_singleton.mp hentry
        dsimp only at htext ⊢
        split at htext
        next => exact htext
        next => cases htext
  rw [tree_eq, LabelledTree.entries, branches, LabelledTree.branchEntries_append,
    List.forall_mem_append, List.forall_mem_append]
  refine ⟨fun entry hentry text htext => ?_, hattributes, ?_⟩
  · obtain rfl := List.mem_singleton.mp hentry
    cases element with
    -- a comment or an instruction holds no text of the record
    | special kind attributes value tail => cases htext
    | tagged name attributes value children tail =>
        obtain ⟨-, htexts, -⟩ := h
        have htext' : leafText (.tagged name attributes value children tail) = some text := htext
        have hvalue : text = cellText (.tagged name attributes value children tail) :=
          htexts text htext
        rw [hvalue]
        refine cell_part fun hblank => ?_
        unfold leafText at htext'
        split at htext'
        next hleaf =>
          obtain rfl := Option.some.inj htext'
          exact hleaf.2 (hvalue.trans hblank)
        next => cases htext'
  · cases element with
    | special kind attributes value tail => exact fun _ hentry => absurd hentry List.not_mem_nil
    | tagged name attributes value children tail =>
        obtain ⟨-, -, hchildren⟩ := h
        exact cell_of_held_children children hchildren path (children.map localTag) []

theorem cell_of_held_children (children : List Element) (h : RegularChildren children)
    (path tags seen : List String) :
    ∀ entry ∈ LabelledTree.branchEntries path (childTrees tags seen children),
      ∀ text ∈ entry.2.held, entry.2.cell = some text := by
  cases children with
  | nil => exact fun _ hentry => absurd hentry List.not_mem_nil
  | cons child rest =>
      obtain ⟨-, hchild, hrest⟩ := h
      rw [childTrees, LabelledTree.branchEntries, List.forall_mem_append]
      exact ⟨cell_of_held child hchild _, cell_of_held_children rest hrest path tags _⟩

end

/-- A regular record that is no leaf with text loses nothing. -/
theorem lossless_of_regular {record : Element} (h : Regular record)
    (htext : leafText record = none) : Lossless record := by
  have hsame : ∀ {entry other : List String × Part}, entry ∈ (tree record).entries [] →
      other ∈ (tree record).entries [] → joined entry.1 = joined other.1 → entry = other :=
    fun hentry hother heq => List.inj_on_of_nodup_map (nodup_joined h) hentry hother heq
  have hcell : ∀ {key text : String}, (key, text) ∈ cells record →
      ∃ entry ∈ (tree record).entries [], key = joined entry.1 ∧ entry.2.cell = some text := by
    intro key text hmem
    obtain ⟨⟨path, part⟩, hentry, hpart⟩ := List.mem_flatMap.mp hmem
    obtain ⟨-, hvalue, hkey | ⟨-, hkey⟩⟩ := mem_cellsAt.mp hpart
    · exact ⟨(path, part), hentry, hkey, hvalue⟩
    · exact ⟨(path, part), hentry, hkey.trans (joined_eq_of_mem h hentry).symm, hvalue⟩
  refine lossless_of_apart ⟨(keys_fields record).nodup (nodup_joined h), ?_, ?_⟩
  · rintro ⟨key, text⟩ hfield
    obtain ⟨⟨path, part⟩, hentry, hread⟩ := List.mem_filterMap.mp hfield
    obtain ⟨_, hheld, hpair⟩ := Option.map_eq_some_iff.mp hread
    obtain ⟨rfl, rfl⟩ := Prod.mk.inj hpair
    refine List.mem_flatMap.mpr ⟨_, hentry, mem_cellsAt.mpr ⟨?_, ?_, Or.inl rfl⟩⟩
    · -- only the record itself has the empty path
      rintro rfl
      have hroot : ([], XMLParser.part record) ∈ (tree record).entries [] := by
        rw [tree_eq, LabelledTree.entries]
        exact List.mem_cons_self
      obtain rfl := (Prod.mk.inj (hsame hentry hroot rfl)).2
      rw [show (XMLParser.part record).held = none from htext] at hheld
      cases hheld
    · exact cell_of_held record h [] _ hentry _ hheld
  · rintro ⟨key, text⟩ hmem ⟨key', text'⟩ hmem' heq
    obtain ⟨entry, hentry, rfl, hvalue⟩ := hcell hmem
    obtain ⟨other, hother, rfl, hvalue'⟩ := hcell hmem'
    rw [hsame hentry hother heq, hvalue'] at hvalue
    exact (Option.some.inj hvalue).symm

section Samples

def tradeName : QName := .unqualified "Trade" (by decide) (by decide)
def idName : QName := .unqualified "Id" (by decide) (by decide)
def qtyName : QName := .unqualified "Qty" (by decide) (by decide)

/-- A comment, with the text behind it. -/
def comment (text : String) (tail : Option String) : Element :=
  .special ⟨"cyfunction Comment", by decide⟩ .empty (some text) tail

/-- A trade with an attribute and two legs, one of them with a comment. -/
def twoLegs : Element :=
  let leg (children : List Element) : Element :=
    .tagged (.unqualified "Leg" (by decide) (by decide)) .empty none children none
  .tagged tradeName (.ofPairs [(idName, "7")]) none
    [leg [.leaf qtyName "5"], leg [comment "far" none, .leaf qtyName "6"]] none

/-- Both legs keep their quantities. -/
example : Lossless twoLegs :=
  have plain {element : Element} (h : element.attributes = []) : PlainAttributes element :=
    ⟨by simp [h], by simp [h]⟩
  lossless_of_regular
    ⟨⟨by decide, by decide⟩, by decide, ⟨by decide, ⟨plain rfl, by decide, by decide,
      ⟨plain rfl, by decide, trivial⟩, trivial⟩, by decide, ⟨plain rfl, by decide, by decide,
      trivial, by decide, ⟨plain rfl, by decide, trivial⟩, trivial⟩, trivial⟩⟩ (by decide)

/-- An element whose name is the path of another one. -/
def dottedName : Element :=
  .tagged tradeName .empty none
    [.leaf (.unqualified "a.b" (by decide) (by decide)) "1",
      .tagged (.unqualified "a" (by decide) (by decide)) .empty none
        [.leaf (.unqualified "b" (by decide) (by decide)) "2"] none] none

/-- Two attributes that differ in their namespaces. -/
def twoSpaces : Element :=
  .tagged tradeName
    (.ofPairs [(⟨some "urn:x", "a", by decide, by decide⟩, "1"),
      (⟨some "urn:y", "a", by decide, by decide⟩, "2")]) none [] none

/-- A record that is itself a leaf. -/
def leafRecord : Element := .leaf tradeName "5"

/-- A quantity behind a comment. -/
def behindComment : Element :=
  .tagged tradeName .empty none
    [.tagged qtyName .empty none [comment "lots" (some "5")] none] none

/-- Elements with elements in them have no text of their own. -/
def TextInLeaves (record : Element) : Prop :=
  ∀ element ∈ record.iter, element.isTagged = true → element.isLeaf = false →
    strip element.wholeText = ""

/-- A dot in a name makes it the path of another element, the namespaces that are stripped
make two attributes one, the text of a record has no name, and the text behind a comment
is not read. -/
theorem not_lossless :
    (TextInLeaves dottedName ∧ (flatten "" dottedName).entries = [("a.b", "2")] ∧
        ¬ Lossless dottedName) ∧
      (TextInLeaves twoSpaces ∧ (flatten "" twoSpaces).entries = [("@a", "2")] ∧
        ¬ Lossless twoSpaces) ∧
      (TextInLeaves leafRecord ∧ (flatten "" leafRecord).entries = [] ∧ ¬ Lossless leafRecord) ∧
      TextInLeaves behindComment ∧ (flatten "" behindComment).get? "Qty" = none ∧
        ¬ Lossless behindComment := by
  refine ⟨⟨?_, by decide, fun h => ?_⟩, ⟨?_, by decide, fun h => ?_⟩, ⟨?_, by decide, fun h => ?_⟩,
    ?_, by decide, fun h => ?_⟩
  · unfold TextInLeaves
    decide
  · exact absurd h.held.length_le (by decide)
  · unfold TextInLeaves
    decide
  · exact absurd h.held.length_le (by decide)
  · unfold TextInLeaves
    decide
  · exact absurd h.held.length_le (by decide)
  · unfold TextInLeaves
    decide
  · have hmem : ("Qty", "5") ∈ (flatten "" behindComment).entries := h.held.subset (by decide)
    exact absurd hmem (by decide)

end Samples

end Harbormaster.Inspector.XMLParser
