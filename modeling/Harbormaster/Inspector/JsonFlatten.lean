import Harbormaster.Foundation.LabelledTree
import Harbormaster.Inspector.ClaudeAdjudicator
import Harbormaster.Inspector.FlatTable
import Mathlib.Data.List.MinMax

/-! # Flattening JSON

`JSONParser` finds the records of a document and flattens each to dotted paths. Every
leaf has a key of its own exactly when no two dotted paths are the same text and none is
empty, which holds where no key of the document is empty or has a dot in it.
-/

namespace Harbormaster.Inspector.JSONParser

open Dotted Ordered

/-- `repr` of a number that is no integer. -/
abbrev FloatText := Double → String

variable (floatText : FloatText)

/-! ## Texts -/

section Texts

/-- `\uXXXX`. -/
def unicodeEscape (code : Nat) : String := "\\u" ++ hexadecimal 4 code

/-- One character of `json.dumps`, which writes ASCII only. -/
def dumpChar (c : Char) : String :=
  if c = doubleQuote then "\\\""
  else if c = backslash then "\\\\"
  else if c = '\n' then "\\n"
  else if c = '\r' then "\\r"
  else if c = '\t' then "\\t"
  else if c.toNat = 8 then "\\b"
  else if c.toNat = 12 then "\\f"
  else if 32 ≤ c.toNat ∧ c.toNat < 127 then String.ofList [c]
  else if c.toNat < 0x10000 then unicodeEscape c.toNat
  else
    let code := c.toNat - 0x10000
    unicodeEscape (0xD800 + code / 0x400) ++ unicodeEscape (0xDC00 + code % 0x400)

def dumpString (text : String) : String :=
  "\"" ++ String.join (text.toList.map dumpChar) ++ "\""

def dumpFloat : Double → String
  | .nan => "NaN"
  | .infinity negative => if negative then "-Infinity" else "Infinity"
  | .finite value => floatText (.finite value)

mutual

/-- `json.dumps(value)`. -/
def dumps : Json → String
  | .null => "null"
  | .bool value => if value then "true" else "false"
  | .int value => toString value
  | .float value => dumpFloat floatText value
  | .str text => dumpString text
  | .arr items => "[" ++ join ", " (dumpItems items) ++ "]"
  | .obj entries => "\x7b" ++ join ", " (dumpEntries entries) ++ "\x7d"

def dumpItems : List Json → List String
  | [] => []
  | item :: rest => dumps item :: dumpItems rest

def dumpEntries : List (String × Json) → List String
  | [] => []
  | (key, value) :: rest => (dumpString key ++ ": " ++ dumps value) :: dumpEntries rest

end

/-- Neither an object nor an array. -/
def isScalar : Json → Bool
  | .arr _ | .obj _ => false
  | _ => true

/-- `str` of a scalar. -/
def scalarText : Json → String
  | .bool value => if value then "True" else "False"
  | .int value => toString value
  | .float value => floatText value
  | .str text => text
  | .null | .arr _ | .obj _ => "None"

/-- The cell of a scalar. -/
def cellText : Json → String
  | .null => ""
  | value => scalarText floatText value

end Texts

/-! ## Flattening -/

def maxDepth : Nat := 8

/-- The cell of a scalar; without a name it is dropped. -/
def scalarCell (name text : String) : Dict String String :=
  if name ≠ "" then .ofPairs [(name, text)] else .empty

/-- The cell of a list of scalars. -/
def listText (items : List Json) : String := join ", " (items.map (scalarText floatText))

mutual

/-- `flatten`. -/
def flatten (path : String) (depth : Nat) (value : Json) : Dict String String :=
  if maxDepth < depth then
    if path ≠ "" then
      .ofPairs [(stripDots path, String.ofList ((dumps floatText value).toList.take 512))]
    else .empty
  else match value with
    | .obj entries => flattenEntries path depth .empty entries
    | .arr items =>
        if items.all isScalar then .ofPairs [(stripDots path, listText floatText items)]
        else flattenItems path depth 0 .empty items
    | value => scalarCell (stripDots path) (cellText floatText value)

def flattenEntries (path : String) (depth : Nat) (out : Dict String String) :
    List (String × Json) → Dict String String
  | [] => out
  | (key, value) :: rest =>
      flattenEntries path depth (out.update (flatten (path ++ key ++ ".") (depth + 1) value)) rest

def flattenItems (path : String) (depth index : Nat) (out : Dict String String) :
    List Json → Dict String String
  | [] => out
  | value :: rest =>
      flattenItems path depth (index + 1)
        (out.update (flatten (path ++ bracketed index ++ ".") (depth + 1) value)) rest

end

/-! ## Leaves -/

/-- A scalar or a list of scalars. -/
structure Cell where
  text : String
  scalar : Bool

mutual

/-- The leaves of a value under the labels that lead to them. -/
def tree : Json → LabelledTree Cell
  | .obj entries => .node none (treesOfEntries entries)
  | .arr items =>
      if items.all isScalar then .node (some ⟨listText floatText items, false⟩) []
      else .node none (treesOfItems 0 items)
  | value => .node (some ⟨cellText floatText value, true⟩) []

def treesOfEntries : List (String × Json) → List (String × LabelledTree Cell)
  | [] => []
  | (key, value) :: rest => (key, tree value) :: treesOfEntries rest

def treesOfItems (index : Nat) : List Json → List (String × LabelledTree Cell)
  | [] => []
  | value :: rest => (bracketed index, tree value) :: treesOfItems (index + 1) rest

end

abbrev Leaf := List String × Cell

/-- The leaves of a document. -/
def leaves (value : Json) : List Leaf := (tree floatText value).entries []

def Leaf.key (leaf : Leaf) : String := dotted leaf.1

def Leaf.entry (leaf : Leaf) : String × String := (leaf.key, leaf.2.text)

/-- The leaf is given a cell. -/
def Leaf.kept (leaf : Leaf) : Bool := !leaf.2.scalar || leaf.key ≠ ""

/-- The cells that are set for some leaves, in order. -/
def cells (leaves : List Leaf) : List (String × String) := (leaves.filter Leaf.kept).map Leaf.entry

theorem cells_append (first second : List Leaf) :
    cells (first ++ second) = cells first ++ cells second := by
  rw [cells, List.filter_append, List.map_append]
  rfl

theorem kept_scalar (path : List String) (text : String) :
    Leaf.kept (path, ⟨text, true⟩) = true ↔ dotted path ≠ "" := by
  rw [Leaf.kept, Bool.not_true, Bool.false_or, decide_eq_true_eq]
  rfl

theorem scalarCell_eq (path : List String) (text : String) :
    scalarCell (stripDots (withDots path)) text = .ofPairs (cells [(path, ⟨text, true⟩)]) := by
  unfold scalarCell cells
  split
  next hnamed =>
    rw [List.filter_cons_of_pos ((kept_scalar path text).mpr hnamed)]
    rfl
  next hnamed =>
    rw [List.filter_cons_of_neg fun hkept => hnamed ((kept_scalar path text).mp hkept)]
    rfl

variable {floatText}

theorem flatten_obj (entries : List (String × Json)) (path : String) {depth : Nat}
    (h : depth ≤ maxDepth) :
    flatten floatText path depth (.obj entries) =
      flattenEntries floatText path depth .empty entries := by
  rw [flatten, if_neg (by omega)]

theorem flatten_arr (items : List Json) (path : String) {depth : Nat} (h : depth ≤ maxDepth) :
    flatten floatText path depth (.arr items) =
      if items.all isScalar then .ofPairs [(stripDots path, listText floatText items)]
      else flattenItems floatText path depth 0 .empty items := by
  rw [flatten, if_neg (by omega)]

theorem flatten_scalar {value : Json} (hscalar : isScalar value = true) (path : List String)
    {depth : Nat} (h : depth ≤ maxDepth) :
    flatten floatText (withDots path) depth value =
      .ofPairs (cells ((tree floatText value).entries path)) := by
  cases value with
  | obj entries => cases hscalar
  | arr items => cases hscalar
  | _ =>
      simp only [flatten, if_neg (Nat.not_lt.mpr h), tree]
      exact scalarCell_eq path _

mutual

/-- Above the depth limit flattening sets the cells of the leaves one after the other. -/
theorem flatten_eq (value : Json) (path : List String) (depth : Nat)
    (h : depth + (tree floatText value).height ≤ maxDepth) :
    flatten floatText (withDots path) depth value =
      .ofPairs (cells ((tree floatText value).entries path)) := by
  have hdepth : depth ≤ maxDepth := by omega
  cases value with
  | obj entries =>
      rw [tree, LabelledTree.height] at h
      rw [flatten_obj entries _ hdepth, tree, LabelledTree.entries,
        flattenEntries_eq entries path depth .empty h]
      rfl
  | arr items =>
      rw [flatten_arr items _ hdepth, tree]
      by_cases hscalars : items.all isScalar
      · rw [if_pos hscalars, if_pos hscalars]
        rfl
      · rw [tree, if_neg hscalars, LabelledTree.height] at h
        rw [if_neg hscalars, if_neg hscalars, LabelledTree.entries,
          flattenItems_eq items path depth 0 .empty h]
        rfl
  | null => exact flatten_scalar rfl path hdepth
  | bool value => exact flatten_scalar rfl path hdepth
  | int value => exact flatten_scalar rfl path hdepth
  | float value => exact flatten_scalar rfl path hdepth
  | str text => exact flatten_scalar rfl path hdepth

theorem flattenEntries_eq (entries : List (String × Json)) (path : List String) (depth : Nat)
    (out : Dict String String)
    (h : depth + LabelledTree.branchHeight (treesOfEntries floatText entries) ≤ maxDepth) :
    flattenEntries floatText (withDots path) depth out entries =
      out.write (cells (LabelledTree.branchEntries path (treesOfEntries floatText entries))) := by
  cases entries with
  | nil => rfl
  | cons entry rest =>
      obtain ⟨key, value⟩ := entry
      rw [treesOfEntries, LabelledTree.branchHeight] at h
      rw [flattenEntries, ← withDots_concat, flatten_eq value _ (depth + 1) (by omega),
        Dict.update_ofPairs, flattenEntries_eq rest path depth _ (by omega), treesOfEntries,
        LabelledTree.branchEntries, cells_append, Dict.write_append]

theorem flattenItems_eq (items : List Json) (path : List String) (depth index : Nat)
    (out : Dict String String)
    (h : depth + LabelledTree.branchHeight (treesOfItems floatText index items) ≤ maxDepth) :
    flattenItems floatText (withDots path) depth index out items =
      out.write (cells (LabelledTree.branchEntries path (treesOfItems floatText index items))) := by
  cases items with
  | nil => rfl
  | cons value rest =>
      rw [treesOfItems, LabelledTree.branchHeight] at h
      rw [flattenItems, ← withDots_concat, flatten_eq value _ (depth + 1) (by omega),
        Dict.update_ofPairs, flattenItems_eq rest path depth _ _ (by omega), treesOfItems,
        LabelledTree.branchEntries, cells_append, Dict.write_append]

end

/-! ## Loss -/

/-- Each leaf has one entry, under its key and with its text, and there are no others. -/
def Lossless (floatText : FloatText) (value : Json) : Prop :=
  (flatten floatText "" 0 value).entries.Perm ((leaves floatText value).map Leaf.entry)

theorem cells_eq_iff (leaves : List Leaf) :
    cells leaves = leaves.map Leaf.entry ↔
      ∀ leaf ∈ leaves, leaf.2.scalar = true → leaf.key ≠ "" := by
  have hkept : ∀ leaf : Leaf, leaf.kept = true ↔ (leaf.2.scalar = true → leaf.key ≠ "") := by
    intro leaf
    rw [Leaf.kept, Bool.or_eq_true, Bool.not_eq_true', decide_eq_true_eq, imp_iff_not_or,
      Bool.not_eq_true]
  simp only [← hkept]
  rw [← List.filter_eq_self]
  constructor
  · intro heq
    apply List.filter_sublist.eq_of_length
    simpa [cells] using congrArg List.length heq
  · intro heq
    rw [cells, heq]

theorem lossless_iff_cells {value : Json} (h : (tree floatText value).height ≤ maxDepth) :
    Lossless floatText value ↔
      ((leaves floatText value).map Leaf.key).Nodup ∧
        cells (leaves floatText value) = (leaves floatText value).map Leaf.entry := by
  have hflatten : flatten floatText "" 0 value = .ofPairs (cells (leaves floatText value)) :=
    flatten_eq value [] 0 (by omega)
  have hchosen : (cells (leaves floatText value)).Sublist
      ((leaves floatText value).map Leaf.entry) := List.filter_sublist.map Leaf.entry
  rw [Lossless, hflatten, Dict.entries_ofPairs_perm hchosen, List.map_map]
  rfl

/-- No leaf of a document is lost exactly when no two dotted paths are the same text and
no scalar has an empty one. -/
theorem lossless_iff {value : Json} (h : (tree floatText value).height ≤ maxDepth) :
    Lossless floatText value ↔
      ((leaves floatText value).map Leaf.key).Nodup ∧
        ∀ leaf ∈ leaves floatText value, leaf.2.scalar = true → leaf.key ≠ "" := by
  rw [lossless_iff_cells h, cells_eq_iff]

/-- Two nested numbers. -/
theorem lossless_nested :
    Lossless (fun _ => "") (.obj [("a", .int 1), ("b", .obj [("c", .int 2)])]) :=
  (lossless_iff (by decide)).mpr (by decide)

/-- A dot in a key makes it the path to another leaf, which overwrites its own. -/
theorem dotted_key_overwrites :
    (tree (fun _ => "") (.obj [("a.b", .int 1), ("a", .obj [("b", .int 2)])])).height ≤ maxDepth ∧
      (flatten (fun _ => "") "" 0 (.obj [("a.b", .int 1), ("a", .obj [("b", .int 2)])])).entries =
        [("a.b", "2")] ∧
      ¬ Lossless (fun _ => "") (.obj [("a.b", .int 1), ("a", .obj [("b", .int 2)])]) := by
  refine ⟨by decide, by decide, fun h => ?_⟩
  exact absurd h.length_eq (by decide)

mutual

/-- No key of an object is empty, has a dot in it or is there twice. -/
def PlainKeys : Json → Prop
  | .obj entries => PlainEntries entries
  | .arr items => PlainItems items
  | _ => True

def PlainEntries : List (String × Json) → Prop
  | [] => True
  | (key, value) :: rest =>
      Plain key ∧ key ∉ rest.map Prod.fst ∧ PlainKeys value ∧ PlainEntries rest

def PlainItems : List Json → Prop
  | [] => True
  | value :: rest => PlainKeys value ∧ PlainItems rest

end

theorem labels_treesOfEntries (entries : List (String × Json)) :
    (treesOfEntries floatText entries).map Prod.fst = entries.map Prod.fst := by
  induction entries with
  | nil => rfl
  | cons entry rest ih => rw [treesOfEntries, List.map_cons, List.map_cons, ih]

theorem le_of_mem_treesOfItems {items : List Json} {index other : Nat}
    (h : bracketed other ∈ (treesOfItems floatText index items).map Prod.fst) : index ≤ other := by
  induction items generalizing index with
  | nil => exact absurd h List.not_mem_nil
  | cons value rest ih =>
      rw [treesOfItems, List.map_cons, List.mem_cons] at h
      rcases h with hfirst | hlater
      · exact (bracketed_injective hfirst).ge
      · have hle := ih hlater
        omega

mutual

theorem sound_tree (value : Json) (h : PlainKeys value) : (tree floatText value).Sound := by
  cases value with
  | obj entries =>
      rw [PlainKeys] at h
      rw [tree, LabelledTree.Sound]
      exact sound_treesOfEntries entries h
  | arr items =>
      rw [PlainKeys] at h
      rw [tree]
      split
      next => trivial
      next =>
        rw [LabelledTree.Sound]
        exact sound_treesOfItems items h 0
  | _ => trivial

theorem sound_treesOfEntries (entries : List (String × Json)) (h : PlainEntries entries) :
    LabelledTree.SoundBranches (treesOfEntries floatText entries) := by
  cases entries with
  | nil => trivial
  | cons entry rest =>
      obtain ⟨key, value⟩ := entry
      obtain ⟨hkey, hnew, hvalue, hrest⟩ := h
      refine ⟨hkey, ?_, sound_tree value hvalue, sound_treesOfEntries rest hrest⟩
      rw [labels_treesOfEntries]
      exact hnew

theorem sound_treesOfItems (items : List Json) (h : PlainItems items) (index : Nat) :
    LabelledTree.SoundBranches (treesOfItems floatText index items) := by
  cases items with
  | nil => trivial
  | cons value rest =>
      obtain ⟨hvalue, hrest⟩ := h
      refine ⟨plain_bracketed index, fun hlater => ?_, sound_tree value hvalue,
        sound_treesOfItems rest hrest (index + 1)⟩
      have hle := le_of_mem_treesOfItems hlater
      omega

end

/-- An object without empty or dotted keys loses nothing. -/
theorem lossless_of_plainKeys {entries : List (String × Json)} (h : PlainKeys (.obj entries))
    (hheight : (tree floatText (.obj entries)).height ≤ maxDepth) :
    Lossless floatText (.obj entries) := by
  have hsound : (tree floatText (.obj entries)).Sound := sound_tree (.obj entries) h
  refine (lossless_iff_cells hheight).mpr
    ⟨LabelledTree.nodup_dotted hsound, (cells_eq_iff _).mpr fun leaf hleaf _ => ?_⟩
  rw [leaves, tree, LabelledTree.entries, Option.toList_none, List.map_nil,
    List.nil_append] at hleaf
  rw [tree, LabelledTree.Sound] at hsound
  obtain ⟨label, labels, -, hplain, hpath⟩ :=
    LabelledTree.path_of_mem_branchEntries _ hsound [] hleaf
  rw [Leaf.key, hpath]
  exact dotted_ne_empty (List.cons_ne_nil label labels) hplain

/-- The legs of a trade have the same keys and keep their quantities. -/
example : Lossless (fun _ => "")
    (.obj [("legs", .arr [.obj [("qty", .int 5)], .obj [("qty", .int 6)]])]) :=
  lossless_of_plainKeys
    ⟨⟨by decide, by decide⟩, by decide, ⟨⟨⟨by decide, by decide⟩, by decide, trivial, trivial⟩,
      ⟨⟨by decide, by decide⟩, by decide, trivial, trivial⟩, trivial⟩, trivial⟩ (by decide)

/-! ## Records -/

section Records

variable (floatText : FloatText)

/-- Envelope keys that commonly hold the record array. -/
def recordKeys : List String :=
  ["records", "rows", "data", "items", "trades", "positions", "entries", "messages", "results",
    "payload", "transactions", "movements"]

def isObject : Json → Bool
  | .obj _ => true
  | _ => false

/-- The items of a list of objects, if there are any. -/
def objects? : Json → Option (List Json)
  | .arr items => if items ≠ [] ∧ items.all isObject then some items else none
  | _ => none

/-- The scalars around the records. -/
def envelope (entries : List (String × Json)) : Dict String String :=
  .ofPairs (entries.filterMap fun (key, value) =>
    match value with
    | .null | .arr _ | .obj _ => none
    | value => some (key, scalarText floatText value))

/-- The records of a document, the envelope around them and where they were found. -/
structure Located where
  records : List Json
  envelope : Dict String String
  source : String

def findRecords : Json → Located
  | .arr items => ⟨items.filter isObject, .empty, "$"⟩
  | .obj entries =>
      let named := recordKeys.findSome? fun key =>
        ((Json.get? entries key).bind objects?).map fun items => (key, items)
      let shallow := entries.filterMap fun (key, value) =>
        (objects? value).map fun items => (key, items)
      -- a common key comes before the longest list
      match named.or (shallow.argmax fun found => found.2.length) with
      | some (key, items) => ⟨items, envelope floatText entries, key⟩
      | none =>
          if entries.any (fun entry => isObject entry.2) ∨
              (envelope floatText entries).entries ≠ [] then
            ⟨[.obj entries], .empty, "$ (single record)"⟩
          else ⟨[], .empty, ""⟩
  | _ => ⟨[], .empty, ""⟩

/-- A flattened record with the envelope, where the record has no such key itself. -/
def row (envelope : Dict String String) (record : Json) : Row :=
  Row.setDefaults (flatten floatText "" 0 record) envelope.entries

/-- `parse`, of what `json.loads` returns or raises. -/
def parse (document : Except String Json) : Except String ParsedTable :=
  match document with
  | .error exc => .error ("malformed JSON: " ++ exc)
  | .ok document =>
      let located := findRecords floatText document
      if located.records = [] then .error "no record array or object could be identified"
      else
        .ok (flatTable (located.records.map (row floatText located.envelope))
          (.ofPairs [("records_at", located.source),
            ("record_count", toString located.records.length)]))

end Records

/-- Each record found has one row, which holds every cell it is flattened to. -/
theorem rows_of_parse {document : Json} {table : ParsedTable}
    (h : parse floatText (.ok document) = .ok table) :
    List.Forall₂ (fun (record : Json) (row : Row) => ∀ key cell,
        (flatten floatText "" 0 record).get? key = some cell → row.get? key = some cell)
      (findRecords floatText document).records table.rows := by
  rw [parse] at h
  split at h
  next => cases h
  next =>
    obtain rfl := Except.ok.inj h
    have hrows := rows_flatTable ((findRecords floatText document).records.map
      (row floatText (findRecords floatText document).envelope))
      (.ofPairs [("records_at", (findRecords floatText document).source),
        ("record_count", toString (findRecords floatText document).records.length)])
    rw [List.forall₂_map_left_iff] at hrows
    exact hrows.imp fun record filled hfilled key cell hcell =>
      hfilled key cell (Row.get?_setDefaults _ hcell)

end Harbormaster.Inspector.JSONParser
