import Harbormaster.Foundation.Dict

/-! # XML documents

Documents as the tree a parser builds of them: elements with qualified names, attributes
with different names, the text in front of the first child and behind every child, and the
comments and instructions among the elements.
-/

namespace Xml

/-! ## Names -/

/-- Ranges of characters, in the order of the grammar. -/
def within (ranges : List (Nat × Nat)) (c : Char) : Bool :=
  ranges.any fun range => range.1 ≤ c.toNat && c.toNat ≤ range.2

def isNameStart (c : Char) : Bool :=
  c = ':' || c.isUpper || c = '_' || c.isLower ||
    within [(0xC0, 0xD6), (0xD8, 0xF6), (0xF8, 0x2FF), (0x370, 0x37D), (0x37F, 0x1FFF),
      (0x200C, 0x200D), (0x2070, 0x218F), (0x2C00, 0x2FEF), (0x3001, 0xD7FF), (0xF900, 0xFDCF),
      (0xFDF0, 0xFFFD), (0x10000, 0xEFFFF)] c

def isNameChar (c : Char) : Bool :=
  isNameStart c || c = '-' || c = '.' || c.isDigit ||
    within [(0xB7, 0xB7), (0x300, 0x36F), (0x203F, 0x2040)] c

structure Name where
  text : String
  start : text.toList.head?.any isNameStart = true
  chars : text.toList.all isNameChar = true
deriving DecidableEq

namespace Name

theorem nonempty (name : Name) : name.text ≠ "" := by
  intro hempty
  have hstart := name.start
  rw [hempty] at hstart
  exact absurd hstart (by decide)

theorem not_mem {c : Char} (hc : isNameChar c = false) (name : Name) : c ∉ name.text.toList := by
  intro hmem
  have hchar := List.all_eq_true.mp name.chars c hmem
  rw [hc] at hchar
  exact Bool.false_ne_true hchar

theorem head_ne {c : Char} (hc : isNameStart c = false) (name : Name) :
    name.text.toList.head? ≠ some c := by
  intro hhead
  have hstart := name.start
  rw [hhead, Option.any_some, hc] at hstart
  exact Bool.false_ne_true hstart

end Name

/-- A name, in a namespace or in none. -/
structure QName where
  space : Option String
  name : Name
deriving DecidableEq

/-- A name in no namespace. -/
def QName.unqualified (text : String) (start : text.toList.head?.any isNameStart = true)
    (chars : text.toList.all isNameChar = true) : QName := ⟨none, text, start, chars⟩

/-- The name in Clark notation. -/
def QName.text (name : QName) : String :=
  match name.space with
  | none => name.name.text
  | some space => "\x7b" ++ space ++ "\x7d" ++ name.name.text

/-! ## Elements -/

/-- What stands for a tag at a comment or an instruction: some text in angle brackets. -/
structure Special where
  label : String
  plain : '}' ∉ label.toList
deriving DecidableEq

/-- A name that `\w+` reads in an instruction. -/
structure Word where
  text : String
  plain : ∀ c ∈ text.toList, c ≠ '}' ∧ c ≠ '.' ∧ c ≠ ' '
deriving DecidableEq

/-- An element, a comment or an instruction, each with the text behind it. The attributes
of an instruction are those that are read from its text; a comment has none. -/
inductive Element where
  | tagged (name : QName) (attributes : Ordered.Dict QName String) (text : Option String)
      (children : List Element) (tail : Option String)
  | special (kind : Special) (attributes : Ordered.Dict Word String) (text tail : Option String)

namespace Element

/-- An element that holds a text only. -/
def leaf (name : QName) (text : String) : Element := tagged name .empty (some text) [] none

/-- `str(element.tag)`. -/
def tag : Element → String
  | tagged name _ _ _ _ => name.text
  | special kind _ _ _ => "<" ++ kind.label ++ ">"

/-- `element.attrib.items()`. -/
def attributes : Element → List (String × String)
  | tagged _ attributes _ _ _ => attributes.entries.map fun (name, value) => (name.text, value)
  | special _ attributes _ _ => attributes.entries.map fun (word, value) => (word.text, value)

/-- The text in front of the first child. -/
def text : Element → Option String
  | tagged _ _ text _ _ => text
  | special _ _ text _ => text

/-- The text between the element and what follows it. -/
def tail : Element → Option String
  | tagged _ _ _ _ tail => tail
  | special _ _ _ tail => tail

def children : Element → List Element
  | tagged _ _ _ children _ => children
  | special _ _ _ _ => []

/-- No comment or instruction. -/
def isTagged : Element → Bool
  | tagged _ _ _ _ _ => true
  | special _ _ _ _ => false

/-- An element without elements in it. -/
def isLeaf (element : Element) : Bool :=
  element.isTagged && element.children.all fun child => !child.isTagged

/-- The text that stands directly in an element. -/
def wholeText (element : Element) : String :=
  String.join (element.text.getD "" :: element.children.map fun child => child.tail.getD "")

mutual

/-- The element and everything in it, in document order. -/
def iter : Element → List Element
  | tagged name attributes text children tail =>
      tagged name attributes text children tail :: iterAll children
  | special kind attributes text tail => [special kind attributes text tail]

def iterAll : List Element → List Element
  | [] => []
  | element :: rest => element.iter ++ iterAll rest

end

/-- Everything in an element, in document order. -/
def descendants (element : Element) : List Element := iterAll element.children

theorem iter_eq (element : Element) : element.iter = element :: element.descendants := by
  cases element with
  | tagged name attributes text children tail => rw [iter, descendants, Element.children]
  | special kind attributes text tail => rw [iter, descendants, Element.children, iterAll]

theorem iterAll_append (elements others : List Element) :
    iterAll (elements ++ others) = iterAll elements ++ iterAll others := by
  induction elements with
  | nil => rw [iterAll, List.nil_append, List.nil_append]
  | cons element rest ih =>
      rw [List.cons_append, iterAll, iterAll, ih, List.append_assoc]

theorem mem_iterAll {elements : List Element} {element : Element} :
    element ∈ iterAll elements ↔ ∃ other ∈ elements, element ∈ other.iter := by
  induction elements with
  | nil => simp [iterAll]
  | cons first rest ih =>
      rw [iterAll, List.mem_append, ih, List.exists_mem_cons_iff]

end Element

end Xml
