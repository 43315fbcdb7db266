import Harbormaster.Foundation.Bytes
import Mathlib.Data.String.Basic

/-! # Dotted paths

The labels on the way to a leaf, joined by dots. The path can be read back from its text
when every label is plain: not empty, and without dots.
-/

namespace Dotted

/-- The labels of a path, each ended by a dot. -/
def withDots (path : List String) : String :=
  String.ofList (Bytes.terminated '.' (path.map String.toList))

/-- `text.rstrip(".")`. -/
def stripDots (text : String) : String :=
  String.ofList (text.toList.reverse.dropWhile (· = '.')).reverse

/-- The labels of a path with dots between them. -/
def joined (path : List String) : String :=
  String.ofList (Bytes.terminated '.' (path.map String.toList)).dropLast

/-- The labels of a path with dots between them, and none at the end. -/
def dotted (path : List String) : String := stripDots (withDots path)

structure Plain (label : String) : Prop where
  nonempty : label ≠ ""
  dotless : '.' ∉ label.toList

@[simp] theorem withDots_nil : withDots [] = "" := rfl

theorem withDots_concat (path : List String) (label : String) :
    withDots (path ++ [label]) = withDots path ++ label ++ "." := by
  apply String.toList_injective
  simp [withDots, Bytes.terminated]

theorem joined_concat (path : List String) (label : String) :
    joined (path ++ [label]) = withDots path ++ label := by
  have hchars : Bytes.terminated '.' ((path ++ [label]).map String.toList) =
      (withDots path ++ label).toList ++ ['.'] := by
    simp [withDots, Bytes.terminated]
  rw [joined, hchars, List.dropLast_concat, String.ofList_toList]

theorem withDots_eq_empty {path : List String} : withDots path = "" ↔ path = [] := by
  constructor
  · intro hempty
    rcases List.eq_nil_or_concat path with hnil | ⟨front, label, rfl⟩
    · exact hnil
    · rw [List.concat_eq_append, withDots_concat] at hempty
      have hchars := congrArg String.toList hempty
      rw [String.toList_append, String.toList_empty] at hchars
      exact absurd (List.append_eq_nil_iff.mp hchars).2 (by decide)
  · rintro rfl
    exact withDots_nil

theorem stripDots_append (text : String) {label : String} (h : Plain label) :
    stripDots (text ++ label ++ ".") = text ++ label := by
  have hreverse : (text ++ label ++ ".").toList.reverse =
      '.' :: (text ++ label).toList.reverse := by
    simp
  have hlast : (text ++ label).toList.reverse.dropWhile (· = '.') =
      (text ++ label).toList.reverse := by
    rw [String.toList_append, List.reverse_append]
    cases hlabel : label.toList.reverse with
    | nil =>
        have hempty : label.toList = [] := List.reverse_eq_nil_iff.mp hlabel
        exact absurd (String.toList_injective (hempty.trans String.toList_empty.symm)) h.nonempty
    | cons c rest =>
        have hmem : c ∈ label.toList := List.mem_reverse.mp (hlabel ▸ List.mem_cons_self)
        rw [List.cons_append, List.dropWhile_cons_of_neg]
        exact fun hdot => h.dotless (of_decide_eq_true hdot ▸ hmem)
  rw [stripDots, hreverse, List.dropWhile_cons_of_pos (by simp), hlast, List.reverse_reverse,
    String.ofList_toList]

theorem dotted_concat (path : List String) {label : String} (h : Plain label) :
    dotted (path ++ [label]) = withDots path ++ label := by
  rw [dotted, withDots_concat, stripDots_append _ h]

theorem joined_eq_dotted {path : List String} (h : ∀ label ∈ path, Plain label) :
    joined path = dotted path := by
  rcases List.eq_nil_or_concat path with rfl | ⟨front, label, rfl⟩
  · rfl
  · rw [List.concat_eq_append] at h ⊢
    rw [joined_concat, dotted_concat _ (h label (by simp))]

theorem withDots_eq {path : List String} (hpath : path ≠ []) (h : ∀ label ∈ path, Plain label) :
    withDots path = dotted path ++ "." := by
  obtain ⟨first, label, rfl⟩ := (List.eq_nil_or_concat path).resolve_left hpath
  rw [List.concat_eq_append] at h ⊢
  rw [dotted_concat _ (h label (by simp)), withDots_concat]

theorem withDots_injective {path other : List String} (h : ∀ label ∈ path, Plain label)
    (h' : ∀ label ∈ other, Plain label) (heq : withDots path = withDots other) : path = other := by
  have hdotless : ∀ {path : List String}, (∀ label ∈ path, Plain label) →
      ∀ part ∈ path.map String.toList, '.' ∉ part := by
    intro path h part hpart
    obtain ⟨label, hlabel, rfl⟩ := List.mem_map.mp hpart
    exact (h label hlabel).dotless
  have hparts := Bytes.eq_of_terminated (hdotless h) (hdotless h')
    (String.ofList_injective heq)
  exact List.map_injective_iff.mpr (fun _ _ hsame => String.toList_injective hsame) hparts

theorem dotted_ne_empty {path : List String} (hpath : path ≠ [])
    (h : ∀ label ∈ path, Plain label) : dotted path ≠ "" := by
  obtain ⟨first, label, rfl⟩ := (List.eq_nil_or_concat path).resolve_left hpath
  rw [List.concat_eq_append] at h ⊢
  have hlabel := h label (by simp)
  rw [dotted_concat _ hlabel]
  intro hempty
  have hchars := congrArg String.toList hempty
  rw [String.toList_append, String.toList_empty, List.append_eq_nil_iff] at hchars
  exact hlabel.nonempty (String.toList_injective (hchars.2.trans String.toList_empty.symm))

/-- Paths of plain labels are told apart by their texts. -/
theorem dotted_injective {path other : List String} (h : ∀ label ∈ path, Plain label)
    (h' : ∀ label ∈ other, Plain label) (heq : dotted path = dotted other) : path = other := by
  by_cases hpath : path = []
  · subst hpath
    by_contra hother
    exact dotted_ne_empty (Ne.symm hother) h' heq.symm
  · have hother : other ≠ [] := by
      rintro rfl
      exact dotted_ne_empty hpath h heq
    apply withDots_injective h h'
    rw [withDots_eq hpath h, withDots_eq hother h', heq]

/-! ## Numbers in brackets -/

def bracketed (index : Nat) : String := "[" ++ toString index ++ "]"

theorem toList_bracketed (index : Nat) :
    (bracketed index).toList = '[' :: (Nat.toDigits 10 index ++ [']']) := by
  rw [bracketed, String.toList_append, String.toList_append]
  change ['['] ++ (String.ofList (Nat.toDigits 10 index)).toList ++ [']'] = _
  rw [String.toList_ofList]
  rfl

theorem getLast?_append_bracketed (text : String) (index : Nat) :
    (text ++ bracketed index).toList.getLast? = some ']' := by
  rw [String.toList_append, toList_bracketed, ← List.cons_append, ← List.append_assoc,
    List.getLast?_concat]

/-- The number behind a text can be read back, whatever the text is. -/
theorem append_bracketed_injective {text other : String} {index index' : Nat}
    (h : text ++ bracketed index = other ++ bracketed index') : text = other ∧ index = index' := by
  -- from the end, the digits are what comes before the first opening bracket
  have hdigits : ∀ (text : String) (index : Nat),
      ((text ++ bracketed index).toList.reverse.tail).takeWhile (· ≠ '[') =
        (Nat.toDigits 10 index).reverse := by
    intro text index
    have hall : ∀ c ∈ (Nat.toDigits 10 index).reverse, decide (c ≠ '[') = true := by
      rintro c hc
      refine decide_eq_true fun heq => ?_
      have hdigit := Nat.isDigit_of_mem_toDigits (by decide) (by decide) (List.mem_reverse.mp hc)
      exact absurd (heq ▸ hdigit) (by decide)
    rw [String.toList_append, toList_bracketed]
    simp only [List.reverse_append, List.reverse_cons, List.reverse_nil, List.nil_append,
      List.singleton_append, List.tail_cons, List.cons_append, List.append_assoc]
    rw [List.takeWhile_append_of_pos hall, List.takeWhile_cons_of_neg (by decide), List.append_nil]
  have hsame := (hdigits text index).symm.trans (h ▸ hdigits other index')
  have hindex : index = index' := by
    have hread := congrArg (Nat.ofDigitChars 10 · 0) (List.reverse_injective hsame)
    simpa only [Nat.ofDigitChars_toDigits (b := 10) (by decide) (by decide)] using hread
  subst hindex
  refine ⟨String.toList_injective ?_, rfl⟩
  have hchars := congrArg String.toList h
  rw [String.toList_append, String.toList_append] at hchars
  exact List.append_cancel_right hchars

theorem bracketed_injective {index other : Nat} (h : bracketed index = bracketed other) :
    index = other :=
  (append_bracketed_injective (congrArg ("" ++ ·) h)).2

theorem mem_bracketed {index : Nat} {c : Char} (h : c ∈ (bracketed index).toList) :
    c = '[' ∨ c.isDigit = true ∨ c = ']' := by
  rw [toList_bracketed, List.mem_cons, List.mem_append, List.mem_singleton] at h
  exact h.imp_right (Or.imp_left (Nat.isDigit_of_mem_toDigits (by decide) (by decide)))

theorem dot_not_mem_bracketed (index : Nat) : '.' ∉ (bracketed index).toList := by
  intro hdot
  rcases mem_bracketed hdot with h | h | h <;> exact absurd h (by decide)

theorem plain_bracketed (index : Nat) : Plain (bracketed index) where
  nonempty hempty := by
    have hchars := congrArg String.toList hempty
    rw [toList_bracketed, String.toList_empty] at hchars
    cases hchars
  dotless := dot_not_mem_bracketed index

end Dotted
