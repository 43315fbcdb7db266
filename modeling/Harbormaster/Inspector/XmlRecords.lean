import Harbormaster.Foundation.Ranking
import Harbormaster.Inspector.FlatTable
import Harbormaster.Inspector.XmlFlatten
import Mathlib.Algebra.BigOperators.Group.List.Basic

/-! # The records of an XML document

`XMLParser` takes for the records the elements of the local name that repeats with the
most content: ten times the average number of children and attributes, and the number of
instances up to a hundred. A group nested in the records, or the instructions of the
document, are taken instead exactly when they score higher, or as high and stand in front
of the records, or when an element in a record has the name of the records.
-/

namespace Harbormaster.Inspector.XMLParser

open Ordered Rounding Xml

/-! ## The code -/

def minRecords : Nat := 2

/-- The elements below the root by local name, in document order. -/
def byTag (root : Element) : Dict String (List Element) :=
  groupBy (fun element => some (localTag element)) root.descendants

/-- The average of a size, as a double. -/
def average (size : Element → Nat) (elements : List Element) : ℚ :=
  double ((elements.map size).sum / elements.length)

def avgChildren : List Element → ℚ := average fun element => element.children.length

def avgAttrs : List Element → ℚ := average fun element => element.attributes.length

def content (elements : List Element) : ℚ := double (avgChildren elements + avgAttrs elements)

/-- A repeated leaf is a field, not a record. -/
def eligible (elements : List Element) : Bool :=
  minRecords ≤ elements.length ∧ 1 ≤ content elements

def score (elements : List Element) : ℚ :=
  double (double (content elements * 10) + min elements.length 100)

/-- The number of children and attributes. -/
def richness (element : Element) : Nat := element.children.length + element.attributes.length

/-- The groups among which the records are looked for. -/
def candidates (root : Element) : List (String × List Element) :=
  (byTag root).entries.filter fun group => eligible group.2

/-- `_find_records`. -/
def findRecords (root : Element) : String × List Element :=
  match (candidates root).argmax fun group => score group.2 with
  | some best => best
  | none =>
      -- a single record is the most substantial child of the root
      match root.children.argmax richness with
      | some richest => if 0 < richness richest then (localTag richest, [richest]) else ("", [])
      | none => ("", [])

/-- `parse`, of the root that `etree.parse` returns or the error it raises. -/
def parse (document : Except String (Option Element)) : Except String ParsedTable :=
  match document with
  | .error exc => .error ("malformed XML: " ++ exc)
  | .ok none => .error "XML document has no root element"
  | .ok (some root) =>
      let (tag, records) := findRecords root
      if records = [] then .error "no repeating record element could be identified"
      else
        .ok (flatTable (records.map (flatten ""))
          (.ofPairs [("root", localTag root), ("record_element", tag),
            ("record_count", toString records.length)]))

/-! ## Extracts -/

/-- The children of a tag. -/
def namesakes (tag : String) (holder : Element) : List Element :=
  holder.children.filter fun child => localTag child = tag

def others (tag : String) (holder : Element) : List Element :=
  holder.children.filter fun child => localTag child ≠ tag

/-- Elements of a tag are the records, directly under the root or under one wrapper, and
the elements outside of them are given. -/
inductive Placed (tag : String) (root : Element) : List Element → List Element → Prop where
  | underRoot : Placed tag root (namesakes tag root) (Element.iterAll (others tag root))
  | underWrapper {before after : List Element} {wrapper : Element}
      (h : root.children = before ++ wrapper :: after) :
      Placed tag root (namesakes tag wrapper)
        (Element.iterAll before ++ wrapper :: Element.iterAll (others tag wrapper) ++
          Element.iterAll after)

/-- What stands in front of the first element of a tag. -/
def ahead (root : Element) (tag : String) : List Element :=
  root.descendants.takeWhile fun element => localTag element ≠ tag

/-- The elements below the root of a local name. -/
def named (root : Element) (tag : String) : List Element :=
  root.descendants.filter fun element => localTag element = tag

/-- Several records with children, and no other repeated element outside of them. -/
structure Extract (root : Element) (tag : String) (records outside : List Element) : Prop where
  placed : Placed tag root records outside
  several : 2 ≤ records.length
  filled : ∀ record ∈ records, record.children ≠ []
  single : ∀ element ∈ outside, element.isTagged = true →
    (named root (localTag element)).length = 1

/-- The records are found, and there is one row for each, with all its cells. -/
def RecordsFound (root : Element) (tag : String) (records : List Element) : Prop :=
  findRecords root = (tag, records) ∧
    ∃ table, parse (.ok (some root)) = .ok table ∧
      List.Forall₂ (fun (record : Element) (row : Row) =>
        ∀ key cell, (flatten "" record).get? key = some cell → row.get? key = some cell)
        records table.rows

/-! ## Where the elements stand -/

theorem filter_iterAll {tag : String} {children : List Element}
    (h : ∀ child ∈ children, ∀ element ∈ child.descendants, localTag element ≠ tag) :
    ((Element.iterAll children).filter fun element => localTag element = tag) =
      children.filter fun child => localTag child = tag := by
  induction children with
  | nil => rfl
  | cons child rest ih =>
      obtain ⟨hchild, hrest⟩ := List.forall_mem_cons.mp h
      have hbelow : (child.descendants.filter fun element => localTag element = tag) = [] :=
        List.filter_eq_nil_iff.mpr fun element hmem => by simpa using hchild element hmem
      rw [Element.iterAll, List.filter_append, ih hrest, Element.iter_eq, List.filter_cons,
        List.filter_cons, hbelow]
      split <;> rfl

theorem perm_move_back {α : Type} (moved first second third : List α) :
    (moved ++ (first ++ (second ++ third))).Perm (first ++ (second ++ (moved ++ third))) :=
  (List.perm_append_comm_assoc moved first _).trans
    ((List.perm_append_comm_assoc moved second third).append_left first)

/-- Children of a tag, what is in them, and the rest. -/
theorem iterAll_perm (tag : String) (children : List Element) :
    (Element.iterAll children).Perm
      ((children.filter fun child => localTag child = tag) ++
        ((children.filter fun child => localTag child = tag).flatMap Element.descendants ++
          Element.iterAll (children.filter fun child => localTag child ≠ tag))) := by
  induction children with
  | nil => exact .rfl
  | cons child rest ih =>
      rw [Element.iterAll, Element.iter_eq, List.filter_cons, List.filter_cons]
      by_cases htag : localTag child = tag
      · simp only [htag, decide_true, ne_eq, not_true_eq_false, decide_false, if_true, if_false,
          Bool.false_eq_true, List.flatMap_cons, List.cons_append, List.append_assoc]
        refine List.Perm.cons child ((ih.append_left child.descendants).trans ?_)
        exact List.perm_append_comm_assoc _ _ _
      · simp only [htag, decide_false, ne_eq, not_false_eq_true, decide_true, if_true, if_false,
          Bool.false_eq_true, Element.iterAll, Element.iter_eq, List.cons_append]
        exact (ih.append_left (child :: child.descendants)).trans
          (perm_move_back (child :: child.descendants) _ _ _)

theorem Placed.tag_eq {tag : String} {root : Element} {records outside : List Element}
    (h : Placed tag root records outside) : ∀ record ∈ records, localTag record = tag := by
  cases h <;> exact fun record hmem => by simpa using (List.mem_filter.mp hmem).2

/-- What is below the root is a record, in a record, or outside. -/
theorem Placed.descendants_perm {tag : String} {root : Element} {records outside : List Element}
    (h : Placed tag root records outside) :
    root.descendants.Perm (records ++ (records.flatMap Element.descendants ++ outside)) := by
  cases h with
  | underRoot => exact iterAll_perm tag root.children
  | @underWrapper before after wrapper hchildren =>
      rw [Element.descendants, hchildren, Element.iterAll_append, Element.iterAll, Element.iter_eq]
      have hwrapper := iterAll_perm tag wrapper.children
      have hmoved := perm_move_back (Element.iterAll before ++ [wrapper]) (namesakes tag wrapper)
        ((namesakes tag wrapper).flatMap Element.descendants)
        (Element.iterAll (others tag wrapper) ++ Element.iterAll after)
      refine List.Perm.trans ?_ (hmoved.trans (.of_eq ?_))
      · have hinner := (hwrapper.append_right (Element.iterAll after)).append_left
          (Element.iterAll before ++ [wrapper])
        simp only [List.append_assoc, List.singleton_append] at hinner ⊢
        exact hinner
      · simp only [List.append_assoc, List.cons_append, List.nil_append]

/-- Where no other element has the tag of the records, it stands for them. -/
theorem Placed.named_eq {tag : String} {root : Element} {records outside : List Element}
    (h : Placed tag root records outside)
    (hbelow : ∀ record ∈ records, ∀ element ∈ record.descendants, localTag element ≠ tag)
    (houtside : ∀ element ∈ outside, localTag element ≠ tag) : named root tag = records := by
  have hholder : ∀ holder : Element,
      (∀ record ∈ namesakes tag holder, ∀ element ∈ record.descendants, localTag element ≠ tag) →
      (∀ element ∈ Element.iterAll (others tag holder), localTag element ≠ tag) →
      named holder tag = namesakes tag holder := by
    intro holder hrecords hothers
    apply filter_iterAll
    intro child hchild element helement
    by_cases htag : localTag child = tag
    · exact hrecords child (List.mem_filter.mpr ⟨hchild, by simpa using htag⟩) element helement
    · refine hothers element (Element.mem_iterAll.mpr
        ⟨child, List.mem_filter.mpr ⟨hchild, by simpa using htag⟩, ?_⟩)
      rw [Element.iter_eq]
      exact List.mem_cons_of_mem child helement
  have hnone : ∀ {elements : List Element}, (∀ element ∈ elements, localTag element ≠ tag) →
      (elements.filter fun element => localTag element = tag) = [] := fun hne =>
    List.filter_eq_nil_iff.mpr fun element hmem => by simpa using hne element hmem
  cases h with
  | underRoot => exact hholder root hbelow houtside
  | @underWrapper before after wrapper hchildren =>
      simp only [List.append_assoc, List.cons_append, List.forall_mem_append,
        List.forall_mem_cons] at houtside
      obtain ⟨hbefore, hwrapper, hothers, hafter⟩ := houtside
      rw [named, Element.descendants, hchildren, Element.iterAll_append, Element.iterAll,
        Element.iter_eq, List.filter_append, List.filter_append, hnone hbefore, hnone hafter,
        List.filter_cons_of_neg (by simpa using hwrapper), List.nil_append, List.append_nil]
      exact hholder wrapper hbelow hothers

/-! ## Scores -/

theorem average_nonneg (size : Element → Nat) (elements : List Element) :
    0 ≤ average size elements := double_nonneg (by positivity)

/-- Elements with children have content. -/
theorem one_le_content {elements : List Element} (hsome : elements ≠ [])
    (h : ∀ element ∈ elements, element.children ≠ []) : 1 ≤ content elements := by
  have hlength : 0 < (elements.length : ℚ) := by
    exact_mod_cast List.length_pos_iff.mpr hsome
  have hchildren : 1 ≤ avgChildren elements := by
    apply one_le_double
    rw [one_le_div hlength]
    have hsum := List.length_le_sum_of_one_le (elements.map fun element => element.children.length)
      fun n hn => by
        obtain ⟨element, hmem, rfl⟩ := List.mem_map.mp hn
        exact List.length_pos_iff.mpr (h element hmem)
    rw [List.length_map] at hsum
    exact_mod_cast hsum
  have hattrs : 0 ≤ avgAttrs elements := average_nonneg _ elements
  exact one_le_double (by linarith)

theorem average_uniform {size : Element → Nat} {elements : List Element} {n : Nat}
    (hsome : elements ≠ []) (h : ∀ element ∈ elements, size element = n) (hn : n < 2 ^ 53) :
    average size elements = n := by
  have hlength : (elements.length : ℚ) ≠ 0 := by
    exact_mod_cast (List.length_pos_iff.mpr hsome).ne'
  rw [average, List.map_congr_left h, List.map_const', List.sum_replicate, nsmul_eq_mul,
    Nat.cast_id, Nat.cast_mul, mul_div_cancel_left₀ _ hlength, double_natCast hn]

/-- Among elements with the same numbers of children and attributes nothing is rounded. -/
theorem content_uniform {elements : List Element} {children attributes : Nat}
    (hsome : elements ≠ []) (hchildren : ∀ element ∈ elements, element.children.length = children)
    (hattributes : ∀ element ∈ elements, element.attributes.length = attributes)
    (hsmall : children + attributes < 2 ^ 53) :
    content elements = (children + attributes : Nat) := by
  rw [content, avgChildren, avgAttrs, average_uniform hsome hchildren (by omega),
    average_uniform hsome hattributes (by omega), ← Nat.cast_add, double_natCast hsmall]

theorem score_uniform {elements : List Element} {children attributes : Nat}
    (hsome : elements ≠ []) (hchildren : ∀ element ∈ elements, element.children.length = children)
    (hattributes : ∀ element ∈ elements, element.attributes.length = attributes)
    (hsmall : children + attributes < 2 ^ 40) :
    score elements = ((children + attributes) * 10 + min elements.length 100 : Nat) := by
  have hscaled : ((children + attributes : Nat) : ℚ) * 10 =
      ((children + attributes) * 10 : Nat) := by
    push_cast
    rfl
  rw [score, content_uniform hsome hchildren hattributes (by omega), hscaled,
    double_natCast (by omega), ← Nat.cast_add, double_natCast (by omega)]

/-! ## The choice -/

theorem eq_named_of_mem_byTag {root : Element} {group : String × List Element}
    (h : group ∈ (byTag root).entries) : group.2 = named root group.1 := by
  obtain ⟨hgroup, -⟩ := groupBy_entry _ h
  rw [hgroup, named]
  simp only [Option.some.injEq]

theorem mem_candidates {root : Element} {group : String × List Element} :
    group ∈ candidates root ↔ group.2 = named root group.1 ∧ eligible group.2 = true := by
  rw [candidates, List.mem_filter]
  refine ⟨fun h => ⟨eq_named_of_mem_byTag h.1, h.2⟩, fun h => ⟨?_, h.2⟩⟩
  obtain ⟨tag, elements⟩ := group
  obtain ⟨hnamed, heligible⟩ := h
  obtain rfl : elements = named root tag := hnamed
  have hlength : minRecords ≤ (named root tag).length := (of_decide_eq_true heligible).1
  rw [byTag, ← Dict.get?_eq_some, get?_groupBy]
  simp only [Option.some.injEq]
  rw [if_neg]
  · rfl
  · intro hnil
    rw [named, hnil] at hlength
    exact absurd hlength (by decide)

theorem mem_tags_of_eligible {root : Element} {tag : String}
    (h : eligible (named root tag) = true) : tag ∈ root.descendants.map localTag := by
  have hlength : minRecords ≤ (named root tag).length := (of_decide_eq_true h).1
  obtain ⟨element, hmem⟩ := List.exists_mem_of_length_pos (Nat.lt_of_lt_of_le two_pos hlength)
  obtain ⟨hroot, htag⟩ := List.mem_filter.mp hmem
  exact List.mem_map.mpr ⟨element, hroot, of_decide_eq_true htag⟩

theorem descendants_eq_ahead {root : Element} {tag : String}
    (h : tag ∈ root.descendants.map localTag) :
    ∃ first rest, root.descendants = ahead root tag ++ first :: rest ∧ localTag first = tag := by
  unfold ahead
  cases hdrop : root.descendants.dropWhile fun element => localTag element ≠ tag with
  | nil =>
      obtain ⟨element, hmem, htag⟩ := List.mem_map.mp h
      exact absurd htag (of_decide_eq_true (List.dropWhile_eq_nil_iff.mp hdrop element hmem))
  | cons first rest =>
      refine ⟨first, rest, ?_, ?_⟩
      · rw [← hdrop, List.takeWhile_append_dropWhile]
      · have hhead := List.head?_dropWhile_not (fun element => decide (localTag element ≠ tag))
          root.descendants
        rw [hdrop] at hhead
        simpa using hhead

theorem ahead_ne {root : Element} {tag other : String}
    (h : other ∈ (ahead root tag).map localTag) : other ≠ tag := by
  obtain ⟨element, hmem, rfl⟩ := List.mem_map.mp h
  have hne := List.mem_takeWhile_imp hmem
  exact of_decide_eq_true hne

/-- The candidates in front of one are those whose names stand in front of its name. -/
theorem candidates_eq {root : Element} {tag : String} (h : eligible (named root tag) = true) :
    ∃ before after, candidates root = before ++ (tag, named root tag) :: after ∧
      ∀ group ∈ candidates root, group ∈ before ↔ group.1 ∈ (ahead root tag).map localTag := by
  obtain ⟨first, rest, hroot, hfirst⟩ := descendants_eq_ahead (mem_tags_of_eligible h)
  have hnew : ∀ element ∈ ahead root tag, some (localTag element) ≠ some tag :=
    fun element hmem heq => ahead_ne (List.mem_map_of_mem hmem) (Option.some.inj heq)
  obtain ⟨before, group, after, hentries, hbefore⟩ :=
    @groupBy_first _ _ _ (fun element => some (localTag element)) (ahead root tag) rest first tag
      (congrArg some hfirst) hnew
  rw [← hroot] at hentries
  change (byTag root).entries = _ at hentries
  obtain rfl : group = named root tag :=
    @eq_named_of_mem_byTag root (tag, group) (by rw [hentries]; simp)
  refine ⟨before.filter fun group => eligible group.2, after.filter fun group => eligible group.2,
    ?_, fun group hgroup => ?_⟩
  · rw [candidates, hentries, List.filter_append, List.filter_cons]
    exact congrArg _ (if_pos h)
  · have hname : group.1 ∈ (ahead root tag).map localTag ↔ group.1 ∈ before.map Prod.fst := by
      rw [hbefore, List.mem_map]
      simp only [Option.some.injEq]
    rw [hname, List.mem_filter, and_iff_left (mem_candidates.mp hgroup).2]
    refine ⟨List.mem_map_of_mem, fun hkey => ?_⟩
    obtain ⟨other, hother, hkey⟩ := List.mem_map.mp hkey
    have hsame : other.2 = group.2 := by
      rw [(mem_candidates.mp hgroup).1, ← hkey]
      exact eq_named_of_mem_byTag (by rw [hentries]; simp [hother])
    rw [← Prod.ext hkey hsame]
    exact hother

/-- A group scores less than the records, or as much if its name does not stand in front
of them. -/
structure Yields (root : Element) (tag other : String) (records : List Element) : Prop where
  le : score (named root other) ≤ score records
  lt_of_ahead : other ∈ (ahead root tag).map localTag → score (named root other) < score records

/-- A group is the best candidate when all others yield to it. -/
theorem argmax_candidates_iff {root : Element} {tag : String}
    (h : eligible (named root tag) = true) :
    (candidates root).argmax (fun group => score group.2) = some (tag, named root tag) ↔
      ∀ other ≠ tag, eligible (named root other) = true →
        Yields root tag other (named root tag) := by
  obtain ⟨before, after, hcandidates, hbefore⟩ := candidates_eq h
  have hnew : (tag, named root tag) ∉ before := fun hmem =>
    ahead_ne ((hbefore _ (hcandidates ▸ List.mem_append_left _ hmem)).mp hmem) rfl
  have hbest := @Ranking.argmax_append_cons_iff _ _ _
    (fun group : String × List Element => score group.2) before after _ hnew
  rw [← hcandidates] at hbest
  -- of equal scores the first one wins: those in front score less, those behind no more
  refine hbest.trans ⟨fun ⟨hlt, hle⟩ other hne heligible => ?_, fun hyields => ⟨?_, ?_⟩⟩
  · have hother : (other, named root other) ∈ candidates root := mem_candidates.mpr ⟨rfl, heligible⟩
    have hahead := hbefore _ hother
    refine ⟨?_, fun hmem => hlt (other, named root other) (hahead.mpr hmem)⟩
    rw [hcandidates, List.mem_append, List.mem_cons, Prod.mk.injEq] at hother
    rcases hother with hfront | ⟨htag, -⟩ | hback
    · exact (hlt (other, named root other) hfront).le
    · exact absurd htag hne
    · exact hle (other, named root other) hback
  · intro group hmem
    have hcandidate : group ∈ candidates root := hcandidates ▸ List.mem_append_left _ hmem
    have hahead := (hbefore group hcandidate).mp hmem
    obtain ⟨hnamed, heligible⟩ := mem_candidates.mp hcandidate
    rw [hnamed] at heligible ⊢
    exact (hyields group.1 (ahead_ne hahead) heligible).lt_of_ahead hahead
  · intro group hmem
    have hcandidate : group ∈ candidates root :=
      hcandidates ▸ List.mem_append_right _ (List.mem_cons_of_mem _ hmem)
    obtain ⟨hnamed, heligible⟩ := mem_candidates.mp hcandidate
    rw [hnamed] at heligible ⊢
    by_cases htag : group.1 = tag
    · rw [htag]
    · exact (hyields group.1 htag heligible).le

/-- Several records are found as the best candidate only. -/
theorem findRecords_eq_iff {root : Element} {tag : String} {records : List Element}
    (h : 2 ≤ records.length) :
    findRecords root = (tag, records) ↔
      (candidates root).argmax (fun group => score group.2) = some (tag, records) := by
  unfold findRecords
  cases (candidates root).argmax fun group => score group.2 with
  | some best => exact Option.some_inj.symm
  | none =>
      -- without a candidate at most one element is taken for a record
      dsimp only
      refine iff_of_false (fun heq => ?_) (fun hsome => by cases hsome)
      have hfew : ∀ found : String × List Element, found = (tag, records) →
          ¬ found.2.length ≤ 1 := by
        rintro _ rfl
        dsimp only
        omega
      split at heq
      next =>
        split at heq
        next => exact hfew _ heq (by simp)
        next => exact hfew _ heq (by simp)
      next => exact hfew _ heq (by simp)

namespace Extract

variable {root : Element} {tag : String} {records outside : List Element}

theorem isTagged (h : Extract root tag records outside) {record : Element}
    (hmem : record ∈ records) : record.isTagged = true := by
  cases record with
  | tagged => rfl
  | special => exact absurd rfl (h.filled _ hmem)

theorem length_named (h : Extract root tag records outside) :
    (named root tag).length = records.length +
      (((records.flatMap Element.descendants).filter fun element => localTag element = tag).length +
        (outside.filter fun element => localTag element = tag).length) := by
  have hrecords : (records.filter fun element => localTag element = tag) = records :=
    List.filter_eq_self.mpr fun record hmem => by simpa using h.placed.tag_eq record hmem
  rw [named, (h.placed.descendants_perm.filter _).length_eq, List.filter_append, List.filter_append,
    hrecords, List.length_append, List.length_append]

theorem outside_ne (h : Extract root tag records outside) :
    ∀ element ∈ outside, localTag element ≠ tag := by
  intro element hmem heq
  have hlength := h.length_named
  have hseveral := h.several
  cases htagged : element.isTagged with
  | true =>
      have hsingle := h.single element hmem htagged
      rw [heq] at hsingle
      omega
  | false =>
      obtain ⟨record, hrecord⟩ := List.exists_mem_of_length_pos (by omega : 0 < records.length)
      apply localTag_ne_special (h.isTagged hrecord) htagged
      rw [h.placed.tag_eq record hrecord, heq]

theorem eligible_records (h : Extract root tag records outside) : eligible records = true := by
  have hsome : records ≠ [] := List.length_pos_iff.mp (by have := h.several; omega)
  exact decide_eq_true ⟨h.several, one_le_content hsome h.filled⟩

theorem findRecords_iff (h : Extract root tag records outside) :
    findRecords root = (tag, records) ↔
      (∀ record ∈ records, ∀ element ∈ record.descendants, localTag element ≠ tag) ∧
        ∀ other ≠ tag, eligible (named root other) = true → Yields root tag other records := by
  rw [findRecords_eq_iff h.several]
  constructor
  · intro hbest
    have hnamed : records = named root tag := (mem_candidates.mp (List.argmax_mem hbest)).1
    refine ⟨fun record hrecord element helement htag => ?_, ?_⟩
    · -- a namesake in a record would be one more in its group
      have hlength := h.length_named
      have hinner : element ∈ (records.flatMap Element.descendants).filter
          fun element => localTag element = tag :=
        List.mem_filter.mpr
          ⟨List.mem_flatMap.mpr ⟨record, hrecord, helement⟩, decide_eq_true htag⟩
      have hpos := List.length_pos_of_mem hinner
      rw [← hnamed] at hlength
      omega
    · rw [hnamed] at hbest ⊢
      exact (argmax_candidates_iff (hnamed ▸ h.eligible_records)).mp hbest
  · rintro ⟨hinner, hyields⟩
    have hnamed : named root tag = records := h.placed.named_eq hinner h.outside_ne
    rw [← hnamed] at hyields ⊢
    exact (argmax_candidates_iff (hnamed ▸ h.eligible_records)).mpr hyields

end Extract

/-- The records of an extract are found, one row for each, exactly when nothing in them
has their name and all other repeated elements with content yield to them. -/
theorem recordsFound_iff {root : Element} {tag : String} {records outside : List Element}
    (h : Extract root tag records outside) :
    RecordsFound root tag records ↔
      (∀ record ∈ records, ∀ element ∈ record.descendants, localTag element ≠ tag) ∧
        ∀ other ≠ tag, eligible (named root other) = true → Yields root tag other records := by
  rw [← h.findRecords_iff]
  refine ⟨And.left, fun hfound => ⟨hfound, ?_⟩⟩
  have hsome : records ≠ [] := List.length_pos_iff.mp (by have := h.several; omega)
  rw [parse, hfound]
  dsimp only
  rw [if_neg hsome]
  refine ⟨_, rfl, ?_⟩
  have hrows := rows_flatTable (records.map (flatten "")) (.ofPairs [("root", localTag root),
    ("record_element", tag), ("record_count", toString records.length)])
  rw [List.forall₂_map_left_iff] at hrows
  exact hrows

section Samples

/-- A trade with an attribute, a quantity and whatever else is in it. -/
def trade (rest : List Element) : Element :=
  .tagged tradeName (.ofPairs [(idName, "7")]) none (.leaf qtyName "5" :: rest) none

def trades (rest : List Element) : Element :=
  .tagged (.unqualified "Trades" (by decide) (by decide)) .empty none [trade rest, trade rest] none

/-- Two trades under a wrapper. -/
def extract (rest : List Element) : Element :=
  .tagged (.unqualified "Extract" (by decide) (by decide)) .empty none [trades rest] none

/-- Three fees with three attributes each. -/
def fees : Element :=
  let fee : Element :=
    .tagged (.unqualified "Fee" (by decide) (by decide))
      (.ofPairs [(.unqualified "Type" (by decide) (by decide), "tax"),
        (.unqualified "Amt" (by decide) (by decide), "1"),
        (.unqualified "Ccy" (by decide) (by decide), "EUR")]) none [] none
  .tagged (.unqualified "Fees" (by decide) (by decide)) .empty none [fee, fee, fee] none

theorem extract_trades :
    Extract (extract []) "Trade" [trade [], trade []] [trades []] where
  placed := @Placed.underWrapper "Trade" (extract []) [] [] (trades []) rfl
  several := le_rfl
  filled := by decide
  single := by decide

theorem extract_fees :
    Extract (extract [fees]) "Trade" [trade [fees], trade [fees]] [trades [fees]] where
  placed := @Placed.underWrapper "Trade" (extract [fees]) [] [] (trades [fees]) rfl
  several := le_rfl
  filled := by decide
  single := by decide

/-- Trades with a quantity each. -/
theorem recordsFound_trades : RecordsFound (extract []) "Trade" [trade [], trade []] := by
  refine (recordsFound_iff extract_trades).mpr ⟨by decide, fun other hother heligible => ?_⟩
  have htags : (extract []).descendants.map localTag =
      ["Trades", "Trade", "Qty", "Trade", "Qty"] := by decide
  have hmem := mem_tags_of_eligible heligible
  obtain ⟨hseveral, hcontent⟩ := of_decide_eq_true heligible
  rw [htags] at hmem
  simp only [List.mem_cons, hother, List.not_mem_nil, or_false, false_or, or_self] at hmem
  rcases hmem with rfl | rfl
  · exact absurd hseveral (by decide)
  · have hempty : content (named (extract []) "Qty") = (0 + 0 : Nat) :=
      content_uniform (by decide) (by decide) (by decide) (by decide)
    rw [hempty] at hcontent
    exact absurd hcontent (by norm_num)

/-- Fees that are repeated in the records score higher than these. -/
theorem fees_outscore :
    Extract (extract [fees]) "Trade" [trade [fees], trade [fees]] [trades [fees]] ∧
      ¬ RecordsFound (extract [fees]) "Trade" [trade [fees], trade [fees]] := by
  refine ⟨extract_fees, fun hfound => ?_⟩
  obtain ⟨-, hscores⟩ := (extract_fees.findRecords_iff).mp hfound.1
  have hcontent : content (named (extract [fees]) "Fee") = (0 + 3 : Nat) :=
    content_uniform (by decide) (by decide) (by decide) (by decide)
  have hfees : score (named (extract [fees]) "Fee") = ((0 + 3) * 10 + 6 : Nat) :=
    score_uniform (by decide) (by decide) (by decide) (by decide)
  have htrades : score [trade [fees], trade [fees]] = ((2 + 1) * 10 + 2 : Nat) :=
    score_uniform (by decide) (by decide) (by decide) (by decide)
  have hle := (hscores "Fee" (by decide)
    (decide_eq_true ⟨by decide, by rw [hcontent]; norm_num⟩)).le
  rw [hfees, htrades] at hle
  exact absurd hle (by norm_num)

end Samples

end Harbormaster.Inspector.XMLParser
