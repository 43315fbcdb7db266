import Mathlib.Data.List.Nodup
import Mathlib.Data.List.Range
import Mathlib.Data.List.TakeWhile

/-! # A log that is read again

A reader goes through a log in order and may go back, as a consumer does that starts again
where it committed last. What it has read then repeats itself, but both the first and the
last readings of the elements follow the order of the log. So what is settled by the first
or by the last reading is settled as if every element had been read once.
-/

namespace Redelivery

/-! ## Reading again -/

/-- The positions read so far, and the next one. -/
inductive Reads : List Nat → Nat → Prop
  | start : Reads [] 0
  | next {positions : List Nat} {n : Nat} (h : Reads positions n) :
      Reads (positions ++ [n]) (n + 1)
  | back {positions : List Nat} {n m : Nat} (h : Reads positions n) (hle : m ≤ n) :
      Reads positions m

/-- Nothing before the next position has been left out. -/
theorem Reads.mem {positions : List Nat} {n m : Nat} (h : Reads positions n) (hlt : m < n) :
    m ∈ positions := by
  induction h with
  | start => exact absurd hlt (Nat.not_lt_zero m)
  | next _ ih =>
      rcases Nat.lt_succ_iff_lt_or_eq.mp hlt with hbefore | rfl
      · exact List.mem_append_left _ (ih hbefore)
      · exact List.mem_append_right _ (List.mem_singleton.mpr rfl)
  | back _ hle ih => exact ih (hlt.trans_le hle)

/-! ## Reading once -/

variable {α β : Type} [DecidableEq α] (late : α → Bool)

/-- Keep one reading of each element: the last one of a late element, the first one of
the others. -/
def keep (kept : List α) (x : α) : List α :=
  if late x then kept.filter (· ≠ x) ++ [x] else if x ∈ kept then kept else kept ++ [x]

def once (readings : List α) : List α := readings.foldl (keep late) []

variable {late} {readings kept : List α} {x y : α}

theorem once_concat : once late (readings ++ [x]) = keep late (once late readings) x := by
  rw [once, once, List.foldl_append, List.foldl_cons, List.foldl_nil]

theorem keep_of_late (h : late x = true) : keep late kept x = kept.filter (· ≠ x) ++ [x] :=
  if_pos h

theorem keep_of_mem (h : late x = false) (hmem : x ∈ kept) : keep late kept x = kept := by
  rw [keep, h, if_neg Bool.false_ne_true, if_pos hmem]

theorem keep_of_not_mem (h : late x = false) (hmem : x ∉ kept) :
    keep late kept x = kept ++ [x] := by
  rw [keep, h, if_neg Bool.false_ne_true, if_neg hmem]

/-- The ways in which one more reading is kept. -/
theorem once_cases (late : α → Bool) (readings : List α) (x : α) :
    (late x = true ∧
        once late (readings ++ [x]) = (once late readings).filter (· ≠ x) ++ [x]) ∨
      (late x = false ∧ x ∈ once late readings ∧
        once late (readings ++ [x]) = once late readings) ∨
      (late x = false ∧ x ∉ once late readings ∧
        once late (readings ++ [x]) = once late readings ++ [x]) := by
  rw [once_concat]
  cases hlate : late x with
  | true => exact Or.inl ⟨rfl, keep_of_late hlate⟩
  | false =>
      by_cases hmem : x ∈ once late readings
      · exact Or.inr (Or.inl ⟨rfl, hmem, keep_of_mem hlate hmem⟩)
      · exact Or.inr (Or.inr ⟨rfl, hmem, keep_of_not_mem hlate hmem⟩)

theorem mem_once : y ∈ once late readings ↔ y ∈ readings := by
  induction readings using List.reverseRecOn with
  | nil => rfl
  | append_singleton front x ih =>
      rw [List.mem_append, List.mem_singleton]
      rcases once_cases late front x with ⟨-, h⟩ | ⟨-, hmem, h⟩ | ⟨-, -, h⟩
      · rw [h, List.mem_append, List.mem_filter, List.mem_singleton, ih, decide_eq_true_eq]
        by_cases hy : y = x
        · simp [hy]
        · simp [hy]
      · rw [h, ih]
        exact ⟨Or.inl, fun hor => hor.elim id fun hy => ih.mp (hy ▸ hmem)⟩
      · rw [h, List.mem_append, List.mem_singleton, ih]

/-- Keeping one reading goes on in each part of the log by itself. -/
theorem filter_once (q : α → Bool) :
    (once late readings).filter q = once late (readings.filter q) := by
  induction readings using List.reverseRecOn with
  | nil => rfl
  | append_singleton front x ih =>
      rw [List.filter_append]
      cases hq : q x with
      | false =>
          have hnone : [x].filter q = [] := by simp [hq]
          rw [hnone, List.append_nil, ← ih]
          rcases once_cases late front x with ⟨-, h⟩ | ⟨-, -, h⟩ | ⟨-, -, h⟩
          · rw [h, List.filter_append, hnone, List.append_nil, List.filter_filter]
            refine List.filter_congr fun y _ => ?_
            by_cases hy : y = x
            · simp [hy, hq]
            · simp [hy]
          · rw [h]
          · rw [h, List.filter_append, hnone, List.append_nil]
      | true =>
          have hself : [x].filter q = [x] := by simp [hq]
          have hmem : x ∈ (once late front).filter q ↔ x ∈ once late front := by
            simp [List.mem_filter, hq]
          rw [hself, once_concat, once_concat, ← ih]
          cases hlate : late x with
          | true =>
              rw [keep_of_late hlate, keep_of_late hlate, List.filter_append, hself,
                List.filter_filter, List.filter_filter]
              exact congrArg (· ++ [x]) (List.filter_congr fun y _ => Bool.and_comm _ _)
          | false =>
              by_cases hkept : x ∈ once late front
              · rw [keep_of_mem hlate hkept, keep_of_mem hlate (hmem.mpr hkept)]
              · rw [keep_of_not_mem hlate hkept, keep_of_not_mem hlate (hmem.not.mpr hkept),
                  List.filter_append, hself]

/-- The readings may be named otherwise. -/
theorem once_map [DecidableEq β] {name : α → β} (hname : Function.Injective name)
    {late' : β → Bool} (hlate : ∀ x ∈ readings, late' (name x) = late x) :
    once late' (readings.map name) = (once late readings).map name := by
  induction readings using List.reverseRecOn with
  | nil => rfl
  | append_singleton front x ih =>
      rw [List.map_append, List.map_cons, List.map_nil, once_concat, once_concat,
        ih fun y hy => hlate y (List.mem_append_left _ hy)]
      have hx := hlate x (List.mem_append_right _ (List.mem_singleton.mpr rfl))
      have hmem : name x ∈ (once late front).map name ↔ x ∈ once late front :=
        List.mem_map_of_injective hname
      cases hkind : late x with
      | true =>
          rw [keep_of_late hkind, keep_of_late (hx.trans hkind), List.map_append, List.filter_map]
          refine congrArg (· ++ [name x]) (congrArg (List.map name) (List.filter_congr ?_))
          intro y _
          exact decide_eq_decide.mpr hname.ne_iff
      | false =>
          by_cases hkept : x ∈ once late front
          · rw [keep_of_mem hkind hkept, keep_of_mem (hx.trans hkind) (hmem.mpr hkept)]
          · rw [keep_of_not_mem hkind hkept,
              keep_of_not_mem (hx.trans hkind) (hmem.not.mpr hkept), List.map_append]
            rfl

/-! ## Catching up -/

theorem filter_range_lt {n m : Nat} (h : m ≤ n) :
    (List.range n).filter (· < m) = List.range m := by
  obtain ⟨k, rfl⟩ := Nat.exists_eq_add_of_le h
  rw [List.range_add, List.filter_append, List.filter_eq_self.mpr, List.filter_eq_nil_iff.mpr,
    List.append_nil]
  · intro j hj
    obtain ⟨i, -, rfl⟩ := List.mem_map.mp hj
    simp
  · intro j hj
    exact decide_eq_true (List.mem_range.mp hj)

/-- The last readings of what is before the next position are in order. -/
theorem Reads.lasts {positions : List Nat} {n : Nat} (h : Reads positions n) :
    (once (fun _ => true) positions).filter (· < n) = List.range n := by
  induction h with
  | start => rfl
  | @next positions n _ ih =>
      have hself : [n].filter (· < n + 1) = [n] := by simp
      have hothers : ((once (fun _ => true) positions).filter (· ≠ n)).filter (· < n + 1) =
          (once (fun _ => true) positions).filter (· < n) := by
        rw [List.filter_filter]
        refine List.filter_congr fun m _ => ?_
        rw [Bool.eq_iff_iff, Bool.and_eq_true, decide_eq_true_eq, decide_eq_true_eq,
          decide_eq_true_eq]
        omega
      rw [once_concat, keep_of_late rfl, List.filter_append, hself, hothers, ih,
        List.range_succ]
  | @back positions n m _ hle ih =>
      rw [← filter_range_lt hle, ← ih, List.filter_filter]
      refine List.filter_congr fun k _ => ?_
      rw [Bool.eq_iff_iff, Bool.and_eq_true, decide_eq_true_eq, decide_eq_true_eq]
      omega

/-- The first readings are in order. -/
theorem Reads.firsts {positions : List Nat} {n : Nat} (h : Reads positions n) :
    ∃ top, n ≤ top ∧ once (fun _ => false) positions = List.range top := by
  induction h with
  | start => exact ⟨0, le_rfl, rfl⟩
  | @next positions n _ ih =>
      obtain ⟨top, hle, hfirsts⟩ := ih
      rw [once_concat]
      rcases Nat.lt_or_eq_of_le hle with hlt | rfl
      · have hmem : n ∈ once (fun _ => false) positions := by
          rw [hfirsts]
          exact List.mem_range.mpr hlt
        exact ⟨top, hlt, (keep_of_mem rfl hmem).trans hfirsts⟩
      · have hmem : n ∉ once (fun _ => false) positions := by
          rw [hfirsts]
          exact fun h => absurd (List.mem_range.mp h) (Nat.lt_irrefl n)
        exact ⟨n + 1, le_rfl, by rw [keep_of_not_mem rfl hmem, hfirsts, List.range_succ]⟩
  | back _ hle ih =>
      obtain ⟨top, hle', hfirsts⟩ := ih
      exact ⟨top, hle.trans hle', hfirsts⟩

/-- Once a reader has caught up, the first readings are the log in order, and so are the
last ones. -/
theorem Reads.once_eq {positions : List Nat} {n : Nat} (h : Reads positions n)
    (hend : ∀ m ∈ positions, m < n) (kind : Bool) :
    once (fun _ => kind) positions = List.range n := by
  cases kind with
  | true =>
      rw [← h.lasts, List.filter_eq_self.mpr]
      intro m hm
      exact decide_eq_true (hend m (mem_once.mp hm))
  | false =>
      obtain ⟨top, hle, hfirsts⟩ := h.firsts
      rcases Nat.lt_or_eq_of_le hle with hlt | rfl
      · have hmem : n ∈ positions := by
          rw [← @mem_once _ _ (fun _ => false), hfirsts]
          exact List.mem_range.mpr hlt
        exact absurd (hend n hmem) (Nat.lt_irrefl n)
      · exact hfirsts

/-- The elements at all positions, in order. -/
theorem filterMap_range (log : List β) :
    (List.range log.length).filterMap (fun position => log[position]?) = log := by
  induction log using List.reverseRecOn with
  | nil => rfl
  | append_singleton front x ih =>
      have hfront : (List.range front.length).filterMap (fun position => (front ++ [x])[position]?) =
          (List.range front.length).filterMap fun position => front[position]? :=
        List.filterMap_congr fun position hposition =>
          List.getElem?_append_left (List.mem_range.mp hposition)
      have hlast : [front.length].filterMap (fun position => (front ++ [x])[position]?) = [x] := by
        simp
      rw [List.length_append, List.length_singleton, List.range_succ, List.filterMap_append, hfront,
        ih, hlast]

/-! ## What readings settle -/

/-- What the first answer settles, if only first readings are kept of what answers. -/
theorem findSome?_once {answer : α → Option β}
    (h : ∀ x ∈ readings, answer x ≠ none → late x = false) :
    (once late readings).findSome? answer = readings.findSome? answer := by
  induction readings using List.reverseRecOn with
  | nil => rfl
  | append_singleton front x ih =>
      have ih := ih fun y hy => h y (List.mem_append_left _ hy)
      have hx := h x (List.mem_append_right _ (List.mem_singleton.mpr rfl))
      rw [List.findSome?_append, ← ih]
      rcases once_cases late front x with ⟨hlate, h⟩ | ⟨-, hmem, h⟩ | ⟨-, -, h⟩
      · have hnone : answer x = none := by
          by_contra hsome
          rw [hx hsome] at hlate
          cases hlate
        have hothers : ∀ kept : List α,
            (kept.filter (· ≠ x)).findSome? answer = kept.findSome? answer := by
          intro kept
          induction kept with
          | nil => rfl
          | cons y rest ihRest =>
              by_cases hy : y = x
              · rw [List.filter_cons_of_neg (by simpa using hy), ihRest, List.findSome?_cons, hy,
                  hnone]
              · rw [List.filter_cons_of_pos (by simpa using hy), List.findSome?_cons, ihRest,
                  List.findSome?_cons]
        rw [h, List.findSome?_append, hothers]
      · rw [h]
        cases hfound : (once late front).findSome? answer with
        | some found => rfl
        | none =>
            have hnone := List.findSome?_eq_none_iff.mp hfound x hmem
            rw [Option.none_or, List.findSome?_cons, hnone, List.findSome?_nil]
      · rw [h, List.findSome?_append]

/-- Whether there is an answer does not depend on which readings are kept. -/
theorem isSome_findSome?_once (answer : α → Option β) :
    ((once late readings).findSome? answer).isSome = (readings.findSome? answer).isSome := by
  rw [Bool.eq_iff_iff, List.findSome?_isSome_iff, List.findSome?_isSome_iff]
  exact exists_congr fun x => and_congr_left fun _ => mem_once

/-- What the last answer settles, if only last readings are kept of what answers. -/
theorem getLast?_once {answer : α → Option β}
    (h : ∀ x ∈ readings, answer x ≠ none → late x = true) :
    ((once late readings).filterMap answer).getLast? = (readings.filterMap answer).getLast? := by
  induction readings using List.reverseRecOn with
  | nil => rfl
  | append_singleton front x ih =>
      have ih := ih fun y hy => h y (List.mem_append_left _ hy)
      have hx := h x (List.mem_append_right _ (List.mem_singleton.mpr rfl))
      cases hanswer : answer x with
      | some found =>
          have hself : [x].filterMap answer = [found] := by simp [hanswer]
          rw [once_concat, keep_of_late (hx (by rw [hanswer]; exact Option.some_ne_none found)),
            List.filterMap_append, List.filterMap_append, hself, List.getLast?_concat,
            List.getLast?_concat]
      | none =>
          have hself : [x].filterMap answer = [] := by simp [hanswer]
          have hothers : ∀ kept : List α,
              (kept.filter (· ≠ x)).filterMap answer = kept.filterMap answer := by
            intro kept
            rw [List.filterMap_filter]
            refine List.filterMap_congr fun y _ => ?_
            by_cases hy : y = x
            · simp [hy, hanswer]
            · simp [hy]
          rw [List.filterMap_append, hself, List.append_nil, ← ih]
          rcases once_cases late front x with ⟨-, h⟩ | ⟨-, -, h⟩ | ⟨-, -, h⟩
          · rw [h, List.filterMap_append, hself, List.append_nil, hothers]
          · rw [h]
          · rw [h, List.filterMap_append, hself, List.append_nil]

/-! ## What comes after the first answer -/

omit [DecidableEq α] in
theorem mem_dropWhile_concat {q : α → Bool} (hy : q y = true) :
    y ∈ (readings ++ [x]).dropWhile q ↔
      y ∈ readings.dropWhile q ∨ x = y ∧ ∃ z ∈ readings, q z = false := by
  rw [List.dropWhile_append]
  cases hempty : (readings.dropWhile q).isEmpty with
  | true =>
      have hall := List.dropWhile_eq_nil_iff.mp (List.isEmpty_iff.mp hempty)
      rw [if_pos rfl, List.isEmpty_iff.mp hempty]
      constructor
      · intro hmem
        have hyx : y = x := List.mem_singleton.mp ((List.dropWhile_sublist q).subset hmem)
        rw [← hyx, List.dropWhile_cons_of_pos hy] at hmem
        cases hmem
      · rintro (hnil | ⟨-, z, hz, hq⟩)
        · cases hnil
        · rw [hall z hz] at hq
          cases hq
  | false =>
      rw [if_neg Bool.false_ne_true, List.mem_append, List.mem_singleton, eq_comm (a := y)]
      refine or_congr_right (and_iff_left ?_).symm
      by_contra hnone
      push Not at hnone
      have hnil := List.dropWhile_eq_nil_iff.mpr fun z hz => by simpa using hnone z hz
      rw [hnil] at hempty
      cases hempty

theorem mem_dropWhile_filter {q : α → Bool} (hx : q x = true) :
    y ∈ (kept.filter (· ≠ x)).dropWhile q ↔ y ∈ kept.dropWhile q ∧ y ≠ x := by
  induction kept with
  | nil => simp
  | cons z rest ih =>
      by_cases hz : z = x
      · rw [List.filter_cons_of_neg (by simpa using hz), ih, hz, List.dropWhile_cons_of_pos hx]
      · rw [List.filter_cons_of_pos (by simpa using hz)]
        cases hq : q z with
        | true => rw [List.dropWhile_cons_of_pos hq, List.dropWhile_cons_of_pos hq, ih]
        | false =>
            rw [List.dropWhile_cons_of_neg (by simpa using hq),
              List.dropWhile_cons_of_neg (by simpa using hq), List.mem_cons, List.mem_filter,
              List.mem_cons]
            by_cases hy : y = z
            · simp [hy, hz]
            · simp [hy]

/-- A late element is read again after the first of some that are not late exactly when
its last reading is after their first one. -/
theorem mem_dropWhile_once {q : α → Bool} (h : ∀ z ∈ readings, q z = false → late z = false)
    (hy : q y = true) (hlate : late y = true) :
    y ∈ (once late readings).dropWhile q ↔ y ∈ readings.dropWhile q := by
  induction readings using List.reverseRecOn with
  | nil => rfl
  | append_singleton front x ih =>
      have ih := ih fun z hz => h z (List.mem_append_left _ hz)
      have hfirst : (∃ z ∈ once late front, q z = false) ↔ ∃ z ∈ front, q z = false :=
        exists_congr fun z => and_congr_left fun _ => mem_once
      rw [mem_dropWhile_concat hy]
      rcases once_cases late front x with ⟨hx, heq⟩ | ⟨hx, -, heq⟩ | ⟨hx, -, heq⟩
      · have hqx : q x = true := by
          by_contra hq
          have := h x (List.mem_append_right _ (List.mem_singleton.mpr rfl)) (by simpa using hq)
          rw [hx] at this
          cases this
        have hothers : (∃ z ∈ (once late front).filter (· ≠ x), q z = false) ↔
            ∃ z ∈ front, q z = false := by
          rw [← hfirst]
          refine exists_congr fun z => and_congr_left fun hz => ?_
          rw [List.mem_filter, and_iff_left]
          refine decide_eq_true fun hzx => ?_
          rw [hzx, hqx] at hz
          cases hz
        rw [heq, mem_dropWhile_concat hy, mem_dropWhile_filter hqx, hothers, ih]
        by_cases hyx : x = y
        · subst hyx
          simp only [ne_eq, not_true_eq_false, and_false, true_and, false_or]
          refine (or_iff_right_of_imp fun hmem => ?_).symm
          by_contra hnone
          push Not at hnone
          rw [List.dropWhile_eq_nil_iff.mpr fun z hz => by simpa using hnone z hz] at hmem
          cases hmem
        · rw [and_iff_left (Ne.symm hyx)]
      · have hne : x ≠ y := by
          rintro rfl
          rw [hx] at hlate
          cases hlate
        rw [heq, ih]
        simp [hne]
      · have hne : x ≠ y := by
          rintro rfl
          rw [hx] at hlate
          cases hlate
        rw [heq, mem_dropWhile_concat hy, ih]
        simp [hne]

end Redelivery
