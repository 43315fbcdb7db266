import Mathlib.Data.List.Basic

/-! # Slash-separated paths

Cleaning a path reads its parts from left to right onto a stack: empty parts and single
dots leave the stack alone, two dots take back the name before them. The alphabet is any
type with a slash and a dot, so that bytes and characters share one theory. A clean
absolute path stands for a list of names.
-/

namespace SlashPath

class Alphabet (α : Type) where
  slash : α
  dot : α
  dot_ne_slash : dot ≠ slash

open Alphabet

instance : Alphabet UInt8 := ⟨47, 46, by decide⟩

instance : Alphabet Char := ⟨'/', '.', by decide⟩

variable {α : Type} [DecidableEq α] [Alphabet α]

/-- The part that names the directory above. -/
def parent : List α := [dot, dot]

def isAbs (path : List α) : Bool := path.head? = some slash

def join (parts : List (List α)) : List α := [slash].intercalate parts

/-- One part of a path, on the parts before it, the last one first. -/
def push (rooted : Bool) (stack : List (List α)) (part : List α) : List (List α) :=
  if part = [] ∨ part = [dot] then stack
  else if part = parent then
    match stack with
    | [] => if rooted then [] else [parent]
    | top :: below => if top = parent then parent :: stack else below
  else part :: stack

/-- What is left of the parts of a path, the last one first. -/
def stackOf (path : List α) : List (List α) := (path.splitOn slash).foldl (push (isAbs path)) []

/-- The path of the given parts. -/
def text (rooted : Bool) (parts : List (List α)) : List α :=
  if rooted then slash :: join parts else if parts = [] then [dot] else join parts

/-- The shortest path that names the same. -/
def clean (path : List α) : List α := text (isAbs path) (stackOf path).reverse

/-- Two paths one after the other; an empty one is left out. -/
def joined (first second : List α) : List α :=
  if first = [] then (if second = [] then [] else clean second)
  else clean (first ++ slash :: second)

/-- The last part of a path. -/
def base (path : List α) : List α :=
  if path = [] then [dot]
  else
    let last := ((path.reverse.dropWhile (· = slash)).takeWhile (· ≠ slash)).reverse
    if last = [] then [slash] else last

/-- All of a path but its last part. -/
def dir (path : List α) : List α := clean (path.reverse.dropWhile (· ≠ slash)).reverse

example : clean "/a//b/./../c/".toList = "/a/c".toList := by decide +kernel
example : clean "a/../../b".toList = "../b".toList := by decide +kernel

/-! ## Parts -/

omit [DecidableEq α] in
theorem join_append {parts others : List (List α)} (hparts : parts ≠ []) (hothers : others ≠ []) :
    join (parts ++ others) = join parts ++ slash :: join others := by
  induction parts with
  | nil => exact absurd rfl hparts
  | cons part rest ih =>
      rw [join, List.cons_append, List.intercalate_cons_of_ne_nil (by simp [hothers])]
      cases rest with
      | nil => simp [join]
      | cons next rest =>
          rw [join, List.intercalate_cons_of_ne_nil (by simp), ← join, ← join,
            ih (by simp)]
          simp

theorem slash_not_mem_of_mem_splitOn {path part : List α} (h : part ∈ path.splitOn slash) :
    slash ∉ part := by
  induction path generalizing part with
  | nil =>
      rw [List.splitOn_nil, List.mem_singleton] at h
      simp [h]
  | cons c path ih =>
      rw [List.splitOn_cons_eq_if_modifyHead] at h
      split at h
      next =>
        rcases List.mem_cons.mp h with rfl | h
        · exact List.not_mem_nil
        · exact ih h
      next hc =>
        obtain ⟨first, rest, hsplit⟩ := List.exists_cons_of_ne_nil (List.splitOn_ne_nil slash path)
        rw [hsplit, List.modifyHead_cons] at h
        rcases List.mem_cons.mp h with rfl | h
        · intro hmem
          rcases List.mem_cons.mp hmem with rfl | hmem
          · simp at hc
          · exact ih (hsplit ▸ List.mem_cons_self) hmem
        · exact ih (hsplit ▸ List.mem_cons_of_mem _ h)

omit [DecidableEq α] in
theorem infix_join {part : List α} {parts : List (List α)} (h : part ∈ parts) :
    part <:+: join parts := by
  induction parts with
  | nil => cases h
  | cons first rest ih =>
      by_cases hrest : rest = []
      · rw [hrest, List.mem_singleton] at h
        simp [h, hrest, join]
      · rw [join, List.intercalate_cons_of_ne_nil hrest, ← join, List.append_assoc]
        rcases List.mem_cons.mp h with rfl | h
        · exact (List.prefix_append _ _).isInfix
        · exact (ih h).trans (List.suffix_append_of_suffix (List.suffix_append _ _)).isInfix

/-- Parts of a path are pieces of it. -/
theorem infix_of_mem_splitOn {path part : List α} (h : part ∈ path.splitOn slash) :
    part <:+: path := by
  have hinfix := infix_join h
  rwa [join, List.intercalate_splitOn] at hinfix

/-! ## Stacks

Each part of a stack was pushed onto the parts below it, so that reading the parts of a
clean path again gives the same stack. -/

def Settled (rooted : Bool) : List (List α) → Prop
  | [] => True
  | part :: below => slash ∉ part ∧ push rooted below part = part :: below ∧ Settled rooted below

variable {rooted : Bool} {stack : List (List α)}

theorem push_skipped {part : List α} (h : part = [] ∨ part = [dot]) :
    push rooted stack part = stack := by
  unfold push
  exact if_pos h

theorem push_name {part : List α} (hkept : ¬ (part = [] ∨ part = [dot])) (hparent : part ≠ parent) :
    push rooted stack part = part :: stack := by
  unfold push
  rw [if_neg hkept, if_neg hparent]

theorem push_settled (h : Settled rooted stack) {part : List α} (hpart : slash ∉ part) :
    Settled rooted (push rooted stack part) := by
  by_cases hskip : part = [] ∨ part = [dot]
  · rw [push_skipped hskip]
    exact h
  by_cases hparent : part = parent
  · subst hparent
    cases stack with
    | nil =>
        cases rooted with
        | true => simp [push, hskip, Settled]
        | false => simp [push, hskip, Settled, hpart]
    | cons top below =>
        by_cases htop : top = parent
        · subst htop
          have hpush : push rooted (parent :: below) (parent : List α) =
              parent :: parent :: below := by
            simp [push, hskip]
          rw [hpush]
          exact ⟨hpart, hpush, h⟩
        · have hpush : push rooted (top :: below) parent = below := by
            simp [push, hskip, htop]
          rw [hpush]
          exact h.2.2
  · have hpush : push rooted stack part = part :: stack := push_name hskip hparent
    rw [hpush]
    exact ⟨hpart, hpush, h⟩

theorem foldl_push_settled {parts : List (List α)} (hparts : ∀ part ∈ parts, slash ∉ part)
    (h : Settled rooted stack) : Settled rooted (parts.foldl (push rooted) stack) := by
  induction parts generalizing stack with
  | nil => exact h
  | cons part rest ih =>
      rw [List.forall_mem_cons] at hparts
      exact ih hparts.2 (push_settled h hparts.1)

theorem stackOf_settled (path : List α) : Settled (isAbs path) (stackOf path) :=
  foldl_push_settled (fun _ => slash_not_mem_of_mem_splitOn) trivial

namespace Settled

theorem no_slash (h : Settled rooted stack) : ∀ part ∈ stack, slash ∉ part := by
  induction stack with
  | nil => simp
  | cons part below ih => exact List.forall_mem_cons.mpr ⟨h.1, ih h.2.2⟩

theorem kept (h : Settled rooted stack) : ∀ part ∈ stack, part ≠ [] ∧ part ≠ [dot] := by
  induction stack with
  | nil => simp
  | cons part below ih =>
      refine List.forall_mem_cons.mpr ⟨?_, ih h.2.2⟩
      rw [← not_or]
      intro hskip
      have hpush := h.2.1
      rw [push_skipped hskip] at hpush
      simp at hpush

/-- Reading the parts of a settled stack again gives the stack. -/
theorem foldl_reverse (h : Settled rooted stack) :
    stack.reverse.foldl (push rooted) [] = stack := by
  induction stack with
  | nil => rfl
  | cons part below ih =>
      rw [List.reverse_cons, List.foldl_append, ih h.2.2]
      exact h.2.1

end Settled

omit [DecidableEq α] in
theorem join_ne_nil {parts : List (List α)} (hne : parts ≠ [])
    (hparts : ∀ part ∈ parts, part ≠ []) : join parts ≠ [] := by
  obtain ⟨first, rest, rfl⟩ := List.exists_cons_of_ne_nil hne
  intro hjoin
  have hinfix : first <:+: join (first :: rest) := infix_join List.mem_cons_self
  rw [hjoin, List.infix_nil] at hinfix
  exact hparts first List.mem_cons_self hinfix

theorem not_isAbs_join {parts : List (List α)} (hparts : ∀ part ∈ parts, part ≠ [] ∧ slash ∉ part) :
    isAbs (join parts) = false := by
  cases parts with
  | nil => rfl
  | cons first rest =>
      obtain ⟨⟨hne, hslash⟩, -⟩ := List.forall_mem_cons.mp hparts
      obtain ⟨c, first, rfl⟩ := List.exists_cons_of_ne_nil hne
      have hc : c ≠ slash := fun heq => hslash (heq ▸ List.mem_cons_self)
      cases rest <;> simp [isAbs, join, hc]

/-- The path of a settled stack has this stack. -/
theorem stackOf_text (h : Settled rooted stack) :
    isAbs (text rooted stack.reverse) = rooted ∧ stackOf (text rooted stack.reverse) = stack := by
  have hparts : ∀ part ∈ stack.reverse, part ≠ [] ∧ slash ∉ part := fun part hpart =>
    ⟨(h.kept part (List.mem_reverse.mp hpart)).1, h.no_slash part (List.mem_reverse.mp hpart)⟩
  by_cases hnil : stack = []
  · subst hnil
    cases rooted with
    | true => simp [text, join, isAbs, stackOf, List.splitOn_cons_eq_if_modifyHead, push]
    | false =>
        have hdot : (dot : α) ≠ slash := dot_ne_slash
        simp [text, isAbs, stackOf, List.splitOn_cons_eq_if_modifyHead, push, hdot]
  · have hsplit : (join stack.reverse).splitOn slash = stack.reverse :=
      List.splitOn_intercalate slash (fun part hpart => (hparts part hpart).2) (by simpa using hnil)
    cases rooted with
    | true =>
        rw [text, if_pos rfl]
        refine ⟨by simp [isAbs], ?_⟩
        rw [stackOf, List.splitOn_cons_eq_if_modifyHead, if_pos (by simp), List.foldl_cons, hsplit]
        simpa [push, isAbs] using h.foldl_reverse
    | false =>
        have habs := not_isAbs_join hparts
        rw [text, if_neg Bool.false_ne_true, if_neg (by simpa using hnil)]
        refine ⟨habs, ?_⟩
        rw [stackOf, habs, hsplit]
        exact h.foldl_reverse

/-- A clean path is its own shortest form. -/
theorem clean_clean (path : List α) : clean (clean path) = clean path := by
  have hclean : isAbs (clean path) = isAbs path ∧ stackOf (clean path) = stackOf path :=
    stackOf_text (stackOf_settled path)
  rw [clean, hclean.1, hclean.2, clean]

/-- A slash between two texts makes two paths. -/
theorem stackOf_append_slash {first : List α} (hne : first ≠ []) (second : List α) :
    isAbs (first ++ slash :: second) = isAbs first ∧
      stackOf (first ++ slash :: second) =
        (second.splitOn slash).foldl (push (isAbs first)) (stackOf first) := by
  have habs : isAbs (first ++ slash :: second) = isAbs first := by
    obtain ⟨c, first, rfl⟩ := List.exists_cons_of_ne_nil hne
    rfl
  refine ⟨habs, ?_⟩
  rw [stackOf, habs, List.splitOn_append_cons_self, List.foldl_append, ← stackOf]

/-! ## Names -/

/-- A part that names something in the directory it stands in. -/
structure Name (part : List α) : Prop where
  kept : ¬ (part = [] ∨ part = [dot])
  ne_parent : part ≠ parent
  no_slash : slash ∉ part

theorem foldl_push_names {names : List (List α)} (h : ∀ name ∈ names, Name name) :
    names.foldl (push rooted) stack = names.reverse ++ stack := by
  induction names generalizing stack with
  | nil => rfl
  | cons name rest ih =>
      rw [List.forall_mem_cons] at h
      rw [List.foldl_cons, push_name h.1.kept h.1.ne_parent, ih h.2]
      simp

/-- Without a parent segment no part is taken back. -/
theorem mem_foldl_push {parts : List (List α)} (hparts : parent ∉ parts) {name : List α}
    (hname : Name name) (h : name ∈ parts ∨ name ∈ stack) :
    name ∈ parts.foldl (push rooted) stack := by
  induction parts generalizing stack with
  | nil => exact h.resolve_left List.not_mem_nil
  | cons part rest ih =>
      obtain ⟨hpart, hrest⟩ := not_or.mp (mt List.mem_cons.mpr hparts)
      apply ih hrest
      by_cases hskip : part = [] ∨ part = [dot]
      · rw [push_skipped hskip]
        refine h.imp_left fun h => (List.mem_cons.mp h).resolve_left ?_
        rintro rfl
        exact hname.kept hskip
      · rw [push_name hskip (Ne.symm hpart)]
        rcases h with h | h
        · rcases List.mem_cons.mp h with rfl | h
          · exact Or.inr List.mem_cons_self
          · exact Or.inl h
        · exact Or.inr (List.mem_cons_of_mem _ h)

/-- Nothing is above the root: what is left of an absolute path are names. -/
theorem Settled.names (h : Settled true stack) : ∀ part ∈ stack, Name part := by
  induction stack with
  | nil => simp
  | cons part below ih =>
      have hbelow := ih h.2.2
      refine List.forall_mem_cons.mpr ⟨⟨?_, ?_, h.1⟩, hbelow⟩
      · rw [not_or]
        exact h.kept part List.mem_cons_self
      · rintro rfl
        have hkept : ¬ ((parent : List α) = [] ∨ (parent : List α) = [dot]) := by simp [parent]
        have hpush := h.2.1
        cases below with
        | nil => simp [push, hkept] at hpush
        | cons top below =>
            have htop := (hbelow top List.mem_cons_self).ne_parent
            simp only [push, if_neg hkept, if_true, if_neg htop] at hpush
            have hlength := congrArg List.length hpush
            simp at hlength
            omega

/-- The absolute path of a list of names. -/
def absolute (names : List (List α)) : List α := slash :: join names

section Absolute

variable {first second names : List (List α)}

theorem foldl_splitOn_absolute (h : ∀ name ∈ names, Name name) :
    ((absolute names).splitOn slash).foldl (push rooted) stack = names.reverse ++ stack := by
  have hcons : (absolute names).splitOn slash = [] :: (join names).splitOn slash := by
    simp [absolute, List.splitOn_cons_eq_if_modifyHead]
  rw [hcons, List.foldl_cons, push_skipped (Or.inl rfl)]
  by_cases hnil : names = []
  · subst hnil
    simp [join, push_skipped]
  · have hsplit : (join names).splitOn slash = names :=
      List.splitOn_intercalate slash (fun name hname => (h name hname).no_slash) hnil
    rw [hsplit, foldl_push_names h]

theorem stackOf_absolute (h : ∀ name ∈ names, Name name) :
    stackOf (absolute names) = names.reverse := by
  rw [stackOf, foldl_splitOn_absolute h, List.append_nil]

theorem clean_absolute (h : ∀ name ∈ names, Name name) :
    clean (absolute names) = absolute names := by
  rw [clean, stackOf_absolute h, List.reverse_reverse]
  simp [absolute, isAbs, text]

/-- An absolute path comes down to names. -/
theorem exists_names {path : List α} (h : isAbs path = true) :
    ∃ names, (∀ name ∈ names, Name name) ∧ clean path = absolute names := by
  have hsettled := stackOf_settled path
  rw [h] at hsettled
  refine ⟨(stackOf path).reverse, fun name hname => ?_, ?_⟩
  · exact hsettled.names name (List.mem_reverse.mp hname)
  · simp [clean, h, text, absolute]

theorem absolute_injective (hfirst : ∀ name ∈ first, Name name)
    (hsecond : ∀ name ∈ second, Name name) (h : absolute first = absolute second) :
    first = second := by
  have hstack := congrArg stackOf h
  rw [stackOf_absolute hfirst, stackOf_absolute hsecond] at hstack
  exact List.reverse_injective hstack

omit [DecidableEq α] in
theorem absolute_append (hfirst : first ≠ []) (hsecond : second ≠ []) :
    absolute (first ++ second) = absolute first ++ slash :: join second := by
  simp [absolute, join_append hfirst hsecond]

theorem joined_absolute (hfirst : ∀ name ∈ first, Name name)
    (hsecond : ∀ name ∈ second, Name name) :
    joined (absolute first) (absolute second) = absolute (first ++ second) := by
  have hne : absolute first ≠ [] := by simp [absolute]
  obtain ⟨habs, hstack⟩ := stackOf_append_slash hne (absolute second)
  rw [joined, if_neg hne, clean, habs, hstack, foldl_splitOn_absolute hsecond,
    stackOf_absolute hfirst]
  simp [absolute, isAbs, text]

/-- The path stands strictly below the directory. -/
def Under (directory path : List α) : Prop := ∃ rest, rest ≠ [] ∧ path = directory ++ slash :: rest

/-- The names after a directory stand behind a slash, except in the root. -/
theorem absolute_prefix_iff (hsecond : ∀ name ∈ second, Name name) :
    absolute first ++ [slash] <+: absolute (first ++ second) ↔ first ≠ [] ∧ second ≠ [] := by
  constructor
  · intro hprefix
    constructor
    · rintro rfl
      rw [List.nil_append, absolute, absolute, List.cons_append, List.cons_prefix_cons] at hprefix
      obtain ⟨rest, hrest⟩ := hprefix.2
      have habs := not_isAbs_join fun name hname =>
        ⟨fun hnil => (hsecond name hname).kept (Or.inl hnil), (hsecond name hname).no_slash⟩
      rw [← hrest] at habs
      simp [join, isAbs] at habs
    · rintro rfl
      have hlength := hprefix.length_le
      rw [List.append_nil, List.length_append, List.length_singleton] at hlength
      omega
  · rintro ⟨hfirst, hsecond⟩
    rw [absolute_append hfirst hsecond]
    exact ⟨join second, by simp⟩

end Absolute

/-! ## The last part -/

section Last

variable {front name : List α}

/-- A name behind a slash is the last part. -/
theorem base_append (hname : Name name) (hfront : ∀ c ∈ front.getLast?, c = slash) :
    base (front ++ name) = name := by
  obtain ⟨hne, -⟩ := not_or.mp hname.kept
  have hplain : ∀ c ∈ name.reverse, decide (c ≠ slash) = true := fun c hc =>
    decide_eq_true fun heq => hname.no_slash (heq ▸ List.mem_reverse.mp hc)
  have hlast : (front.reverse).takeWhile (fun c => decide (c ≠ slash)) = [] := by
    rw [← List.head?_reverse] at hfront
    cases hrev : front.reverse with
    | nil => rfl
    | cons c rest => simp [hfront c (by rw [hrev]; rfl)]
  have hdrop : (front ++ name).reverse.dropWhile (fun c => decide (c = slash)) =
      name.reverse ++ front.reverse := by
    obtain ⟨c, rest, hrev⟩ := List.exists_cons_of_ne_nil (List.reverse_ne_nil_iff.mpr hne)
    have hc := of_decide_eq_true (hplain c (by simp [hrev]))
    rw [List.reverse_append, hrev, List.cons_append, List.dropWhile_cons_of_neg (by simpa using hc)]
  rw [base, if_neg (by simp [hne])]
  simp only [hdrop, List.takeWhile_append_of_pos hplain, hlast, List.append_nil,
    List.reverse_reverse, if_neg hne]

theorem dir_append (hname : Name name) (hfront : ∀ c ∈ front.getLast?, c = slash) :
    dir (front ++ name) = clean front := by
  have hplain : ∀ c ∈ name.reverse, decide (c ≠ slash) = true := fun c hc =>
    decide_eq_true fun heq => hname.no_slash (heq ▸ List.mem_reverse.mp hc)
  have hlast : (front.reverse).dropWhile (fun c => decide (c ≠ slash)) = front.reverse := by
    rw [← List.head?_reverse] at hfront
    cases hrev : front.reverse with
    | nil => rfl
    | cons c rest => simp [hfront c (by rw [hrev]; rfl)]
  rw [dir, List.reverse_append, List.dropWhile_append_of_pos hplain, hlast, List.reverse_reverse]

theorem base_name (hname : Name name) : base name = name := by
  simpa using @base_append _ _ _ [] name hname (by simp)

/-- A slash at the end changes nothing. -/
theorem clean_append_slash (hne : front ≠ []) : clean (front ++ [slash]) = clean front := by
  obtain ⟨habs, hstack⟩ := stackOf_append_slash hne []
  rw [clean, habs, hstack, List.splitOn_nil, List.foldl_cons, push_skipped (Or.inl rfl)]
  rfl

/-- A name is added behind the parts of a directory. -/
theorem joined_name (hname : Name name) (first : List α) :
    joined first name = text (isAbs first) ((stackOf first).reverse ++ [name]) := by
  obtain ⟨hne, -⟩ := not_or.mp hname.kept
  have hsplit : name.splitOn slash = [name] := List.splitOn_eq_singleton hname.no_slash
  by_cases hfirst : first = []
  · subst hfirst
    have habs : isAbs name = false := by
      have hjoin : isAbs (join [name]) = false :=
        not_isAbs_join (by simp [hne, hname.no_slash])
      simpa [join] using hjoin
    rw [joined, if_pos rfl, if_neg hne, clean, habs, stackOf, habs, hsplit, List.foldl_cons,
      push_name hname.kept hname.ne_parent]
    rfl
  · obtain ⟨habs, hstack⟩ := stackOf_append_slash hfirst name
    rw [joined, if_neg hfirst, clean, habs, hstack, hsplit, List.foldl_cons,
      push_name hname.kept hname.ne_parent, List.foldl_nil, List.reverse_cons]

/-- What a name joins stands in the directory itself. -/
theorem base_joined_name (hname : Name name) (first : List α) :
    base (joined first name) = name ∧ dir (joined first name) = clean first := by
  have hbehind : ∃ front, joined first name = front ++ name ∧
      (∀ c ∈ front.getLast?, c = slash) ∧ clean front = clean first := by
    have hself : clean (text (isAbs first) (stackOf first).reverse) = clean first :=
      clean_clean first
    rw [joined_name hname]
    by_cases hnil : stackOf first = []
    · rw [hnil] at hself ⊢
      cases habs : isAbs first with
      | true =>
          rw [habs] at hself
          exact ⟨[slash], by simp [text, join], by simp, by simpa [text, join] using hself⟩
      | false =>
          rw [habs] at hself
          refine ⟨[], by simp [text, join], by simp, ?_⟩
          rw [← hself]
          simp [text, clean, isAbs, stackOf, List.splitOn_cons_eq_if_modifyHead, push, dot_ne_slash]
    · have hparts : (stackOf first).reverse ≠ [] := by simpa using hnil
      refine ⟨text (isAbs first) (stackOf first).reverse ++ [slash], ?_, by simp, ?_⟩
      · have hlast : join ((stackOf first).reverse ++ [name]) =
            join (stackOf first).reverse ++ slash :: name := by
          rw [join_append hparts (by simp)]
          simp [join]
        cases isAbs first <;> simp [text, hnil, hlast]
      · rw [clean_append_slash, hself]
        have hne := join_ne_nil hparts fun part hpart =>
          ((stackOf_settled first).kept part (List.mem_reverse.mp hpart)).1
        cases isAbs first <;> simp [text, hnil, hne]
  obtain ⟨front, hjoined, hfront, hclean⟩ := hbehind
  rw [hjoined]
  exact ⟨base_append hname hfront, (dir_append hname hfront).trans hclean⟩

end Last

end SlashPath
