import Harbormaster.Foundation.Matching
import Mathlib.Data.List.Basic

/-! # Reasoning about matchers

Two judgements about a matcher at the start of a text: what holds of every way
to read on, and which way is preferred. Each follows the structure of the matcher.
-/

namespace Matching.Matcher

variable {α β : Type} {matcher : Matcher α} {text rest : List Char}

/-- However the matcher reads on, its result and the text it leaves meet the condition. -/
def Leaves (matcher : Matcher α) (text : List Char) (post : α → List Char → Prop) : Prop :=
  ∀ before, ∀ reading ∈ matcher ⟨before, text⟩, post reading.1 reading.2.rest

/-- The matcher cannot read on. -/
def Refuses (matcher : Matcher α) (text : List Char) : Prop :=
  matcher.Leaves text fun _ _ => False

/-- The preferred way to read on. -/
def Prefers (matcher : Matcher α) (text : List Char) (result : α) (rest : List Char) : Prop :=
  ∀ before, ∃ before' others, matcher ⟨before, text⟩ = (result, ⟨before', rest⟩) :: others

/-! ## Every reading -/

theorem Leaves.mono {mid post : α → List Char → Prop} (h : matcher.Leaves text mid)
    (hpost : ∀ result rest, mid result rest → post result rest) : matcher.Leaves text post :=
  fun before reading hreading => hpost _ _ (h before reading hreading)

theorem Refuses.leaves (h : matcher.Refuses text) (post : α → List Char → Prop) :
    matcher.Leaves text post :=
  h.mono fun _ _ => False.elim

theorem Refuses.eq_nil (h : matcher.Refuses text) (before : List Char) :
    matcher ⟨before, text⟩ = [] :=
  List.eq_nil_iff_forall_not_mem.mpr fun reading hreading => h before reading hreading

theorem leaves_pure {post : α → List Char → Prop} {result : α} (h : post result text) :
    (pure result : Matcher α).Leaves text post := by
  intro before reading hreading
  rw [List.mem_singleton.mp hreading]
  exact h

theorem Leaves.bind {mid : α → List Char → Prop} {post : β → List Char → Prop}
    {next : α → Matcher β} (h : matcher.Leaves text mid)
    (hnext : ∀ result rest, mid result rest → (next result).Leaves rest post) :
    (matcher >>= next).Leaves text post := by
  intro before reading hreading
  obtain ⟨⟨result, after⟩, hfirst, hreading⟩ := List.mem_flatMap.mp hreading
  exact hnext result after.rest (h before _ hfirst) after.before reading hreading

/-- What follows a matcher that cannot read on does not matter. -/
theorem Refuses.bind (h : matcher.Refuses text) (next : α → Matcher β) :
    (matcher >>= next).Refuses text :=
  Leaves.bind h fun _ _ => False.elim

theorem refuses_char_nil (read : Char → Option α) : (char read).Refuses [] := by
  intro before reading hreading
  cases hreading

theorem leaves_char {read : Char → Option α} {post : α → List Char → Prop} {c : Char}
    (h : ∀ result, read c = some result → post result rest) :
    (char read).Leaves (c :: rest) post := by
  intro before reading hreading
  unfold char at hreading
  dsimp only at hreading
  split at hreading
  next result hresult =>
    rw [List.mem_singleton.mp hreading]
    exact h result hresult
  next => cases hreading

theorem leaves_true (matcher : Matcher α) (text : List Char) :
    matcher.Leaves text fun _ _ => True := fun _ _ _ => trivial

theorem leaves_satisfy (p : Char → Bool) (text : List Char) :
    (satisfy p).Leaves text fun c _ => p c = true := by
  cases text with
  | nil => exact (refuses_char_nil _).leaves _
  | cons c rest =>
      refine leaves_char fun result hresult => ?_
      split at hresult
      next hp =>
        obtain rfl := Option.some.inj hresult
        exact hp
      next => cases hresult

/-- The first of at least one reading. -/
theorem leaves_between {post : α → Prop} (h : ∀ text, matcher.Leaves text fun result _ => post result)
    (high : Nat) (text : List Char) :
    (between matcher 1 high).Leaves text fun results _ =>
      ∃ first rest, results = first :: rest ∧ post first := by
  have honce : (times matcher 1).Leaves text fun results _ =>
      ∃ first, results = [first] ∧ post first :=
    Leaves.bind (h text) fun first _ hfirst => leaves_pure ⟨first, rfl, hfirst⟩
  refine Leaves.bind honce ?_
  rintro _ rest ⟨first, rfl, hfirst⟩
  exact (leaves_true _ rest).bind fun more _ _ => leaves_pure ⟨first, more, rfl, hfirst⟩

theorem leaves_many1 {post : α → Prop} (h : ∀ text, matcher.Leaves text fun result _ => post result)
    (text : List Char) :
    (many1 matcher).Leaves text fun results _ => ∃ first rest, results = first :: rest ∧ post first :=
  fun before reading hreading => leaves_between h text.length text before reading hreading

theorem leaves_oneOf {matchers : List (Matcher α)} {post : α → List Char → Prop}
    (h : ∀ matcher ∈ matchers, matcher.Leaves text post) : (oneOf matchers).Leaves text post := by
  intro before reading hreading
  obtain ⟨matcher, hmatcher, hreading⟩ := List.mem_flatMap.mp hreading
  exact h matcher hmatcher before reading hreading

theorem refuses_char {read : Char → Option α} {c : Char} (h : read c = none) :
    (char read).Refuses (c :: rest) := by
  refine leaves_char fun result hresult => ?_
  rw [h] at hresult
  cases hresult

theorem refuses_literal {c c' : Char} (h : c' ≠ c) : (literal c).Refuses (c' :: rest) :=
  refuses_char (if_neg h)

theorem leaves_char_rest (read : Char → Option α) (c : Char) (rest : List Char) :
    (char read).Leaves (c :: rest) fun _ rest' => rest' = rest :=
  leaves_char fun _ _ => rfl

/-! ## How much is read -/

/-- Every way to read on takes a number of characters at least. -/
def Takes (count : Nat) (matcher : Matcher α) : Prop :=
  ∀ text, matcher.Leaves text fun _ rest => rest.length + count ≤ text.length

theorem Takes.mono {count count' : Nat} (h : Takes count matcher) (hle : count' ≤ count) :
    Takes count' matcher :=
  fun text => (h text).mono fun _ _ hlength => by omega

theorem takes_pure (result : α) : Takes 0 (pure result : Matcher α) :=
  fun _ => leaves_pure Nat.le.refl

theorem takes_char (read : Char → Option α) : Takes 1 (char read) := by
  intro text
  cases text with
  | nil => exact (refuses_char_nil read).leaves _
  | cons c rest => exact (leaves_char_rest read c rest).mono fun _ _ hrest =>
        hrest ▸ Nat.le.refl

theorem Takes.bind {count count' : Nat} {next : α → Matcher β} (h : Takes count matcher)
    (hnext : ∀ result, Takes count' (next result)) : Takes (count + count') (matcher >>= next) :=
  fun text => (h text).bind fun result rest hlength =>
    (hnext result rest).mono fun _ _ hlength' => by omega

theorem Takes.oneOf {count : Nat} {matchers : List (Matcher α)}
    (h : ∀ matcher ∈ matchers, Takes count matcher) : Takes count (Matcher.oneOf matchers) :=
  fun text => leaves_oneOf fun matcher hmatcher => h matcher hmatcher text

theorem Takes.times {count : Nat} (h : Takes count matcher) (n : Nat) :
    Takes (count * n) (Matcher.times matcher n) := by
  induction n with
  | zero => exact takes_pure []
  | succ n ih =>
      have hboth := h.bind fun result => ih.bind fun results => takes_pure (result :: results)
      exact hboth.mono (by rw [Nat.mul_succ]; omega)

theorem takes_upTo {count : Nat} (h : Takes count matcher) (high : Nat) :
    Takes 0 (Matcher.upTo matcher high) := by
  induction high with
  | zero => exact takes_pure []
  | succ high ih =>
      have hmore := h.bind fun result => ih.bind fun results => takes_pure (result :: results)
      intro text before reading hreading
      rcases List.mem_append.mp hreading with hreading | hreading
      · exact (hmore.mono (Nat.zero_le _)) text before reading hreading
      · exact takes_pure [] text before reading hreading

theorem Takes.many1 {count : Nat} (h : Takes count matcher) :
    Takes count (Matcher.many1 matcher) := by
  intro text before reading hreading
  have hbetween : Takes (count * 1) (Matcher.between matcher 1 text.length) :=
    ((h.times 1).bind fun first => (takes_upTo h _).bind fun more => takes_pure (first ++ more))
  exact (hbetween.mono (Nat.le_of_eq (Nat.mul_one count).symm)) text before reading hreading

/-! ## The preferred reading -/

theorem prefers_pure (result : α) : (pure result : Matcher α).Prefers text result text :=
  fun before => ⟨before, [], rfl⟩

theorem Prefers.bind {next : α → Matcher β} {result : α} {result' : β} {rest' : List Char}
    (h : matcher.Prefers text result rest) (hnext : (next result).Prefers rest result' rest') :
    (matcher >>= next).Prefers text result' rest' := by
  intro before
  obtain ⟨before', others, hfirst⟩ := h before
  obtain ⟨before'', others', hsecond⟩ := hnext before'
  refine ⟨before'', others' ++ others.flatMap fun reading => next reading.1 reading.2, ?_⟩
  change (matcher ⟨before, text⟩).flatMap (fun reading => next reading.1 reading.2) = _
  rw [hfirst, List.flatMap_cons]
  dsimp only
  rw [hsecond, List.cons_append]

theorem prefers_char {read : Char → Option α} {c : Char} {result : α} (h : read c = some result) :
    (char read).Prefers (c :: rest) result rest := by
  intro before
  refine ⟨c :: before, [], ?_⟩
  unfold char
  dsimp only
  rw [h]

theorem prefers_literal (c : Char) : (literal c).Prefers (c :: rest) () rest :=
  prefers_char (if_pos rfl)

theorem Prefers.oneOf {result : α} (h : matcher.Prefers text result rest)
    (others : List (Matcher α)) : (oneOf (matcher :: others)).Prefers text result rest := by
  intro before
  obtain ⟨before', readings, hreadings⟩ := h before
  refine ⟨before', readings ++ others.flatMap fun matcher => matcher ⟨before, text⟩, ?_⟩
  change (matcher :: others).flatMap (fun matcher => matcher ⟨before, text⟩) = _
  rw [List.flatMap_cons, hreadings, List.cons_append]

/-- A matcher that cannot read on is passed over. -/
theorem Refuses.oneOf {others : List (Matcher α)} {result : α} (h : matcher.Refuses text)
    (hothers : (Matcher.oneOf others).Prefers text result rest) :
    (Matcher.oneOf (matcher :: others)).Prefers text result rest := by
  intro before
  obtain ⟨before', readings, hreadings⟩ := hothers before
  refine ⟨before', readings, ?_⟩
  change (matcher :: others).flatMap (fun matcher => matcher ⟨before, text⟩) = _
  rw [List.flatMap_cons, h.eq_nil]
  exact hreadings

/-! ## Execution -/

theorem Prefers.exec {result : α} (h : matcher.Prefers text result rest) :
    matcher.exec text = some (result, rest) := by
  obtain ⟨before', others, hreadings⟩ := h []
  unfold Matcher.exec
  rw [hreadings]
  rfl

theorem Leaves.exec {post : α → List Char → Prop} {result : α} (h : matcher.Leaves text post)
    (hexec : matcher.exec text = some (result, rest)) : post result rest := by
  obtain ⟨reading, hreading, hsame⟩ := Option.map_eq_some_iff.mp hexec
  obtain ⟨hresult, hrest⟩ := Prod.mk.inj hsame
  rw [← hresult, ← hrest]
  exact h [] reading (List.mem_of_mem_head? hreading)

theorem Refuses.exec (h : matcher.Refuses text) : matcher.exec text = none := by
  unfold Matcher.exec
  rw [h.eq_nil]
  rfl

/-! ## What is read -/

/-- Every way to read on takes a piece of the text. The condition is on the
result, that piece and what is left. -/
def Reads (matcher : Matcher α) (before text : List Char)
    (post : α → List Char → List Char → Prop) : Prop :=
  ∀ reading ∈ matcher ⟨before, text⟩, ∃ read, text = read ++ reading.2.rest ∧
    reading.2.before = read.reverse ++ before ∧ post reading.1 read reading.2.rest

variable {before : List Char} {post : α → List Char → List Char → Prop}

theorem Reads.mono {mid : α → List Char → List Char → Prop} (h : matcher.Reads before text mid)
    (hpost : ∀ result read rest, mid result read rest → post result read rest) :
    matcher.Reads before text post := by
  intro reading hreading
  obtain ⟨read, htext, hbefore, hmid⟩ := h reading hreading
  exact ⟨read, htext, hbefore, hpost _ _ _ hmid⟩

theorem reads_pure {result : α} (h : post result [] text) :
    (pure result : Matcher α).Reads before text post := by
  intro reading hreading
  rw [List.mem_singleton.mp hreading]
  exact ⟨[], rfl, rfl, h⟩

theorem Reads.bind {mid : α → List Char → List Char → Prop}
    {post : β → List Char → List Char → Prop} {next : α → Matcher β}
    (h : matcher.Reads before text mid)
    (hnext : ∀ result read rest, mid result read rest →
      (next result).Reads (read.reverse ++ before) rest
        fun result' read' rest' => post result' (read ++ read') rest') :
    (matcher >>= next).Reads before text post := by
  intro reading hreading
  obtain ⟨⟨result, after⟩, hfirst, hreading⟩ := List.mem_flatMap.mp hreading
  obtain ⟨read, htext, hbefore, hmid⟩ := h _ hfirst
  have hafter : after = ⟨read.reverse ++ before, after.rest⟩ := by rw [← hbefore]
  rw [hafter] at hreading
  obtain ⟨read', hrest, hbefore', hpost⟩ := hnext result read after.rest hmid reading hreading
  refine ⟨read ++ read', ?_, ?_, hpost⟩
  · rw [htext, hrest, List.append_assoc]
  · rw [hbefore', List.reverse_append, List.append_assoc]

theorem reads_char {read : Char → Option α}
    (h : ∀ c rest result, read c = some result → post result [c] rest) :
    (char read).Reads before text post := by
  intro reading hreading
  cases text with
  | nil => cases hreading
  | cons c rest =>
      unfold char at hreading
      dsimp only at hreading
      split at hreading
      next result hresult =>
        rw [List.mem_singleton.mp hreading]
        exact ⟨[c], rfl, rfl, h c rest result hresult⟩
      next => cases hreading

theorem reads_literal {c : Char} {post : Unit → List Char → List Char → Prop}
    (h : ∀ rest, post () [c] rest) : (literal c).Reads before text post := by
  refine reads_char fun c' rest result hresult => ?_
  by_cases hsame : c' = c
  · exact hsame ▸ h rest
  · rw [if_neg hsame] at hresult
    cases hresult

theorem reads_ahead {p : List Char → Bool} {post : Unit → List Char → List Char → Prop}
    (h : p text = true → post () [] text) : (ahead p).Reads before text post := by
  intro reading hreading
  unfold ahead at hreading
  split at hreading
  next hp =>
    rw [List.mem_singleton.mp hreading]
    exact ⟨[], rfl, rfl, h hp⟩
  next => cases hreading

theorem reads_behind {p : Option Char → Bool} {post : Unit → List Char → List Char → Prop}
    (h : p before.head? = true → post () [] text) : (behind p).Reads before text post := by
  intro reading hreading
  unfold behind at hreading
  split at hreading
  next hp =>
    rw [List.mem_singleton.mp hreading]
    exact ⟨[], rfl, rfl, h hp⟩
  next => cases hreading

/-- A number of characters of one kind. -/
theorem reads_times (read : Char → Option α) (count : Nat) :
    (times (char read) count).Reads before text fun _ taken _ =>
      taken.length = count ∧ ∀ c ∈ taken, (read c).isSome = true := by
  induction count generalizing before text with
  | zero => exact reads_pure ⟨rfl, nofun⟩
  | succ count ih =>
      have hfirst : (char read).Reads before text fun _ taken _ =>
          ∃ c, taken = [c] ∧ (read c).isSome = true :=
        reads_char fun c _ _ hread => ⟨c, rfl, by rw [hread]; rfl⟩
      refine hfirst.bind ?_
      rintro first _ rest ⟨c, rfl, hc⟩
      refine ih.bind ?_
      rintro _ taken _ ⟨hlength, htaken⟩
      refine reads_pure ⟨?_, ?_⟩
      · rw [List.append_nil, List.length_append, hlength, List.length_singleton, Nat.add_comm]
      · rw [List.append_nil]
        exact List.forall_mem_cons.mpr ⟨hc, htaken⟩

theorem Reads.oneOf {matchers : List (Matcher α)}
    (h : ∀ matcher ∈ matchers, matcher.Reads before text post) :
    (Matcher.oneOf matchers).Reads before text post := by
  intro reading hreading
  obtain ⟨matcher, hmatcher, hreading⟩ := List.mem_flatMap.mp hreading
  exact h matcher hmatcher reading hreading

/-- What is captured is what is read. -/
theorem Reads.captured {post : List Char → List Char → List Char → Prop}
    (h : matcher.Reads before text fun _ read rest => post read read rest) :
    (Matcher.captured matcher).Reads before text post := by
  intro reading hreading
  obtain ⟨⟨result, after⟩, hfirst, rfl⟩ := List.mem_map.mp hreading
  obtain ⟨read, htext, hbefore, hpost⟩ := h _ hfirst
  have hcaptured : (after.before.take (after.before.length - before.length)).reverse = read := by
    rw [hbefore, List.length_append, Nat.add_sub_cancel_right, List.take_left,
      List.reverse_reverse]
  exact ⟨read, htext, hbefore, hcaptured.symm ▸ hpost⟩

theorem prefers_times {read : Char → Option α} {taken : List Char}
    (h : ∀ c ∈ taken, (read c).isSome = true) (rest : List Char) :
    ∃ results, (times (char read) taken.length).Prefers (taken ++ rest) results rest := by
  induction taken with
  | nil => exact ⟨[], prefers_pure []⟩
  | cons c taken ih =>
      obtain ⟨first, hfirst⟩ := Option.isSome_iff_exists.mp (h c List.mem_cons_self)
      obtain ⟨results, hresults⟩ := ih fun c' hc' => h c' (List.mem_cons_of_mem c hc')
      exact ⟨first :: results, (prefers_char hfirst).bind (hresults.bind (prefers_pure _))⟩

theorem prefers_ahead {p : List Char → Bool} (h : p text = true) :
    (ahead p).Prefers text () text :=
  fun before => ⟨before, [], if_pos h⟩

theorem Prefers.ne_nil {result : α} (h : matcher.Prefers text result rest) (before : List Char) :
    matcher ⟨before, text⟩ ≠ [] := by
  obtain ⟨before', others, hreadings⟩ := h before
  rw [hreadings]
  exact List.cons_ne_nil _ _

/-! ## Search -/

theorem searchFrom_eq_none (h : matcher.searchFrom before text = none) :
    ∀ skipped rest, text = skipped ++ rest → matcher ⟨skipped.reverse ++ before, rest⟩ = [] := by
  induction text generalizing before with
  | nil =>
      intro skipped rest hsplit
      obtain ⟨rfl, rfl⟩ := List.append_eq_nil_iff.mp hsplit.symm
      exact List.head?_eq_none_iff.mp h
  | cons c text ih =>
      unfold searchFrom at h
      split at h
      next => cases h
      next hnone =>
        intro skipped rest hsplit
        cases skipped with
        | nil =>
            obtain rfl : rest = c :: text := hsplit.symm
            exact List.head?_eq_none_iff.mp hnone
        | cons first skipped =>
            obtain ⟨rfl, hrest⟩ := List.cons.inj hsplit
            rw [List.reverse_cons, List.append_assoc]
            exact ih h skipped rest hrest

/-- The search stops at the first position at which there is a way to read on. -/
theorem searchFrom_eq_some {found : α × Cursor} (h : matcher.searchFrom before text = some found) :
    ∃ skipped rest, text = skipped ++ rest ∧
      (matcher ⟨skipped.reverse ++ before, rest⟩).head? = some found ∧
      ∀ skipped' rest', text = skipped' ++ rest' → skipped'.length < skipped.length →
        matcher ⟨skipped'.reverse ++ before, rest'⟩ = [] := by
  induction text generalizing before with
  | nil => exact ⟨[], [], rfl, h, fun _ _ _ hless => absurd hless (Nat.not_lt_zero _)⟩
  | cons c text ih =>
      unfold searchFrom at h
      split at h
      next found' hfound =>
        obtain rfl := Option.some.inj h
        exact ⟨[], c :: text, rfl, hfound, fun _ _ _ hless => absurd hless (Nat.not_lt_zero _)⟩
      next hnone =>
        obtain ⟨skipped, rest, rfl, hfound, hearlier⟩ := ih h
        refine ⟨c :: skipped, rest, rfl, ?_, fun skipped' rest' hsplit hless => ?_⟩
        · rw [List.reverse_cons, List.append_assoc]
          exact hfound
        · cases skipped' with
          | nil =>
              obtain rfl : rest' = c :: (skipped ++ rest) := hsplit.symm
              exact List.head?_eq_none_iff.mp hnone
          | cons first skipped' =>
              obtain ⟨rfl, hrest⟩ := List.cons.inj hsplit
              rw [List.reverse_cons, List.append_assoc]
              exact hearlier skipped' rest' hrest (Nat.lt_of_succ_lt_succ hless)

/-- What is found is read somewhere in the text. -/
theorem mem_findAllFrom {found : α} {before : List Char} {skip : Nat}
    (h : found ∈ matcher.findAllFrom before skip text) :
    ∃ cursor after, (found, after) ∈ matcher cursor := by
  induction text generalizing before skip with
  | nil => cases h
  | cons c text ih =>
      unfold findAllFrom at h
      split at h
      next => exact ih h
      next =>
        split at h
        next result after hfirst =>
          rcases List.mem_cons.mp h with rfl | hrest
          · exact ⟨_, after, List.mem_of_head? hfirst⟩
          · exact ih hrest
        next => exact ih h

theorem mem_findAll {found : α} (h : found ∈ matcher.findAll text) :
    ∃ cursor after, (found, after) ∈ matcher cursor :=
  mem_findAllFrom h

end Matching.Matcher
