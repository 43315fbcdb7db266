import Mathlib.Data.List.Basic

/-! # Computations that may fail

What a computation in `Except` has done when it succeeds.
-/

namespace Fallible

variable {ε ε' α β : Type}

theorem bind_eq_ok {first : Except ε α} {next : α → Except ε β} {result : β} :
    first >>= next = .ok result ↔ ∃ value, first = .ok value ∧ next value = .ok result := by
  cases first with
  | error cause => simp [bind, Except.bind]
  | ok value => simp [bind, Except.bind]

theorem mapError_eq_ok {change : ε → ε'} {first : Except ε α} {value : α} :
    first.mapError change = .ok value ↔ first = .ok value := by
  cases first <;> simp [Except.mapError]

/-- A computation whose evaluation succeeds. -/
theorem ok_of_toOption {read : α → β} {first : Except ε α} {result : β}
    (h : first.toOption.map read = some result) :
    ∃ value, first = .ok value ∧ read value = result := by
  cases first with
  | error cause => cases h
  | ok value => exact ⟨value, rfl, Option.some.inj h⟩

/-- What every step preserves holds after a loop that succeeds. -/
theorem foldlM_ok {motive : β → Prop} {step : β → α → Except ε β} {elements : List α}
    {start result : β} (hstart : motive start)
    (hstep : ∀ state, ∀ element ∈ elements, ∀ next, motive state →
      step state element = .ok next → motive next)
    (h : elements.foldlM step start = .ok result) : motive result := by
  induction elements generalizing start with
  | nil =>
      cases h
      exact hstart
  | cons element rest ih =>
      rw [List.foldlM_cons] at h
      obtain ⟨next, hnext, hrest⟩ := bind_eq_ok.mp h
      exact ih (hstep start element List.mem_cons_self next hstart hnext)
        (fun state element hmem => hstep state element (List.mem_cons_of_mem _ hmem)) hrest

/-- A loop that succeeds, with the elements it has passed. -/
theorem foldlM_passed {motive : List α → β → Prop} {step : β → α → Except ε β}
    {passed elements : List α} {start result : β} (hstart : motive passed start)
    (hstep : ∀ passed element state next, motive passed state →
      step state element = .ok next → motive (passed ++ [element]) next)
    (h : elements.foldlM step start = .ok result) : motive (passed ++ elements) result := by
  induction elements generalizing passed start with
  | nil =>
      cases h
      rw [List.append_nil]
      exact hstart
  | cons element rest ih =>
      rw [List.foldlM_cons] at h
      obtain ⟨next, hnext, hrest⟩ := bind_eq_ok.mp h
      rw [List.append_cons]
      exact ih (hstep passed element start next hstart hnext) hrest

/-- A loop whose steps succeed whatever came before succeeds when each step does. -/
theorem exists_foldlM_eq_ok {step : β → α → Except ε β} {succeeds : α → Prop}
    (hstep : ∀ state element, (∃ next, step state element = .ok next) ↔ succeeds element)
    {elements : List α} (start : β) :
    (∃ result, elements.foldlM step start = .ok result) ↔
      ∀ element ∈ elements, succeeds element := by
  induction elements generalizing start with
  | nil => simp [pure, Except.pure]
  | cons element rest ih =>
      rw [List.forall_mem_cons, ← hstep start element, List.foldlM_cons]
      simp only [bind_eq_ok]
      constructor
      · rintro ⟨result, next, hnext, hrest⟩
        exact ⟨⟨next, hnext⟩, (ih next).mp ⟨result, hrest⟩⟩
      · rintro ⟨⟨next, hnext⟩, hrest⟩
        obtain ⟨result, hresult⟩ := (ih next).mpr hrest
        exact ⟨result, next, hnext, hresult⟩

/-- A loop whose steps depend on the elements passed succeeds when each step does. -/
theorem exists_foldlM_passed {motive : List α → β → Prop} (step : β → α → Except ε β)
    (succeeds : List α → α → Prop)
    (hstep : ∀ passed element state, motive passed state →
      ((∃ next, step state element = .ok next) ↔ succeeds passed element))
    (hnext : ∀ passed element state next, motive passed state →
      step state element = .ok next → motive (passed ++ [element]) next)
    {passed elements : List α} {start : β} (hstart : motive passed start) :
    (∃ result, elements.foldlM step start = .ok result) ↔
      ∀ before element after, elements = before ++ element :: after →
        succeeds (passed ++ before) element := by
  induction elements generalizing passed start with
  | nil => simp [pure, Except.pure]
  | cons element rest ih =>
      rw [List.foldlM_cons]
      simp only [bind_eq_ok]
      constructor
      · rintro ⟨result, next, hfirst, hrest⟩ before other after hsplit
        have hlater := (ih (hnext passed element start next hstart hfirst)).mp ⟨result, hrest⟩
        cases before with
        | nil =>
            obtain ⟨rfl, -⟩ := List.cons.inj hsplit
            rw [List.append_nil]
            exact (hstep passed element start hstart).mp ⟨next, hfirst⟩
        | cons first before =>
            obtain ⟨rfl, rfl⟩ := List.cons.inj hsplit
            have hother := hlater before other after rfl
            rwa [List.append_assoc] at hother
      · intro hall
        have hfirst := hall [] element rest rfl
        rw [List.append_nil] at hfirst
        obtain ⟨next, hfirst⟩ := (hstep passed element start hstart).mpr hfirst
        obtain ⟨result, hrest⟩ := (ih (hnext passed element start next hstart hfirst)).mpr
          fun before other after hsplit => by
            have hother := hall (element :: before) other after (by rw [hsplit]; rfl)
            rwa [List.append_assoc]
        exact ⟨result, next, hfirst, hrest⟩

/-- A traversal succeeds when its step succeeds on every element. -/
theorem forM_eq_ok {check : α → Except ε Unit} {elements : List α} :
    elements.forM check = .ok () ↔ ∀ element ∈ elements, check element = .ok () := by
  induction elements with
  | nil => simp [List.forM, pure, Except.pure]
  | cons element rest ih =>
      change check element >>= (fun _ => rest.forM check) = _ ↔ _
      rw [bind_eq_ok, List.forall_mem_cons]
      constructor
      · rintro ⟨⟨⟩, hcheck, hrest⟩
        exact ⟨hcheck, ih.mp hrest⟩
      · rintro ⟨hcheck, hrest⟩
        exact ⟨⟨⟩, hcheck, ih.mpr hrest⟩

/-- The results of a traversal, one for each element. -/
theorem map_eq_of_mapM {change : α → Except ε β} {elements : List α} {results : List β}
    (h : elements.mapM change = .ok results) : elements.map change = results.map .ok := by
  induction elements generalizing results with
  | nil =>
      cases h
      rfl
  | cons element rest ih =>
      rw [List.mapM_cons] at h
      obtain ⟨head, hhead, h⟩ := bind_eq_ok.mp h
      obtain ⟨tail, htail, h⟩ := bind_eq_ok.mp h
      cases h
      rw [List.map_cons, List.map_cons, hhead, ih htail]

theorem mem_mapM {change : α → Except ε β} {elements : List α} {results : List β}
    (h : elements.mapM change = .ok results) :
    ∀ result ∈ results, ∃ element ∈ elements, change element = .ok result := by
  intro result hresult
  have hmem : (.ok result : Except ε β) ∈ results.map .ok := List.mem_map_of_mem hresult
  rw [← map_eq_of_mapM h] at hmem
  exact List.mem_map.mp hmem

/-- A value that is asked for, or the cause given for its absence. -/
def require (cause : ε) : Option α → Except ε α
  | some value => .ok value
  | none => .error cause

theorem require_eq_ok {cause : ε} {value : Option α} {result : α} :
    require cause value = .ok result ↔ value = some result := by
  cases value with
  | none => simp [require]
  | some value => simp [require]

/-- A traversal that asks for a reading of every element. -/
theorem mapM_require {read : α → Option β} {cause : α → ε} {elements : List α}
    {results : List β}
    (h : (elements.mapM fun element => require (cause element) (read element)) = .ok results) :
    results = elements.filterMap read ∧ ∀ element ∈ elements, (read element).isSome := by
  induction elements generalizing results with
  | nil =>
      cases h
      exact ⟨rfl, fun element hmem => absurd hmem List.not_mem_nil⟩
  | cons element rest ih =>
      rw [List.mapM_cons] at h
      obtain ⟨head, hhead, h⟩ := bind_eq_ok.mp h
      obtain ⟨tail, htail, h⟩ := bind_eq_ok.mp h
      cases h
      obtain ⟨rfl, hrest⟩ := ih htail
      have hread := require_eq_ok.mp hhead
      refine ⟨(List.filterMap_cons_some hread).symm, ?_⟩
      rw [List.forall_mem_cons, hread]
      exact ⟨rfl, hrest⟩

theorem map_eq_ok {change : α → β} {first : Except ε α} {result : β} :
    change <$> first = .ok result ↔ ∃ value, first = .ok value ∧ change value = result := by
  cases first with
  | error cause => simp [Functor.map, Except.map]
  | ok value => simp [Functor.map, Except.map]

/-- The results of a traversal are all empty when its step gives nothing. -/
theorem flatten_mapM_eq_nil {change : α → Except ε (List β)} {elements : List α} :
    (∃ results, elements.mapM change = .ok results ∧ results.flatten = []) ↔
      ∀ element ∈ elements, change element = .ok [] := by
  induction elements with
  | nil => simp [pure, Except.pure]
  | cons element rest ih =>
      rw [List.mapM_cons, List.forall_mem_cons, ← ih]
      constructor
      · rintro ⟨results, hresults, hflat⟩
        obtain ⟨head, hhead, hresults⟩ := bind_eq_ok.mp hresults
        obtain ⟨tail, htail, hresults⟩ := bind_eq_ok.mp hresults
        cases hresults
        obtain ⟨rfl, hflat⟩ := List.append_eq_nil_iff.mp hflat
        exact ⟨hhead, tail, htail, hflat⟩
      · rintro ⟨hhead, tail, htail, hflat⟩
        refine ⟨[] :: tail, ?_, hflat⟩
        rw [hhead, htail]
        rfl

/-- A traversal whose step gives what a function says, if anything. -/
theorem mapM_eq_ok_iff {step : α → Except ε β} {outcome : α → β}
    {elements : List α} {results : List β}
    (houtcome : ∀ element ∈ elements, ∀ result, step element = .ok result →
      result = outcome element) :
    elements.mapM step = .ok results ↔
      (∀ element ∈ elements, ∃ result, step element = .ok result) ∧
        results = elements.map outcome := by
  induction elements generalizing results with
  | nil =>
      rw [List.mapM_nil, List.map_nil]
      simp [pure, Except.pure, eq_comm]
  | cons element rest ih =>
      obtain ⟨hfirst, hrest⟩ := List.forall_mem_cons.mp houtcome
      rw [List.mapM_cons, bind_eq_ok, List.forall_mem_cons, List.map_cons]
      constructor
      · rintro ⟨value, hvalue, htail⟩
        obtain ⟨values, hvalues, heq⟩ := bind_eq_ok.mp htail
        obtain rfl := Except.ok.inj heq
        obtain ⟨hsucceeds, rfl⟩ := (ih hrest).mp hvalues
        exact ⟨⟨⟨value, hvalue⟩, hsucceeds⟩, by rw [hfirst value hvalue]⟩
      · rintro ⟨⟨⟨value, hvalue⟩, hsucceeds⟩, rfl⟩
        refine ⟨value, hvalue, bind_eq_ok.mpr
          ⟨_, (ih hrest).mpr ⟨hsucceeds, rfl⟩, ?_⟩⟩
        rw [hfirst value hvalue]
        rfl

/-- A traversal succeeds with results of some kind when each step does. -/
theorem exists_mapM_forall₂ {change : α → Except ε β} {related : α → β → Prop}
    {elements : List α} :
    (∃ results, elements.mapM change = .ok results ∧ List.Forall₂ related elements results) ↔
      ∀ element ∈ elements, ∃ result, change element = .ok result ∧ related element result := by
  induction elements with
  | nil => simp [pure, Except.pure]
  | cons element rest ih =>
      rw [List.mapM_cons, List.forall_mem_cons, ← ih]
      constructor
      · rintro ⟨results, hresults, hrelated⟩
        obtain ⟨head, hhead, hresults⟩ := bind_eq_ok.mp hresults
        obtain ⟨tail, htail, hresults⟩ := bind_eq_ok.mp hresults
        cases hresults
        obtain ⟨hfirst, hrest⟩ := List.forall₂_cons.mp hrelated
        exact ⟨⟨head, hhead, hfirst⟩, tail, htail, hrest⟩
      · rintro ⟨⟨head, hhead, hfirst⟩, tail, htail, hrest⟩
        refine ⟨head :: tail, ?_, .cons hfirst hrest⟩
        rw [hhead, htail]
        rfl

end Fallible
