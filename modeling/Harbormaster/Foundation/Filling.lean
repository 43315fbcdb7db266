import Harbormaster.Foundation.Dict
import Harbormaster.Foundation.Fallible

/-! # Filling a dictionary

The keys that have no value yet are set one after the other, each to the result of
a computation that may fail.
-/

namespace Ordered.Dict

variable {κ ν ε : Type} [DecidableEq κ]

/-- Set a key that has no value yet. -/
def fill (value : κ → Except ε ν) (dict : Dict κ ν) (key : κ) : Except ε (Dict κ ν) :=
  if (dict.get? key).isSome then return dict
  else do return dict.set key (← value key)

theorem fill_eq_ok {value : κ → Except ε ν} {dict next : Dict κ ν} {key : κ} :
    dict.fill value key = .ok next ↔ ((dict.get? key).isSome ∧ next = dict) ∨
      (dict.get? key = none ∧ ∃ v, value key = .ok v ∧ next = dict.set key v) := by
  unfold fill
  cases hkey : dict.get? key with
  | some v => simp [pure, Except.pure, eq_comm]
  | none =>
      rw [if_neg (by simp), Fallible.bind_eq_ok]
      simp [pure, Except.pure, eq_comm]

/-- Filling keeps what was there, and gives every other key its value. -/
theorem get?_of_fill (value : κ → Except ε ν) {keys : List κ} {dict filled : Dict κ ν}
    (h : keys.foldlM (fill value) dict = .ok filled) :
    (∀ key, (dict.get? key).isSome → filled.get? key = dict.get? key) ∧
      ∀ key ∈ keys, dict.get? key = none →
        ∃ v, value key = .ok v ∧ filled.get? key = some v := by
  induction keys generalizing dict with
  | nil =>
      obtain rfl := Except.ok.inj h
      exact ⟨fun _ _ => rfl, fun _ hkey => absurd hkey List.not_mem_nil⟩
  | cons first rest ih =>
      rw [List.foldlM_cons] at h
      obtain ⟨next, hnext, h⟩ := Fallible.bind_eq_ok.mp h
      obtain ⟨hkept, hfilled⟩ := ih h
      rcases fill_eq_ok.mp hnext with ⟨hthere, rfl⟩ | ⟨hmissing, v, hv, rfl⟩
      · refine ⟨hkept, fun key hkey hnone => ?_⟩
        rcases List.mem_cons.mp hkey with rfl | hrest
        · rw [hnone] at hthere
          cases hthere
        · exact hfilled key hrest hnone
      · refine ⟨fun key hsome => ?_, fun key hkey hnone => ?_⟩
        · have hother : key ≠ first := by
            rintro rfl
            rw [hmissing] at hsome
            cases hsome
          have hget : (dict.set first v).get? key = dict.get? key := by
            rw [get?_set, if_neg hother]
          rw [← hget]
          exact hkept key (by rwa [hget])
        · by_cases hfirst : key = first
          · subst hfirst
            have hget : (dict.set key v).get? key = some v := by rw [get?_set, if_pos rfl]
            exact ⟨v, hv, by rw [hkept key (by rw [hget]; rfl), hget]⟩
          · refine hfilled key ((List.mem_cons.mp hkey).resolve_left hfirst) ?_
            rw [get?_set, if_neg hfirst, hnone]

theorem exists_fill {value : κ → Except ε ν} {keys : List κ} {dict : Dict κ ν}
    (h : ∀ key ∈ keys, dict.get? key = none → ∃ v, value key = .ok v) :
    ∃ filled, keys.foldlM (fill value) dict = .ok filled := by
  induction keys generalizing dict with
  | nil => exact ⟨dict, rfl⟩
  | cons first rest ih =>
      have hstep : ∃ next, dict.fill value first = .ok next ∧
          ∀ key, next.get? key = none → dict.get? key = none := by
        cases hkey : dict.get? first with
        | some v =>
            exact ⟨dict, fill_eq_ok.mpr (.inl ⟨by rw [hkey]; rfl, rfl⟩), fun _ hnone => hnone⟩
        | none =>
            obtain ⟨v, hv⟩ := h first List.mem_cons_self hkey
            refine ⟨dict.set first v, fill_eq_ok.mpr (.inr ⟨hkey, v, hv, rfl⟩), fun key hnone => ?_⟩
            rw [get?_set] at hnone
            split at hnone
            next => cases hnone
            next => exact hnone
      obtain ⟨next, hnext, hkept⟩ := hstep
      obtain ⟨filled, hfilled⟩ := ih fun key hkey hnone =>
        h key (List.mem_cons_of_mem first hkey) (hkept key hnone)
      refine ⟨filled, ?_⟩
      rw [List.foldlM_cons]
      exact Fallible.bind_eq_ok.mpr ⟨next, hnext, hfilled⟩

end Ordered.Dict
