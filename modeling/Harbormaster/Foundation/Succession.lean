import Mathlib.Data.List.Nodup

/-! # Issued and voided identifiers

The abstract purpose of a stream of instructions that replace one another: an
identifier is live from its issue until it is voided, and at most one may be
live at a time. In a proper succession every issue after the first is preceded
by the void of the identifier it replaces.
-/

namespace Succession

/-- One instruction of the stream. -/
inductive Entry (ι : Type) where
  | issue (id : ι) (replaces : Option ι)
  | void (id : ι)
deriving DecidableEq, Repr

variable {ι : Type}

/-- The identifiers issued, in order. -/
def issued (log : List (Entry ι)) : List ι :=
  log.filterMap fun
    | .issue id _ => some id
    | .void _ => none

/-- The identifiers voided, in order. -/
def voided (log : List (Entry ι)) : List ι :=
  log.filterMap fun
    | .issue _ _ => none
    | .void id => some id

@[simp] theorem issued_append (log rest : List (Entry ι)) :
    issued (log ++ rest) = issued log ++ issued rest :=
  List.filterMap_append

@[simp] theorem voided_append (log rest : List (Entry ι)) :
    voided (log ++ rest) = voided log ++ voided rest :=
  List.filterMap_append

@[simp] theorem issued_nil : issued ([] : List (Entry ι)) = [] := rfl
@[simp] theorem voided_nil : voided ([] : List (Entry ι)) = [] := rfl

@[simp] theorem issued_issue (id : ι) (replaces : Option ι) (log : List (Entry ι)) :
    issued (.issue id replaces :: log) = id :: issued log := rfl

@[simp] theorem issued_void (id : ι) (log : List (Entry ι)) :
    issued (.void id :: log) = issued log := rfl

@[simp] theorem voided_issue (id : ι) (replaces : Option ι) (log : List (Entry ι)) :
    voided (.issue id replaces :: log) = voided log := rfl

@[simp] theorem voided_void (id : ι) (log : List (Entry ι)) :
    voided (.void id :: log) = id :: voided log := rfl

variable [DecidableEq ι]

/-- The identifiers issued and not voided. -/
def live (log : List (Entry ι)) : List ι :=
  (issued log).filter fun id => id ∉ voided log

@[simp] theorem live_nil : live ([] : List (Entry ι)) = [] := rfl

theorem mem_live {log : List (Entry ι)} {id : ι} :
    id ∈ live log ↔ id ∈ issued log ∧ id ∉ voided log := by
  simp [live]

/-- Voiding an identifier takes it, and nothing else, out of the live ones. -/
theorem live_append_void (log : List (Entry ι)) (id : ι) :
    live (log ++ [.void id]) = (live log).filter fun other => other ≠ id := by
  simp only [live, issued_append, voided_append, issued_void, voided_void, issued_nil,
    voided_nil, List.append_nil, List.mem_append, List.mem_singleton, not_or,
    List.filter_filter]
  congr 1
  funext other
  simp [and_comm]

/-- Issuing an identifier adds it to the live ones unless it was voided before. -/
theorem live_append_issue (log : List (Entry ι)) (id : ι) (replaces : Option ι) :
    live (log ++ [.issue id replaces]) =
      live log ++ if id ∈ voided log then [] else [id] := by
  simp only [live, issued_append, voided_append, issued_issue, voided_issue, issued_nil,
    voided_nil, List.append_nil, List.filter_append]
  congr 1
  by_cases hvoid : id ∈ voided log <;> simp [hvoid]

theorem live_append_void_eq_nil {log : List (Entry ι)} {prior : ι}
    (hprior : ∀ id ∈ live log, id = prior) : live (log ++ [.void prior]) = [] := by
  rw [live_append_void, List.filter_eq_nil_iff]
  intro id hid
  simp [hprior id hid]

theorem length_live_append_issue {log : List (Entry ι)} (hlive : live log = []) (id : ι)
    (replaces : Option ι) : (live (log ++ [.issue id replaces])).length ≤ 1 := by
  rw [live_append_issue, hlive, List.nil_append]
  split <;> simp

/-- Where no identifier is live, only the one issued next can be. -/
theorem eq_of_mem_live_issue {log : List (Entry ι)} {id next : ι} {replaces : Option ι}
    (hlive : live log = []) (hid : id ∈ live (log ++ [.issue next replaces])) : id = next := by
  rw [live_append_issue, hlive, List.nil_append] at hid
  split at hid
  · cases hid
  · exact List.mem_singleton.mp hid

/-- Wherever a replacement is interrupted, at most one identifier is live. -/
theorem length_live_replace {log added : List (Entry ι)} {prior next : ι}
    {replaces : Option ι} (hprior : ∀ id ∈ live log, id = prior)
    (hlive : (live log).length ≤ 1)
    (hadded : added <+: [.void prior, .issue next replaces]) :
    (live (log ++ added)).length ≤ 1 := by
  rcases added with _ | ⟨first, _ | ⟨second, rest⟩⟩
  · rwa [List.append_nil]
  · obtain ⟨rfl, _⟩ := List.cons_prefix_cons.mp hadded
    rw [live_append_void_eq_nil hprior]
    exact Nat.zero_le 1
  · obtain ⟨rfl, hrest⟩ := List.cons_prefix_cons.mp hadded
    obtain ⟨rfl, hnil⟩ := List.cons_prefix_cons.mp hrest
    obtain rfl := List.prefix_nil.mp hnil
    have happend : log ++ [.void prior, .issue next replaces] =
        (log ++ [.void prior]) ++ [.issue next replaces] := by simp
    rw [happend]
    exact length_live_append_issue (live_append_void_eq_nil hprior) next replaces

/-- Where no identifier is live, one may be issued. -/
theorem length_live_issue {log added : List (Entry ι)} {next : ι} {replaces : Option ι}
    (hlive : live log = []) (hadded : added <+: [.issue next replaces]) :
    (live (log ++ added)).length ≤ 1 := by
  rcases added with _ | ⟨first, rest⟩
  · rw [List.append_nil, hlive]
    exact Nat.zero_le 1
  · obtain ⟨rfl, hnil⟩ := List.cons_prefix_cons.mp hadded
    obtain rfl := List.prefix_nil.mp hnil
    exact length_live_append_issue hlive next replaces

/-- The entries that follow once `prior` is live: each identifier is issued
after the void of the one it replaces. -/
def follow (prior : ι) : List ι → List (Entry ι)
  | [] => []
  | id :: rest => .void prior :: .issue id (some prior) :: follow id rest

/-- The proper succession of a list of identifiers. -/
def chain : List ι → List (Entry ι)
  | [] => []
  | id :: rest => .issue id none :: follow id rest

omit [DecidableEq ι] in
theorem follow_append (prior : ι) (ids : List ι) (next : ι) :
    follow prior (ids ++ [next]) =
      follow prior ids ++
        [.void ((ids.getLast?).getD prior), .issue next (some ((ids.getLast?).getD prior))] := by
  induction ids generalizing prior with
  | nil => rfl
  | cons id rest ih =>
      simp only [List.cons_append, follow, ih, List.getLast?_cons, Option.getD_some]

omit [DecidableEq ι] in
/-- A succession is extended by voiding its last identifier and issuing the next. -/
theorem chain_append (ids : List ι) (next : ι) :
    chain (ids ++ [next]) = chain ids ++
      match ids.getLast? with
      | none => [.issue next none]
      | some prior => [.void prior, .issue next (some prior)] := by
  cases ids with
  | nil => rfl
  | cons id rest =>
      simp only [List.cons_append, chain, follow_append, List.getLast?_cons]

end Succession
