import Harbormaster.Store.Migrate

/-! # Rollbacks

`Rollback` of `go/internal/store` reverts the migration with the highest version on record.
Whatever runs of `Migrate` and `Rollback` follow each other, of older and newer releases, and
wherever each is cut off, the versions on record are those of the first migrations, and the
contents are what these make of an empty database.
-/

namespace Harbormaster.Store

open Effect Program Keyed

/-- Migrations with a way back: the down half of a migration undoes its up half on what the
ones before it make of the empty database. -/
structure Reversible (σ : Type) extends Migrations σ where
  down : Migration σ → σ → Except SqlError σ
  empty : σ
  undoes : ∀ n m contents contents', list[n]? = some m →
    upAll (list.take n) empty = .ok contents → m.up contents = .ok contents' →
      down m contents' = .ok contents

section Source

variable {σ : Type}

/-- Why a rollback fails. -/
inductive RollbackCause where
  | readLatest (cause : SqlError)
  | rollback (version : Int) (cause : SqlError)
  | unknown (version : Int)
deriving DecidableEq, Repr

/-- The query and the transaction of a rollback. -/
inductive RollbackCall (σ : Type) where
  | latest
  | revert (m : Migration σ)

def RollbackReply : RollbackCall σ → Type
  | .latest => Except SqlError (Option Int)
  | .revert _ => Except RollbackCause Unit

abbrev RollingBack (σ : Type) := Program (RollbackCall σ) RollbackReply RollbackCause

/-- The loop of `Rollback` that finds the migration and reverts it. -/
def revertVersion (list : List (Migration σ)) (version : Int) : RollingBack σ Int := do
  let m ← orFail (.unknown version) (list.find? fun m => m.version = version)
  match ← ask (RollbackCall.revert m) with
  | .error cause => .fail cause
  | .ok () => return version

/-- `Rollback`, with the migrations of a release. -/
def rollback (list : List (Migration σ)) : RollingBack σ Int := do
  match ← ask RollbackCall.latest with
  | .error cause => .fail (.readLatest cause)
  | .ok none => return 0
  | .ok (some version) => revertVersion list version

/-- The highest version on record. -/
def Database.latest (db : Database σ) : Except SqlError (Option Int) :=
  match db.migrated with
  | none => .error .undefinedTable
  | some table => .ok table.keys.max?

/-- A transaction that fails leaves the database as it was. -/
def Database.revert (db : Database σ) (down : Migration σ → σ → Except SqlError σ)
    (m : Migration σ) : Database σ × Except RollbackCause Unit :=
  match down m db.contents with
  | .error cause => (db, .error (.rollback m.version cause))
  | .ok contents =>
      (⟨db.migrated.map fun table => AList.erase m.version table, contents⟩, .ok ())

def performRollback (down : Migration σ → σ → Except SqlError σ) (db : Database σ) (_ : Unit) :
    (request : RollbackCall σ) → Database σ × RollbackReply request
  | .latest => (db, db.latest)
  | .revert m => db.revert down m

/-- A start of a release that knows so many of the migrations. The script says where it is cut
off: a call that fails ends it the same. -/
inductive Maintenance where
  | migrate (release : Nat) (script : Script Unit)
  | rollback (release : Nat) (script : Script Unit)

end Source

namespace Reversible

variable {σ : Type} (migrations : Reversible σ)

/-- The migrations that a release has embedded. -/
def released (release : Nat) : Migrations σ where
  list := migrations.list.take release
  sorted := migrations.sorted.sublist (List.take_sublist _ _)

def maintain (db : Database σ) : Maintenance → Database σ
  | .migrate release script =>
      ((migrate (migrations.released release)).run perform script db).1
  | .rollback release script =>
      ((rollback (migrations.list.take release)).run (performRollback migrations.down) script db).1

/-- The first `n` migrations are on record, and the contents are what they make of the empty
database. -/
structure UpTo (n : Nat) (db : Database σ) : Prop where
  bound : n ≤ migrations.list.length
  versions : ∀ version, version ∈ db.versions ↔
    version ∈ (migrations.list.take n).map Migration.version
  contents : upAll (migrations.list.take n) migrations.empty = .ok db.contents

/-- Some of the first migrations are on record, and nothing else. -/
def Recorded (db : Database σ) : Prop := ∃ n, migrations.UpTo n db

variable {migrations} {db : Database σ} {n : Nat}

theorem UpTo.initial : migrations.UpTo 0 ⟨none, migrations.empty⟩ where
  bound := Nat.zero_le _
  versions version := by simp [Database.versions]
  contents := rfl

/-! ## Migrating -/

theorem UpTo.createTable (h : migrations.UpTo n db) :
    migrations.UpTo n { db with migrated := some (db.migrated.getD ∅) } :=
  ⟨h.bound, h.versions, h.contents⟩

theorem version_injective {i j : Nat} {m m' : Migration σ} (hi : migrations.list[i]? = some m)
    (hj : migrations.list[j]? = some m') (h : m.version = m'.version) : i = j := by
  obtain ⟨hilt, rfl⟩ := List.getElem?_eq_some_iff.mp hi
  obtain ⟨hjlt, rfl⟩ := List.getElem?_eq_some_iff.mp hj
  have hsorted := List.pairwise_iff_getElem.mp migrations.sorted
  rcases Nat.lt_trichotomy i j with hlt | heq | hgt
  · exact absurd h (Int.ne_of_lt (hsorted i j hilt hjlt hlt))
  · exact heq
  · exact absurd h.symm (Int.ne_of_lt (hsorted j i hjlt hilt hgt))

/-- A migration is on record when it is one of the first. -/
theorem UpTo.mem_versions (h : migrations.UpTo n db) {k : Nat} {m : Migration σ}
    (hm : migrations.list[k]? = some m) : m.version ∈ db.versions ↔ k < n := by
  rw [h.versions, List.mem_map]
  constructor
  · rintro ⟨m', hmem, hversion⟩
    obtain ⟨j, hj⟩ := List.mem_iff_getElem?.mp hmem
    rw [List.getElem?_take] at hj
    split at hj
    next hlt =>
      rw [← version_injective hj hm hversion]
      exact hlt
    next => cases hj
  · intro hlt
    exact ⟨m, List.mem_iff_getElem?.mpr ⟨k, by rw [List.getElem?_take_of_lt hlt, hm]⟩, rfl⟩

theorem UpTo.applyOne (h : migrations.UpTo n db) {m : Migration σ}
    (hm : migrations.list[n]? = some m) :
    ((db.applyOne m).2 = .ok () ∧ migrations.UpTo (n + 1) (db.applyOne m).1) ∨
      ∃ cause, (db.applyOne m).2 = .error cause ∧ (db.applyOne m).1 = db := by
  unfold Database.applyOne
  cases hup : m.up db.contents with
  | error cause => exact Or.inr ⟨_, rfl, rfl⟩
  | ok contents =>
      cases htable : db.migrated with
      | none => exact Or.inr ⟨_, rfl, rfl⟩
      | some table =>
          dsimp only
          cases hrow : table.lookup m.version with
          | some name => exact Or.inr ⟨_, rfl, rfl⟩
          | none =>
              -- the statements and the row of the version are one transaction
              have htake : migrations.list.take (n + 1) = migrations.list.take n ++ [m] := by
                rw [List.take_add_one, hm, Option.toList_some]
              refine Or.inl ⟨rfl, (List.getElem?_eq_some_iff.mp hm).1, fun version => ?_, ?_⟩
              · have hold := h.versions version
                rw [Database.versions, htable, Option.getD_some, ← AList.mem_keys] at hold
                rw [Database.versions, Option.getD_some, ← AList.mem_keys, AList.mem_insert,
                  hold, htake, List.map_append, List.mem_append, List.map_singleton,
                  List.mem_singleton]
                exact or_comm
              · rw [htake, upAll_append h.contents, upAll_cons, hup]
                rfl

/-- The loop of `Migrate` stands at migration `k`, after those that it found on record. -/
theorem UpTo.applyAll {versions : List Int} {release found k : Nat} (h : migrations.UpTo n db)
    (hread : ∀ j m, migrations.list[j]? = some m → (m.version ∈ versions ↔ j < found))
    (hn : n = max found k) (rest : List (Migration σ))
    (hrest : (migrations.list.take release).drop k = rest) (applied : List Int) :
    (applyAll versions rest applied).Spec perform (fun _ _ _ => True) migrations.Recorded
      (fun db _ => migrations.Recorded db) db := by
  induction rest generalizing k n db applied with
  | nil => exact ⟨n, h⟩
  | cons m rest ih =>
      have hm : migrations.list[k]? = some m := by
        have hhead := congrArg (fun list => list[0]?) hrest
        rw [List.getElem?_drop, Nat.add_zero, List.getElem?_take] at hhead
        split at hhead
        · exact hhead
        · cases hhead
      have hnext : (migrations.list.take release).drop (k + 1) = rest := by
        rw [← List.tail_drop, hrest, List.tail_cons]
      unfold Store.applyAll
      by_cases hfound : m.version ∈ versions
      · -- skipped: it was on record when the run read the table
        rw [if_pos hfound]
        have hlt := (hread k m hm).mp hfound
        exact ih h (by omega) hnext applied
      · rw [if_neg hfound]
        have hge : found ≤ k := Nat.not_lt.mp fun hlt => hfound ((hread k m hm).mpr hlt)
        rw [Nat.max_eq_right hge] at hn
        subst hn
        -- the run may end before this call, with what has been applied so far
        refine ⟨⟨n, h⟩, fun _ _ => ?_⟩
        unfold perform
        dsimp only
        rcases h.applyOne hm with ⟨hok, hdone⟩ | ⟨cause, herror, hsame⟩
        · rw [hok]
          exact ih hdone (by omega) hnext _
        · rw [herror, hsame]
          exact ⟨n, h⟩

/-- Wherever a run of a release is cut off. -/
theorem UpTo.migrate (h : migrations.UpTo n db) (release : Nat) :
    (Store.migrate (migrations.released release)).Spec perform (fun _ _ _ => True)
      migrations.Recorded (fun db _ => migrations.Recorded db) db := by
  refine ⟨⟨n, h⟩, fun _ _ => ⟨⟨n, h.createTable⟩, fun _ _ => ?_⟩⟩
  have hread : ∀ j m, migrations.list[j]? = some m →
      (m.version ∈ (db.migrated.getD ∅).keys ↔ j < n) := fun j m hm => h.mem_versions hm
  exact h.createTable.applyAll hread (Nat.max_eq_left (Nat.zero_le n)).symm _ rfl []

/-! ## Rolling back -/

/-- The highest version on record is that of the last of the first migrations. -/
theorem UpTo.latest (h : migrations.UpTo n db) {version : Int}
    (hlatest : db.latest = .ok (some version)) :
    ∃ k m, n = k + 1 ∧ migrations.list[k]? = some m ∧ m.version = version := by
  unfold Database.latest at hlatest
  cases htable : db.migrated with
  | none =>
      rw [htable] at hlatest
      cases hlatest
  | some table =>
      rw [htable] at hlatest
      have hmax := List.max?_eq_some_iff.mp (Except.ok.inj hlatest)
      have hversions : db.versions = table.keys := by
        rw [Database.versions, htable, Option.getD_some]
      obtain ⟨m, hmem, hversion⟩ := List.mem_map.mp ((h.versions version).mp (hversions ▸ hmax.1))
      obtain ⟨k, hk⟩ := List.mem_iff_getElem?.mp hmem
      rw [List.getElem?_take] at hk
      split at hk
      next hlt =>
        obtain ⟨hklt, hkm⟩ := List.getElem?_eq_some_iff.mp hk
        refine ⟨k, m, ?_, hk, hversion⟩
        by_contra hmore
        -- a migration after it would be on record with a higher version
        have hbound := h.bound
        have hnext : k + 1 < migrations.list.length := by omega
        have hrecorded : migrations.list[k + 1].version ∈ db.versions :=
          (h.mem_versions (List.getElem?_eq_getElem hnext)).mpr (by omega)
        have hle := hmax.2 _ (hversions ▸ hrecorded)
        have hlater := List.pairwise_iff_getElem.mp migrations.sorted k (k + 1) hklt hnext
          (Nat.lt_succ_self k)
        rw [hkm, hversion] at hlater
        exact absurd hle (Int.not_le.mpr hlater)
      next => cases hk

/-- Reverting the last of the first migrations succeeds. -/
theorem UpTo.revert (h : migrations.UpTo (n + 1) db) {m : Migration σ}
    (hm : migrations.list[n]? = some m) :
    (db.revert migrations.down m).2 = .ok () ∧
      migrations.UpTo n (db.revert migrations.down m).1 := by
  have htake : migrations.list.take (n + 1) = migrations.list.take n ++ [m] := by
    rw [List.take_add_one, hm, Option.toList_some]
  have hbefore : ∃ contents, upAll (migrations.list.take n) migrations.empty = .ok contents ∧
      m.up contents = .ok db.contents := by
    have hcontents := h.contents
    rw [htake, upAll, List.foldlM_append] at hcontents
    obtain ⟨contents, hfirst, hlast⟩ := Fallible.bind_eq_ok.mp hcontents
    rw [List.foldlM_cons] at hlast
    obtain ⟨contents', hup, heq⟩ := Fallible.bind_eq_ok.mp hlast
    cases heq
    exact ⟨contents, hfirst, hup⟩
  obtain ⟨contents, hfirst, hup⟩ := hbefore
  unfold Database.revert
  rw [migrations.undoes n m contents db.contents hm hfirst hup]
  refine ⟨rfl, Nat.le_of_succ_le h.bound, fun version => ?_, hfirst⟩
  have herase : version ∈
      ((db.migrated.map fun table => AList.erase m.version table).getD ∅).keys ↔
      version ≠ m.version ∧ version ∈ db.versions := by
    unfold Database.versions
    cases db.migrated with
    | none => simp
    | some table =>
        rw [Option.map_some, Option.getD_some, Option.getD_some, ← AList.mem_keys,
          AList.mem_erase, AList.mem_keys]
  change version ∈ ((db.migrated.map fun table => AList.erase m.version table).getD ∅).keys ↔ _
  rw [herase, h.versions, htake, List.map_append, List.mem_append,
    List.map_singleton, List.mem_singleton]
  constructor
  · rintro ⟨hne, hmem | heq⟩
    · exact hmem
    · exact absurd heq hne
  · intro hmem
    refine ⟨?_, Or.inl hmem⟩
    rintro rfl
    obtain ⟨m', hmem', hversion⟩ := List.mem_map.mp hmem
    obtain ⟨j, hj⟩ := List.mem_iff_getElem?.mp hmem'
    rw [List.getElem?_take] at hj
    split at hj
    next hlt => exact absurd (version_injective hj hm hversion) (Nat.ne_of_lt hlt)
    next => cases hj

/-- The release finds the migration if it knows it. -/
theorem find?_released {k release : Nat} {m : Migration σ} (hm : migrations.list[k]? = some m) :
    ((migrations.list.take release).find? fun m' => m'.version = m.version) =
      if k < release then some m else none := by
  split
  next hknown =>
    cases hfind : (migrations.list.take release).find? fun m' => m'.version = m.version with
    | none =>
        have hmem : m ∈ migrations.list.take release :=
          List.mem_iff_getElem?.mpr ⟨k, by rw [List.getElem?_take_of_lt hknown, hm]⟩
        exact absurd (decide_eq_true rfl) (List.find?_eq_none.mp hfind m hmem)
    | some m' =>
        have hversion := List.find?_some hfind
        rw [decide_eq_true_eq] at hversion
        obtain ⟨j, hj⟩ := List.mem_iff_getElem?.mp
          (List.mem_of_mem_take (List.mem_of_find?_eq_some hfind))
        rw [version_injective hj hm hversion, hm] at hj
        rw [Option.some.inj hj]
  next hunknown =>
    refine List.find?_eq_none.mpr fun m' hmem hversion => ?_
    rw [decide_eq_true_eq] at hversion
    obtain ⟨j, hj⟩ := List.mem_iff_getElem?.mp hmem
    rw [List.getElem?_take] at hj
    split at hj
    next hlt =>
      rw [version_injective hj hm hversion] at hlt
      exact hunknown hlt
    next => cases hj

theorem UpTo.revertVersion (h : migrations.UpTo (n + 1) db) {m : Migration σ}
    (hm : migrations.list[n]? = some m) (release : Nat) :
    (Store.revertVersion (migrations.list.take release) m.version).Spec
      (performRollback migrations.down) (fun _ _ _ => True) migrations.Recorded
      (fun db _ => migrations.Recorded db) db := by
  unfold Store.revertVersion
  rw [find?_released hm]
  split
  · obtain ⟨hok, hdone⟩ := h.revert hm
    refine ⟨⟨n + 1, h⟩, fun _ _ => ?_⟩
    unfold performRollback
    dsimp only
    rw [hok]
    exact ⟨n, hdone⟩
  · exact ⟨n + 1, h⟩

theorem UpTo.rollback (h : migrations.UpTo n db) (release : Nat) :
    (Store.rollback (migrations.list.take release)).Spec (performRollback migrations.down)
      (fun _ _ _ => True) migrations.Recorded (fun db _ => migrations.Recorded db) db := by
  refine ⟨⟨n, h⟩, fun _ _ => ?_⟩
  unfold performRollback
  dsimp only
  cases hlatest : db.latest with
  | error cause => exact ⟨n, h⟩
  | ok latest =>
      cases latest with
      | none => exact ⟨n, h⟩
      | some version =>
          obtain ⟨k, m, rfl, hm, hversion⟩ := h.latest hlatest
          subst hversion
          exact h.revertVersion hm release

/-! ## Runs -/

theorem recorded_of_endsIn {ε α : Type} {result : Database σ × Ending ε α}
    (h : EndsIn migrations.Recorded (fun db _ => migrations.Recorded db) result) :
    migrations.Recorded result.1 := by
  rcases h.cases with ⟨-, hduring⟩ | ⟨ending, hafter⟩
  · exact hduring
  · exact hafter

theorem Recorded.maintain (h : migrations.Recorded db) (maintenance : Maintenance) :
    migrations.Recorded (migrations.maintain db maintenance) := by
  obtain ⟨n, h⟩ := h
  cases maintenance with
  | migrate release script =>
      exact recorded_of_endsIn ((h.migrate release).run
        (obeys_of_forall _ (fun _ _ _ _ _ => trivial) db))
  | rollback release script =>
      exact recorded_of_endsIn ((h.rollback release).run
        (obeys_of_forall _ (fun _ _ _ _ _ => trivial) db))

theorem Recorded.run (h : migrations.Recorded db) (maintenances : List Maintenance) :
    migrations.Recorded (maintenances.foldl migrations.maintain db) := by
  induction maintenances generalizing db with
  | nil => exact h
  | cons maintenance rest ih => exact ih (h.maintain maintenance)

/-- The script of a run that is not cut off. -/
def uninterrupted : Script Unit := fun _ => some ()

/-- What is on record has a last version. -/
theorem UpTo.latest_eq (h : migrations.UpTo (n + 1) db) {m : Migration σ}
    (hm : migrations.list[n]? = some m) : db.latest = .ok (some m.version) := by
  have hrecorded : m.version ∈ db.versions := (h.mem_versions hm).mpr (Nat.lt_succ_self n)
  cases htable : db.migrated with
  | none =>
      rw [Database.versions, htable] at hrecorded
      cases hrecorded
  | some table =>
      rw [Database.versions, htable, Option.getD_some] at hrecorded
      cases hmax : table.keys.max? with
      | none =>
          rw [List.max?_eq_none_iff.mp hmax] at hrecorded
          cases hrecorded
      | some version =>
          have hlatest : db.latest = .ok (some version) := by
            rw [Database.latest, htable]
            exact congrArg Except.ok hmax
          obtain ⟨k, m', hk, hm', hversion⟩ := h.latest hlatest
          cases hk
          rw [hm] at hm'
          cases hm'
          rw [hlatest, hversion]

section Uninterrupted

variable {down : Migration σ → σ → Except SqlError σ}

/-- What a rollback that is not cut off comes to. -/
theorem rollback_run (list : List (Migration σ)) :
    (Store.rollback list).run (performRollback down) uninterrupted db =
      match db.latest with
      | .error cause => (db, .error (.readLatest cause))
      | .ok none => (db, .value 0)
      | .ok (some version) =>
          (Store.revertVersion list version).run (performRollback down) uninterrupted db := by
  have hask : ∀ next, (ask RollbackCall.latest >>= next : RollingBack σ Int).run
      (performRollback down) uninterrupted db =
        (next db.latest).run (performRollback down) uninterrupted db := fun _ => rfl
  unfold Store.rollback
  rw [hask]
  cases db.latest with
  | error cause => rfl
  | ok latest => cases latest <;> rfl

theorem revertVersion_run {list : List (Migration σ)} {version : Int} :
    (Store.revertVersion list version).run (performRollback down) uninterrupted db =
      match list.find? fun m => m.version = version with
      | none => (db, .error (.unknown version))
      | some m =>
          ((db.revert down m).1, match (db.revert down m).2 with
            | .error cause => .error cause
            | .ok () => .value version) := by
  unfold Store.revertVersion
  cases list.find? fun m => m.version = version with
  | none => rfl
  | some m =>
      have hask : ∀ next, (ask (RollbackCall.revert m) >>= next : RollingBack σ Int).run
          (performRollback down) uninterrupted db =
            (next (db.revert down m).2).run (performRollback down) uninterrupted
              (db.revert down m).1 := fun _ => rfl
      change (ask (RollbackCall.revert m) >>= _ : RollingBack σ Int).run _ _ _ = _
      rw [hask]
      dsimp only
      cases (db.revert down m).2 <;> rfl

end Uninterrupted

theorem UpTo.revertedVersion (h : migrations.UpTo (n + 1) db) {m : Migration σ}
    (hm : migrations.list[n]? = some m) (release : Nat) :
    migrations.UpTo (if n + 1 ≤ release then n + 1 - 1 else n + 1)
      ((Store.revertVersion (migrations.list.take release) m.version).run
        (performRollback migrations.down) uninterrupted db).1 := by
  rw [revertVersion_run, find?_released hm]
  by_cases hknown : n < release
  · rw [if_pos hknown, if_pos (Nat.succ_le_of_lt hknown)]
    exact (h.revert hm).2
  · rw [if_neg hknown, if_neg fun hlt => hknown (Nat.lt_of_succ_le hlt)]
    exact h

/-- A rollback that is not cut off takes the last migration back, if its release knows it. -/
theorem UpTo.rolledBack (h : migrations.UpTo n db) (release : Nat) :
    migrations.UpTo (if n ≤ release then n - 1 else n)
      (migrations.maintain db (.rollback release uninterrupted)) := by
  unfold Reversible.maintain
  dsimp only
  rw [rollback_run]
  cases n with
  | zero =>
      rw [Nat.zero_sub, ite_self]
      cases hlatest : db.latest with
      | error cause => exact h
      | ok latest =>
          cases latest with
          | none => exact h
          | some version =>
              obtain ⟨k, -, hk, -⟩ := h.latest hlatest
              exact absurd hk.symm (Nat.succ_ne_zero k)
  | succ n =>
      have hm := List.getElem?_eq_getElem (Nat.lt_of_succ_le h.bound)
      rw [h.latest_eq hm]
      exact h.revertedVersion hm release

/-- However runs of `Migrate` and `Rollback` follow each other, of whatever releases, and
wherever they are cut off: the versions on record are those of the first migrations, and the
contents are what these make of an empty database. A rollback takes the last one back. -/
theorem schema_recorded (migrations : Reversible σ) (maintenances : List Maintenance) :
    ∃ n, migrations.UpTo n (maintenances.foldl migrations.maintain ⟨none, migrations.empty⟩) ∧
      ∀ release, migrations.UpTo (if n ≤ release then n - 1 else n)
        (migrations.maintain (maintenances.foldl migrations.maintain ⟨none, migrations.empty⟩)
          (.rollback release uninterrupted)) := by
  obtain ⟨n, h⟩ := Recorded.run ⟨0, UpTo.initial⟩ maintenances
  exact ⟨n, h, h.rolledBack⟩

end Reversible

theorem counting_undoes (n : Nat) (m : Migration Nat) (contents contents' : Nat)
    (hm : counting.list[n]? = some m) (_ : upAll (counting.list.take n) 0 = .ok contents)
    (hup : m.up contents = .ok contents') :
    (.ok (contents' - 1) : Except SqlError Nat) = .ok contents := by
  have hcounts : m.up contents = .ok (contents + 1) := by
    rcases List.mem_cons.mp (List.mem_of_getElem? hm) with rfl | hmem
    · rfl
    · rw [List.mem_singleton.mp hmem]
  rw [hcounts] at hup
  cases hup
  rfl

/-- The migrations that each count one up, and count one down again. -/
def countingBack : Reversible Nat where
  toMigrations := counting
  down _ count := .ok (count - 1)
  empty := 0
  undoes := counting_undoes

open Reversible

/-- A start that is cut off after the first migration, a complete one, and two rollbacks, of
which the older release refuses the second migration. -/
def countedMaintenances : List Maintenance :=
  [.migrate 2 (uninterrupted.cut 3), .migrate 2 uninterrupted, .rollback 1 uninterrupted,
    .rollback 2 uninterrupted]

/-- One migration is left, and a further rollback takes it back. -/
theorem schema_recorded_counting :
    let db := countedMaintenances.foldl countingBack.maintain ⟨none, 0⟩
    db.versions = [1] ∧ db.contents = 1 ∧
      ∃ n, countingBack.UpTo n db ∧ ∀ release,
        countingBack.UpTo (if n ≤ release then n - 1 else n)
          (countingBack.maintain db (.rollback release uninterrupted)) := by
  refine ⟨by decide, by decide, ?_⟩
  exact Reversible.schema_recorded countingBack countedMaintenances

end Harbormaster.Store
