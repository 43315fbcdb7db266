import Harbormaster.Foundation.Fallible
import Harbormaster.Foundation.Interleaving
import Harbormaster.Foundation.Table
import Mathlib.Data.Bool.Basic

/-! # Migrations

`Migrate` of `go/internal/store`. A run creates the table of the applied
versions if there is none, reads it once, and applies every migration it did not
find there, in version order. A migration and the row that records it commit in
one transaction, which the primary key of the table lets commit once.
-/

namespace Harbormaster.Store

open Effect Program Keyed

inductive SqlError where
  | undefinedTable | uniqueViolation
  | statement (text : String)
deriving DecidableEq, Repr

/-- A migration of a database with contents in `σ`. -/
structure Migration (σ : Type) where
  version : Int
  name : String
  up : σ → Except SqlError σ

/-- What `LoadMigrations` returns: one migration for each version, in order. -/
structure Migrations (σ : Type) where
  list : List (Migration σ)
  sorted : list.Pairwise fun earlier later => earlier.version < later.version

/-- A database: the table `schema_migration`, once it exists, and what the
migrations have made of the rest. -/
structure Database (σ : Type) where
  migrated : Option (Table Int String)
  contents : σ

/-- Why a run failed. -/
inductive Cause where
  | readApplied (cause : SqlError)
  | apply (version : Int) (name : String) (cause : SqlError)
  | record (version : Int) (cause : SqlError)
deriving DecidableEq, Repr

/-- The statements and transactions of a run. -/
inductive Call (σ : Type) where
  | createTable
  | appliedVersions
  | applyOne (m : Migration σ)

def Reply {σ : Type} : Call σ → Type
  | .createTable => Unit
  | .appliedVersions => Except SqlError (List Int)
  | .applyOne _ => Except Cause Unit

/-- A run that fails returns what it had applied with its error. -/
structure Failure where
  applied : List Int
  cause : Cause
deriving DecidableEq, Repr

abbrev Migrating (σ : Type) := Program (Call σ) Reply Failure

section Source

variable {σ : Type}

/-- The loop over the migrations. -/
def applyAll (versions : List Int) : List (Migration σ) → List Int → Migrating σ (List Int)
  | [], applied => .done applied
  | m :: rest, applied =>
      if m.version ∈ versions then applyAll versions rest applied
      else .call (.applyOne m) fun
        | .error cause => .fail ⟨applied, cause⟩
        | .ok () => applyAll versions rest (applied ++ [m.version])

def migrate (migrations : Migrations σ) : Migrating σ (List Int) := do
  let _ ← ask Call.createTable
  match ← ask Call.appliedVersions with
  | .error cause => .fail ⟨[], .readApplied cause⟩
  | .ok versions => applyAll versions migrations.list []

/-- A transaction that fails leaves the database as it was. -/
def Database.applyOne (db : Database σ) (m : Migration σ) : Database σ × Except Cause Unit :=
  match m.up db.contents with
  | .error cause => (db, .error (.apply m.version m.name cause))
  | .ok contents =>
      match db.migrated with
      | none => (db, .error (.record m.version .undefinedTable))
      | some table =>
          match table.lookup m.version with
          | some _ => (db, .error (.record m.version .uniqueViolation))
          | none => (⟨some (table.insert m.version m.name), contents⟩, .ok ())

def perform (db : Database σ) (_ : Unit) : (request : Call σ) → Database σ × Reply request
  | .createTable => ({ db with migrated := some (db.migrated.getD ∅) }, ())
  | .appliedVersions =>
      (db, match db.migrated with
        | none => .error .undefinedTable
        | some table => .ok table.keys)
  | .applyOne m => db.applyOne m

/-- What two runs have left to do, and their database. -/
abbrev Runs (σ : Type) := Pool Bool (Call σ) Reply Failure (List Int) × Database σ

/-- One run makes its next call. -/
def turn (state : Runs σ) (who : Bool) : Runs σ := Pool.step perform state (who, ())

/-- Two runs that start together. -/
def together (migrations : Migrations σ) (db : Database σ) : Runs σ :=
  (fun _ => migrate migrations, db)

end Source

/-! ## What the runs should come to -/

section Statement

variable {σ : Type}

/-- The run returned without an error. -/
def Succeeded : Migrating σ (List Int) → Prop
  | .done _ => True
  | _ => False

/-- The versions on record as applied. -/
def Database.versions (db : Database σ) : List Int := (db.migrated.getD ∅).keys

/-- The migrations that a database lacks, in order. -/
def pending (migrations : Migrations σ) (db : Database σ) : List (Migration σ) :=
  migrations.list.filter fun m => m.version ∉ db.versions

/-- What migrations make of the contents of a database, in order. -/
def upAll (ms : List (Migration σ)) (contents : σ) : Except SqlError σ :=
  ms.foldlM (fun contents m => m.up contents) contents

/-- The migrations that a database lacks can be applied to it, in order. -/
def Applicable (migrations : Migrations σ) (db : Database σ) : Prop :=
  ∃ contents, upAll (pending migrations db) db.contents = .ok contents

/-- Every migration the database lacked was applied to it once, in order, and
every migration is on record. -/
structure AppliedOnce (migrations : Migrations σ) (db db' : Database σ) : Prop where
  contents : upAll (pending migrations db) db.contents = .ok db'.contents
  recorded : ∀ m ∈ migrations.list, m.version ∈ db'.versions

/-- The run has yet to read the applied versions. -/
def unread : Migrating σ (List Int) → Bool
  | .call .createTable _ => true
  | .call .appliedVersions _ => true
  | _ => false

/-- The run is about to read the applied versions. -/
def reading : Migrating σ (List Int) → Bool
  | .call .appliedVersions _ => true
  | _ => false

/-- Of the two runs, the second to read the applied versions finds every
migration among them. -/
def Served (migrations : Migrations σ) (state : Runs σ) (who : Bool) : Prop :=
  reading (state.1 who) = true → unread (state.1 !who) = false →
    ∀ m ∈ migrations.list, m.version ∈ state.2.versions

end Statement

/-! ## Where a run stands -/

section Standing

variable {σ : Type}

theorem upAll_cons (m : Migration σ) (rest : List (Migration σ)) (contents : σ) :
    upAll (m :: rest) contents = m.up contents >>= upAll rest :=
  rfl

theorem upAll_append {ms : List (Migration σ)} {contents contents' : σ}
    (h : upAll ms contents = .ok contents') (later : List (Migration σ)) :
    upAll (ms ++ later) contents = upAll later contents' := by
  unfold upAll at *
  rw [List.foldlM_append, h]
  rfl

/-- The run is to apply these migrations. -/
def At (rest : List (Migration σ)) (program : Migrating σ (List Int)) : Prop :=
  ∃ versions ms applied, program = applyAll versions ms applied ∧
    ms.filter (fun m => m.version ∉ versions) = rest

/-- A run that has nothing to apply has succeeded. -/
theorem At.done {program : Migrating σ (List Int)} (h : At [] program) :
    ∃ applied, program = .done applied := by
  obtain ⟨versions, ms, applied, rfl, hrest⟩ := h
  refine ⟨applied, ?_⟩
  induction ms with
  | nil => rfl
  | cons m rest ih =>
      by_cases hm : m.version ∈ versions
      · rw [applyAll, if_pos hm]
        exact ih (by simpa [hm] using hrest)
      · simp [hm] at hrest

/-- A run that has something to apply is about to apply the first of it. -/
theorem At.next {m : Migration σ} {rest : List (Migration σ)} {program : Migrating σ (List Int)}
    (h : At (m :: rest) program) :
    ∃ resume, program = .call (.applyOne m) resume ∧ At rest (resume (.ok ())) ∧
      ∀ cause, ∃ failure, resume (.error cause) = .fail failure := by
  obtain ⟨versions, ms, applied, rfl, hrest⟩ := h
  induction ms with
  | nil => cases hrest
  | cons first later ih =>
      by_cases hm : first.version ∈ versions
      · rw [applyAll, if_pos hm]
        exact ih (by simpa [hm] using hrest)
      · rw [List.filter_cons_of_pos (by simpa using hm)] at hrest
        obtain ⟨rfl, hlater⟩ := List.cons.inj hrest
        rw [applyAll, if_neg hm]
        exact ⟨_, rfl, ⟨versions, later, _, rfl, hlater⟩, fun cause => ⟨_, rfl⟩⟩

variable {migrations : Migrations σ} {origin db : Database σ} {past future : List (Migration σ)}

/-- Some of what the database lacked has been applied, in order, and the rest is
to come. -/
structure Progress (migrations : Migrations σ) (origin : Database σ)
    (past future : List (Migration σ)) (db : Database σ) : Prop where
  split : pending migrations origin = past ++ future
  contents : upAll past origin.contents = .ok db.contents
  recorded : ∀ version, version ∈ db.versions ↔
    version ∈ origin.versions ∨ version ∈ past.map Migration.version

/-- The run has yet to read the applied versions, from a table that exists by then. -/
def Early (migrations : Migrations σ) (db : Database σ) (program : Migrating σ (List Int)) : Prop :=
  program = migrate migrations ∨
    db.migrated.isSome ∧ ∃ resume, program = .call .appliedVersions resume ∧
      ∀ versions, resume (.ok versions) = applyAll versions migrations.list []

/-- The run is to apply what is to come. -/
def Current (future : List (Migration σ)) (db : Database σ) (program : Migrating σ (List Int)) :
    Prop :=
  db.migrated.isSome ∧ At future program

/-- The run is to apply a migration that was applied since it read the versions. -/
def Late (db : Database σ) (program : Migrating σ (List Int)) : Prop :=
  ∃ m rest, At (m :: rest) program ∧ m.version ∈ db.versions

def Failed (program : Migrating σ (List Int)) : Prop := ∃ failure, program = .fail failure

inductive Standing (migrations : Migrations σ) (future : List (Migration σ)) (db : Database σ)
    (program : Migrating σ (List Int)) : Prop where
  | early (h : Early migrations db program)
  | current (h : Current future db program)
  | late (h : Late db program)
  | failed (h : Failed program)

theorem Progress.start : Progress migrations db [] (pending migrations db) db where
  split := rfl
  contents := rfl
  recorded := by simp

theorem Progress.sorted (h : Progress migrations origin past future db) :
    (past ++ future).Pairwise fun earlier later => earlier.version < later.version := by
  rw [← h.split]
  exact migrations.sorted.sublist List.filter_sublist

/-- What is to come is not on record. -/
theorem Progress.fresh {m : Migration σ} {rest : List (Migration σ)}
    (h : Progress migrations origin past (m :: rest) db) : m.version ∉ db.versions := by
  have hmem : m ∈ pending migrations origin := by
    rw [h.split]
    exact List.mem_append_right _ List.mem_cons_self
  rw [h.recorded]
  rintro (horigin | hpast)
  · simpa [horigin] using (List.mem_filter.mp hmem).2
  · obtain ⟨earlier, hearlier, heq⟩ := List.mem_map.mp hpast
    have hlt := (List.pairwise_append.mp h.sorted).2.2 earlier hearlier m List.mem_cons_self
    rw [heq] at hlt
    exact Int.lt_irrefl _ hlt

/-- What a run finds missing when it reads the versions is what is to come. -/
theorem Progress.missing (h : Progress migrations origin past future db) :
    migrations.list.filter (fun m => m.version ∉ db.versions) = future := by
  have hafter := (List.pairwise_append.mp h.sorted).2.2
  calc migrations.list.filter (fun m => m.version ∉ db.versions)
      = (pending migrations origin).filter fun m => m.version ∉ past.map Migration.version := by
        rw [pending, List.filter_filter]
        apply List.filter_congr
        intro m _
        rw [← Bool.decide_and, decide_eq_decide, h.recorded, not_or]
        exact and_comm
    _ = (past ++ future).filter fun m => m.version ∉ past.map Migration.version := by
        rw [h.split]
    _ = future := by
        rw [List.filter_append, List.filter_eq_nil_iff.mpr, List.nil_append,
          List.filter_eq_self.mpr]
        · intro m hmem
          rw [decide_eq_true_eq, List.mem_map]
          rintro ⟨earlier, hearlier, heq⟩
          exact Int.ne_of_lt (hafter earlier hearlier m hmem) heq
        · intro m hmem
          simp only [decide_eq_true_eq, not_not]
          exact List.mem_map_of_mem hmem

/-- When what the database lacked can be applied to it, so can the next of it. -/
theorem Progress.next {m : Migration σ} {rest : List (Migration σ)}
    (h : Progress migrations origin past (m :: rest) db)
    (happlicable : Applicable migrations origin) :
    ∃ contents, m.up db.contents = .ok contents := by
  obtain ⟨final, hfinal⟩ := happlicable
  rw [h.split, upAll_append h.contents, upAll_cons, Fallible.bind_eq_ok] at hfinal
  obtain ⟨contents, hup, _⟩ := hfinal
  exact ⟨contents, hup⟩

theorem Progress.apply {m : Migration σ} {rest : List (Migration σ)} {contents : σ}
    (h : Progress migrations origin past (m :: rest) db) (htable : db.migrated.isSome)
    (hup : m.up db.contents = .ok contents) :
    ∃ db', db.applyOne m = (db', .ok ()) ∧ db'.migrated.isSome ∧
      Progress migrations origin (past ++ [m]) rest db' := by
  obtain ⟨table, htable⟩ := Option.isSome_iff_exists.mp htable
  have hfresh := h.fresh
  rw [Database.versions, htable, Option.getD_some, ← AList.mem_keys, ← AList.lookup_isSome,
    Bool.not_eq_true, Option.isSome_eq_false_iff, Option.isNone_iff_eq_none] at hfresh
  refine ⟨⟨some (table.insert m.version m.name), contents⟩, ?_, rfl, ?_, ?_, ?_⟩
  · unfold Database.applyOne
    rw [hup, htable]
    dsimp only
    rw [hfresh]
  · rw [h.split, List.append_assoc]
    rfl
  · rw [upAll_append h.contents, upAll_cons, hup]
    rfl
  · intro version
    have hold := h.recorded version
    rw [Database.versions, htable, Option.getD_some] at hold
    rw [Database.versions, Option.getD_some, ← AList.mem_keys, AList.mem_insert, AList.mem_keys,
      hold, List.map_append, List.mem_append, List.map_singleton, List.mem_singleton]
    exact or_comm.trans or_assoc

/-! ### One turn -/

section Turn

variable {program other : Migrating σ (List Int)} {db' : Database σ}

/-- The database has kept its table and the versions in it. -/
structure Grown (db db' : Database σ) : Prop where
  table : db.migrated.isSome → db'.migrated.isSome
  versions : db.versions ⊆ db'.versions

theorem Early.grow (h : Early migrations db program) (hgrown : Grown db db') :
    Early migrations db' program :=
  h.imp_right fun hreading => ⟨hgrown.table hreading.1, hreading.2⟩

theorem Current.grow (h : Current future db program) (hgrown : Grown db db') :
    Current future db' program :=
  ⟨hgrown.table h.1, h.2⟩

theorem Late.grow (h : Late db program) (hgrown : Grown db db') : Late db' program := by
  obtain ⟨m, rest, hat, hrecorded⟩ := h
  exact ⟨m, rest, hat, hgrown.versions hrecorded⟩

theorem Standing.grow (h : Standing migrations future db program) (hgrown : Grown db db') :
    Standing migrations future db' program := by
  cases h with
  | early hearly => exact .early (hearly.grow hgrown)
  | current hcurrent => exact .current (hcurrent.grow hgrown)
  | late hlate => exact .late (hlate.grow hgrown)
  | failed hfailed => exact .failed hfailed

/-- The run beside one that has applied what was to come next. -/
theorem Standing.overtake {future' : List (Migration σ)}
    (h : Standing migrations future db program) (hgrown : Grown db db')
    (hlate : Current future db program → Late db' program) :
    Standing migrations future' db' program := by
  cases h with
  | early hearly => exact .early (hearly.grow hgrown)
  | current hcurrent => exact .late (hlate hcurrent)
  | late hlate => exact .late (hlate.grow hgrown)
  | failed hfailed => exact .failed hfailed

theorem Current.read (h : Current future db program) :
    reading program = false ∧ unread program = false := by
  cases future with
  | nil =>
      obtain ⟨applied, rfl⟩ := h.2.done
      exact ⟨rfl, rfl⟩
  | cons m rest =>
      obtain ⟨resume, rfl, _⟩ := h.2.next
      exact ⟨rfl, rfl⟩

theorem Early.unread (h : Early migrations db program) : unread program = true := by
  obtain rfl | ⟨_, resume, rfl, _⟩ := h
  · rfl
  · rfl

/-- A run that has yet to read the versions creates the table or reads them. -/
theorem Early.advance (h : Early migrations db program)
    (hprogress : Progress migrations origin past future db) :
    ∃ program' db', program.advance perform () db = (program', db') ∧ Grown db db' ∧
      Progress migrations origin past future db' ∧
      (reading program = false ∧ Early migrations db' program' ∨
        reading program = true ∧ Current future db' program') := by
  obtain rfl | ⟨htable, resume, rfl, hresume⟩ := h
  · have hversions : ({ db with migrated := some (db.migrated.getD ∅) } : Database σ).versions =
        db.versions := rfl
    refine ⟨_, _, rfl, ⟨fun _ => rfl, List.Subset.refl _⟩,
      ⟨hprogress.split, hprogress.contents, ?_⟩,
      .inl ⟨rfl, .inr ⟨rfl, _, rfl, fun versions => rfl⟩⟩⟩
    exact hprogress.recorded
  · obtain ⟨table, htable'⟩ := Option.isSome_iff_exists.mp htable
    refine ⟨applyAll db.versions migrations.list [], db, ?_, ⟨id, List.Subset.refl _⟩, hprogress,
      .inr ⟨rfl, htable, db.versions, migrations.list, [], rfl, hprogress.missing⟩⟩
    rw [← hresume]
    simp [Program.advance, perform, htable', Database.versions]

/-- A run that is up to date applies the next migration, and a run that was up to
date beside it is late. -/
theorem Current.advance {m : Migration σ} {rest : List (Migration σ)} {contents : σ}
    (h : Current (m :: rest) db program)
    (hprogress : Progress migrations origin past (m :: rest) db)
    (hup : m.up db.contents = .ok contents) :
    ∃ program' db', program.advance perform () db = (program', db') ∧ Grown db db' ∧
      Progress migrations origin (past ++ [m]) rest db' ∧ Current rest db' program' ∧
      ∀ other, Current (m :: rest) db other → Late db' other := by
  obtain ⟨htable, hat⟩ := h
  obtain ⟨resume, rfl, hok, _⟩ := hat.next
  obtain ⟨db', happly, htable', hprogress'⟩ := hprogress.apply htable hup
  refine ⟨resume (.ok ()), db', ?_, ⟨fun _ => htable', ?_⟩, hprogress', ⟨htable', hok⟩, ?_⟩
  · simp [Program.advance, perform, happly]
  · intro version hold
    rw [hprogress'.recorded, List.map_append, List.mem_append, ← or_assoc,
      ← hprogress.recorded]
    exact .inl hold
  · intro other hother
    refine ⟨m, rest, hother.2, ?_⟩
    rw [hprogress'.recorded]
    exact .inr (List.mem_map_of_mem (List.mem_append_right _ List.mem_cons_self))

/-- A run whose next migration cannot be applied fails. -/
theorem At.refused {m : Migration σ} {rest : List (Migration σ)} {cause : Cause}
    (h : At (m :: rest) program) (happly : db.applyOne m = (db, .error cause)) :
    ∃ program', program.advance perform () db = (program', db) ∧ Failed program' := by
  obtain ⟨resume, rfl, _, herror⟩ := h.next
  obtain ⟨failure, hfailure⟩ := herror cause
  refine ⟨resume (.error cause), ?_, failure, hfailure⟩
  simp [Program.advance, perform, happly]

/-- A late run fails, and leaves the database as it is. -/
theorem Late.advance (h : Late db program) :
    ∃ program', program.advance perform () db = (program', db) ∧ Failed program' := by
  obtain ⟨m, rest, hat, hrecorded⟩ := h
  obtain ⟨cause, happly⟩ : ∃ cause, db.applyOne m = (db, .error cause) := by
    unfold Database.applyOne
    split
    next => exact ⟨_, rfl⟩
    next contents hup =>
      split
      next => exact ⟨_, rfl⟩
      next table htable =>
        rw [Database.versions, htable, Option.getD_some, ← AList.mem_keys, ← AList.lookup_isSome]
          at hrecorded
        split
        next => exact ⟨_, rfl⟩
        next hnone =>
          rw [hnone] at hrecorded
          cases hrecorded
  exact hat.refused happly

end Turn

/-! ### Both runs

The predicates are about the run that has the next turn and the other one. -/

section Both

variable (migrations : Migrations σ) (origin db : Database σ)
variable (program other : Migrating σ (List Int))

/-- One run has yet to read the versions, and the other is not behind. -/
def Solo : Prop :=
  ∃ past future, Progress migrations origin past future db ∧
    (Early migrations db program ∨ Current future db program) ∧
    (Early migrations db other ∨ Current future db other) ∧
    (Early migrations db program ∨ Early migrations db other)

/-- Both runs have read the versions, and nothing is to come. -/
def Settled : Prop :=
  ∃ past, Progress migrations origin past [] db ∧ Current [] db program ∧ Current [] db other

/-- The run is bound to fail, beside one that is up to date. -/
def Stuck (future : List (Migration σ)) (db : Database σ) (program : Migrating σ (List Int)) :
    Prop :=
  Current future db program ∧ future ≠ [] ∨ Late db program ∨ Failed program

/-- One run is up to date, and the other is bound to fail beside it. -/
def Clash : Prop :=
  ∃ past future, Progress migrations origin past future db ∧
    (Current future db program ∧ Stuck future db other ∨
      Current future db other ∧ Stuck future db program)

/-- The condition of `Served`, for the run that has the next turn. -/
def ServedTurn : Prop :=
  reading program = true → unread other = false → ∀ m ∈ migrations.list, m.version ∈ db.versions

variable {migrations origin db program other}

theorem Solo.symm (h : Solo migrations origin db program other) :
    Solo migrations origin db other program := by
  obtain ⟨past, future, hprogress, hprogram, hother, hearly⟩ := h
  exact ⟨past, future, hprogress, hother, hprogram, hearly.symm⟩

theorem Settled.symm (h : Settled migrations origin db program other) :
    Settled migrations origin db other program := by
  obtain ⟨past, hprogress, hprogram, hother⟩ := h
  exact ⟨past, hprogress, hother, hprogram⟩

theorem Clash.symm (h : Clash migrations origin db program other) :
    Clash migrations origin db other program := by
  obtain ⟨past, future, hprogress, hboth⟩ := h
  exact ⟨past, future, hprogress, hboth.symm⟩

/-- Nothing is to come when every migration is on record, and only then. -/
theorem Progress.complete (h : Progress migrations origin past future db) :
    future = [] ↔ ∀ m ∈ migrations.list, m.version ∈ db.versions := by
  rw [← h.missing, List.filter_eq_nil_iff]
  simp

theorem Clash.advance (happlicable : Applicable migrations origin)
    (h : Clash migrations origin db program other) :
    Clash migrations origin (program.advance perform () db).2
      (program.advance perform () db).1 other := by
  obtain ⟨past, future, hprogress, ⟨hcurrent, hstuck⟩ | ⟨hcurrent, hstuck⟩⟩ := h
  · cases future with
    | nil =>
        obtain ⟨applied, rfl⟩ := hcurrent.2.done
        exact ⟨past, [], hprogress, .inl ⟨hcurrent, hstuck⟩⟩
    | cons m rest =>
        obtain ⟨contents, hup⟩ := hprogress.next happlicable
        obtain ⟨program', db', hadvance, hgrown, hprogress', hcurrent', hlate⟩ :=
          hcurrent.advance hprogress hup
        rw [hadvance]
        refine ⟨_, rest, hprogress', .inl ⟨hcurrent', .inr ?_⟩⟩
        obtain ⟨hother, _⟩ | hother | hother := hstuck
        · exact .inl (hlate other hother)
        · exact .inl (hother.grow hgrown)
        · exact .inr hother
  · obtain ⟨hcurrent', hrest⟩ | hlate | ⟨failure, rfl⟩ := hstuck
    · obtain ⟨m, rest, rfl⟩ := List.exists_cons_of_ne_nil hrest
      obtain ⟨contents, hup⟩ := hprogress.next happlicable
      obtain ⟨program', db', hadvance, hgrown, hprogress', hcurrent'', hlate⟩ :=
        hcurrent'.advance hprogress hup
      rw [hadvance]
      exact ⟨_, rest, hprogress', .inl ⟨hcurrent'', .inr (.inl (hlate other hcurrent))⟩⟩
    · obtain ⟨program', hadvance, hfailed⟩ := hlate.advance
      rw [hadvance]
      exact ⟨past, future, hprogress, .inr ⟨hcurrent, .inr (.inr hfailed)⟩⟩
    · exact ⟨past, future, hprogress, .inr ⟨hcurrent, .inr (.inr ⟨failure, rfl⟩)⟩⟩

theorem Settled.advance (h : Settled migrations origin db program other) :
    Settled migrations origin (program.advance perform () db).2
      (program.advance perform () db).1 other := by
  obtain ⟨past, hprogress, hprogram, hother⟩ := h
  obtain ⟨applied, rfl⟩ := hprogram.2.done
  exact ⟨past, hprogress, hprogram, hother⟩

/-- A turn of a run whose companion is not behind leads to a clash exactly when
the run is the second to read the versions and does not find them all. -/
theorem Solo.advance (happlicable : Applicable migrations origin)
    (h : Solo migrations origin db program other) :
    (ServedTurn migrations db program other →
      Solo migrations origin (program.advance perform () db).2
          (program.advance perform () db).1 other ∨
        Settled migrations origin (program.advance perform () db).2
          (program.advance perform () db).1 other) ∧
    (¬ ServedTurn migrations db program other →
      Clash migrations origin (program.advance perform () db).2
        (program.advance perform () db).1 other) := by
  obtain ⟨past, future, hprogress, hprogram, hother, hearly⟩ := h
  by_cases hunread : Early migrations db program
  · obtain ⟨program', db', hadvance, hgrown, hprogress', ⟨hreading, hnext⟩ | ⟨hreading, hnext⟩⟩ :=
      hunread.advance hprogress
    · rw [hadvance]
      have hother' := hother.imp (fun h => h.grow hgrown) (fun h => h.grow hgrown)
      refine ⟨fun _ => .inl ⟨past, future, hprogress', .inl hnext, hother', .inl hnext⟩,
        fun hunserved => absurd ?_ hunserved⟩
      intro hread
      rw [hreading] at hread
      cases hread
    · rw [hadvance]
      obtain hother | hother := hother
      · have hother' := hother.grow hgrown
        refine ⟨fun _ => .inl ⟨past, future, hprogress', .inr hnext, .inl hother', .inr hother'⟩,
          fun hunserved => absurd ?_ hunserved⟩
        intro _ hread
        rw [hother.unread] at hread
        cases hread
      · have hother' := hother.grow hgrown
        have hserved : ServedTurn migrations db program other ↔ future = [] := by
          rw [hprogress.complete]
          exact ⟨fun h => h hreading hother.read.2, fun h _ _ => h⟩
        rw [hserved]
        constructor
        · rintro rfl
          exact .inr ⟨past, hprogress', hnext, hother'⟩
        · exact fun hfuture => ⟨past, future, hprogress', .inl ⟨hnext, .inl ⟨hother', hfuture⟩⟩⟩
  · have hcurrent := hprogram.resolve_left hunread
    have hlast := hearly.resolve_left hunread
    refine ⟨fun _ => .inl ?_, fun hunserved => absurd ?_ hunserved⟩
    · cases future with
      | nil =>
          obtain ⟨applied, rfl⟩ := hcurrent.2.done
          exact ⟨past, [], hprogress, .inr hcurrent, .inl hlast, .inr hlast⟩
      | cons m rest =>
          obtain ⟨contents, hup⟩ := hprogress.next happlicable
          obtain ⟨program', db', hadvance, hgrown, hprogress', hcurrent', _⟩ :=
            hcurrent.advance hprogress hup
          rw [hadvance]
          have hlast' := hlast.grow hgrown
          exact ⟨_, rest, hprogress', .inr hcurrent', .inl hlast', .inr hlast'⟩
    · intro hread
      rw [hcurrent.read.1] at hread
      cases hread

/-- Each run is before its reading, up to date, late or failed. -/
def Tracked (migrations : Migrations σ) (origin db : Database σ)
    (program other : Migrating σ (List Int)) : Prop :=
  ∃ past future, Progress migrations origin past future db ∧
    Standing migrations future db program ∧ Standing migrations future db other

theorem Tracked.symm (h : Tracked migrations origin db program other) :
    Tracked migrations origin db other program := by
  obtain ⟨past, future, hprogress, hprogram, hother⟩ := h
  exact ⟨past, future, hprogress, hother, hprogram⟩

theorem Tracked.advance (h : Tracked migrations origin db program other) :
    Tracked migrations origin (program.advance perform () db).2
      (program.advance perform () db).1 other := by
  obtain ⟨past, future, hprogress, hprogram, hother⟩ := h
  cases hprogram with
  | early hearly =>
      obtain ⟨program', db', hadvance, hgrown, hprogress', ⟨_, hnext⟩ | ⟨_, hnext⟩⟩ :=
        hearly.advance hprogress
      · rw [hadvance]
        exact ⟨past, future, hprogress', .early hnext, hother.grow hgrown⟩
      · rw [hadvance]
        exact ⟨past, future, hprogress', .current hnext, hother.grow hgrown⟩
  | current hcurrent =>
      cases future with
      | nil =>
          obtain ⟨applied, rfl⟩ := hcurrent.2.done
          exact ⟨past, [], hprogress, .current hcurrent, hother⟩
      | cons m rest =>
          cases hup : m.up db.contents with
          | error cause =>
              have happly : db.applyOne m = (db, .error (.apply m.version m.name cause)) := by
                simp [Database.applyOne, hup]
              obtain ⟨program', hadvance, hfailed⟩ := hcurrent.2.refused happly
              rw [hadvance]
              exact ⟨past, m :: rest, hprogress, .failed hfailed, hother⟩
          | ok contents =>
              obtain ⟨program', db', hadvance, hgrown, hprogress', hcurrent', hlate⟩ :=
                hcurrent.advance hprogress hup
              rw [hadvance]
              exact ⟨_, rest, hprogress', .current hcurrent', hother.overtake hgrown (hlate other)⟩
  | late hlate =>
      obtain ⟨program', hadvance, hfailed⟩ := hlate.advance
      rw [hadvance]
      exact ⟨past, future, hprogress, .failed hfailed, hother⟩
  | failed hfailed =>
      obtain ⟨failure, rfl⟩ := hfailed
      exact ⟨past, future, hprogress, .failed ⟨failure, rfl⟩, hother⟩

end Both

end Standing

/-! ## Runs to the end -/

section Runs

variable {σ : Type} {migrations : Migrations σ} {origin : Database σ} {state : Runs σ}

/-- The runs are in a relation that does not tell them apart. -/
def Related (relation : Database σ → Migrating σ (List Int) → Migrating σ (List Int) → Prop)
    (state : Runs σ) : Prop :=
  ∀ who, relation state.2 (state.1 who) (state.1 !who)

theorem Related.turn
    (relation : Database σ → Migrating σ (List Int) → Migrating σ (List Int) → Prop)
    (hsymm : ∀ {db program other}, relation db program other → relation db other program)
    {who : Bool}
    (h : relation ((state.1 who).advance perform () state.2).2
      ((state.1 who).advance perform () state.2).1 (state.1 !who)) :
    Related relation (turn state who) := by
  have hself : (Store.turn state who).1 who = ((state.1 who).advance perform () state.2).1 :=
    Pool.step_self state (who, ())
  have hother : (Store.turn state who).1 (!who) = state.1 !who :=
    Pool.step_other state (by simp)
  have hworld : (Store.turn state who).2 = ((state.1 who).advance perform () state.2).2 :=
    Pool.step_world state (who, ())
  rw [← hself, ← hother, ← hworld] at h
  intro who'
  obtain rfl | rfl := Bool.eq_or_eq_not who' who
  · exact h
  · rw [Bool.not_not]
    exact hsymm h

/-- What the run with the next turn preserves holds after every schedule. -/
theorem Related.run
    (relation : Database σ → Migrating σ (List Int) → Migrating σ (List Int) → Prop)
    (hsymm : ∀ {db program other}, relation db program other → relation db other program)
    (hadvance : ∀ {db program other}, relation db program other →
      relation (program.advance perform () db).2 (program.advance perform () db).1 other)
    (schedule : List Bool) (h : Related relation state) :
    Related relation (schedule.foldl Store.turn state) := by
  induction schedule generalizing state with
  | nil => exact h
  | cons who rest ih => exact ih (Related.turn relation hsymm (hadvance (h who)))

/-- No run has failed, and none will if the runs go on so. -/
abbrev Peaceful (migrations : Migrations σ) (origin : Database σ) (state : Runs σ) : Prop :=
  Related (fun db program other =>
    Solo migrations origin db program other ∨ Settled migrations origin db program other) state

theorem peaceful_turn (happlicable : Applicable migrations origin)
    (h : Peaceful migrations origin state) {who : Bool}
    (hserved : Served migrations state who) : Peaceful migrations origin (turn state who) := by
  refine Related.turn _ (fun h => h.imp Solo.symm Settled.symm) ?_
  obtain hsolo | hsettled := h who
  · exact (hsolo.advance happlicable).1 hserved
  · exact .inr hsettled.advance

/-- A peaceful start leads to peace when the second reader finds every migration,
and to a clash when it does not. -/
theorem peaceful_run (happlicable : Applicable migrations origin) (schedule : List Bool)
    (h : Peaceful migrations origin state) :
    (Along turn (Served migrations) state schedule →
      Peaceful migrations origin (schedule.foldl turn state)) ∧
    (¬ Along turn (Served migrations) state schedule →
      Related (Clash migrations origin) (schedule.foldl turn state)) := by
  constructor
  · exact Along.invariant (fun _ _ h hserved => peaceful_turn happlicable h hserved) h
  intro hunserved
  induction schedule generalizing state with
  | nil => exact absurd trivial hunserved
  | cons who rest ih =>
      by_cases hserved : Served migrations state who
      · exact ih (peaceful_turn happlicable h hserved) fun hrest => hunserved ⟨hserved, hrest⟩
      · have hclash : Related (Clash migrations origin) (turn state who) := by
          refine Related.turn (Clash migrations origin) Clash.symm ?_
          obtain hsolo | ⟨_, _, hcurrent, _⟩ := h who
          · exact (hsolo.advance happlicable).2 hserved
          · refine absurd (fun hread => ?_) hserved
            rw [hcurrent.read.1] at hread
            cases hread
        exact Related.run (Clash migrations origin) Clash.symm (Clash.advance happlicable) rest
          hclash

theorem applyAll_atMost (versions : List Int) (ms : List (Migration σ)) (applied : List Int) :
    (applyAll versions ms applied).AtMost ms.length := by
  induction ms generalizing applied with
  | nil => trivial
  | cons m rest ih =>
      unfold applyAll
      split
      · exact (ih applied).succ
      · intro reply
        cases reply with
        | error cause => trivial
        | ok done => exact ih _

theorem migrate_atMost (migrations : Migrations σ) :
    (migrate migrations).AtMost (migrations.list.length + 2) := by
  intro created versions
  cases versions with
  | error cause => trivial
  | ok versions => exact applyAll_atMost versions migrations.list []

theorem ended_of_schedule {schedule : List Bool} {who : Bool}
    (hturns : migrations.list.length + 2 ≤ schedule.count who) :
    ((schedule.foldl turn (together migrations origin)).1 who).Ended := by
  have hrun : schedule.foldl turn (together migrations origin) =
      (schedule.map fun who => (who, ())).foldl (Pool.step perform) (together migrations origin) := by
    rw [List.foldl_map]
    rfl
  rw [hrun]
  apply Pool.ended_of_turns (migrate_atMost migrations)
  simpa [Function.comp_def] using hturns

theorem peaceful_start : Peaceful migrations origin (together migrations origin) :=
  fun _ => .inl ⟨[], _, Progress.start, .inl (.inl rfl), .inl (.inl rfl), .inl (.inl rfl)⟩

/-- What both runs have come to when neither has anything left to do. -/
theorem Progress.appliedOnce {past : List (Migration σ)} {db : Database σ}
    (h : Progress migrations origin past [] db) : AppliedOnce migrations origin db where
  contents := by rw [h.split, List.append_nil, h.contents]
  recorded := h.complete.mp rfl

/-- A run that is up to date and has returned has left nothing to do. -/
theorem Current.ended {future : List (Migration σ)} {db : Database σ}
    {program : Migrating σ (List Int)} (h : Current future db program) (hended : program.Ended) :
    future = [] ∧ Succeeded program := by
  cases future with
  | nil =>
      obtain ⟨applied, rfl⟩ := h.2.done
      exact ⟨rfl, trivial⟩
  | cons m rest =>
      obtain ⟨resume, rfl, _⟩ := h.2.next
      exact hended.elim

theorem Peaceful.ended (h : Peaceful migrations origin state)
    (hended : ∀ who, (state.1 who).Ended) :
    AppliedOnce migrations origin state.2 ∧ ∀ who, Succeeded (state.1 who) := by
  have hsettled : ∀ who, Settled migrations origin state.2 (state.1 who) (state.1 !who) := by
    intro who
    refine (h who).resolve_left fun ⟨_, _, _, _, _, hearly⟩ => ?_
    have hcall : ∀ {program}, Early migrations state.2 program → ¬ program.Ended := by
      rintro program (rfl | ⟨_, resume, rfl, _⟩) hended
      · exact hended
      · exact hended
    exact hearly.elim (fun h => hcall h (hended who)) (fun h => hcall h (hended !who))
  constructor
  · obtain ⟨past, hprogress, _⟩ := hsettled true
    exact hprogress.appliedOnce
  · intro who
    obtain ⟨_, _, hcurrent, _⟩ := hsettled who
    exact (hcurrent.ended (hended who)).2

theorem Clash.ended {db : Database σ} {program other : Migrating σ (List Int)}
    (h : Clash migrations origin db program other) (hprogram : program.Ended)
    (hother : other.Ended) :
    AppliedOnce migrations origin db ∧ ¬ (Succeeded program ∧ Succeeded other) := by
  have hstuck : ∀ {program}, Stuck [] db program → program.Ended → ¬ Succeeded program := by
    rintro program (⟨_, hfuture⟩ | ⟨m, rest, hat, _⟩ | ⟨failure, rfl⟩) hended hsucceeded
    · exact hfuture rfl
    · obtain ⟨resume, rfl, _⟩ := hat.next
      exact hended
    · exact hsucceeded
  obtain ⟨past, future, hprogress, ⟨hcurrent, hbound⟩ | ⟨hcurrent, hbound⟩⟩ := h
  · obtain ⟨rfl, _⟩ := hcurrent.ended hprogram
    exact ⟨hprogress.appliedOnce, fun h => hstuck hbound hother h.2⟩
  · obtain ⟨rfl, _⟩ := hcurrent.ended hother
    exact ⟨hprogress.appliedOnce, fun h => hstuck hbound hprogram h.1⟩

theorem tracked_start : Related (Tracked migrations origin) (together migrations origin) :=
  fun _ => ⟨[], _, Progress.start, .early (.inl rfl), .early (.inl rfl)⟩

/-- A run that succeeds has left nothing to do, so that everything could be applied. -/
theorem Tracked.applicable {db : Database σ} {program other : Migrating σ (List Int)}
    (h : Tracked migrations origin db program other) (hsucceeded : Succeeded program) :
    Applicable migrations origin := by
  obtain ⟨applied, rfl⟩ : ∃ applied, program = .done applied := by
    cases program with
    | done applied => exact ⟨applied, rfl⟩
    | fail failure => exact hsucceeded.elim
    | call request resume => exact hsucceeded.elim
  obtain ⟨past, future, hprogress, hprogram, _⟩ := h
  cases hprogram with
  | early hearly => exact absurd hearly.unread Bool.false_ne_true
  | current hcurrent =>
      obtain ⟨rfl, _⟩ := hcurrent.ended trivial
      exact ⟨db.contents, hprogress.appliedOnce.contents⟩
  | late hlate =>
      obtain ⟨m, rest, hat, _⟩ := hlate
      obtain ⟨resume, heq, _⟩ := hat.next
      cases heq
  | failed hfailed =>
      obtain ⟨failure, heq⟩ := hfailed
      cases heq

/-- Two runs that start together end. If what the database lacks can be applied to
it, they apply it once. Both succeed exactly when it can, and the second run to read
the applied versions finds every migration among them. -/
theorem migrate_concurrently (migrations : Migrations σ) (db : Database σ)
    (schedule : List Bool) :
    let final := schedule.foldl turn (together migrations db)
    ((∀ who, migrations.list.length + 2 ≤ schedule.count who) → ∀ who, (final.1 who).Ended) ∧
    ((∀ who, (final.1 who).Ended) →
      (Applicable migrations db → AppliedOnce migrations db final.2) ∧
      ((∀ who, Succeeded (final.1 who)) ↔
        Applicable migrations db ∧
          Along turn (Served migrations) (together migrations db) schedule)) := by
  intro final
  refine ⟨fun hturns who => ended_of_schedule (hturns who), fun hended => ?_⟩
  have htracked := Related.run (Tracked migrations db) Tracked.symm Tracked.advance schedule
    tracked_start
  have hrun (happlicable : Applicable migrations db) := peaceful_run happlicable schedule
    (peaceful_start : Peaceful migrations db (together migrations db))
  by_cases hserved : Along turn (Served migrations) (together migrations db) schedule
  · have hend (happlicable : Applicable migrations db) :=
      Peaceful.ended ((hrun happlicable).1 hserved) hended
    exact ⟨fun happlicable => (hend happlicable).1,
      fun h => ⟨(htracked true).applicable (h true), hserved⟩, fun h => (hend h.1).2⟩
  · have hend (happlicable : Applicable migrations db) :=
      ((hrun happlicable).2 hserved true).ended (hended true) (hended false)
    refine ⟨fun happlicable => (hend happlicable).1, fun h => ?_, fun h => absurd h.2 hserved⟩
    exact absurd ⟨h true, h false⟩ (hend ((htracked true).applicable (h true))).2

/-- Two migrations that each count one up. -/
def counting : Migrations Nat where
  list := [⟨1, "init", fun count => .ok (count + 1)⟩,
    ⟨2, "read_models", fun count => .ok (count + 1)⟩]
  sorted := by decide

/-- Both runs read the applied versions before either applies a migration: one
applies both, and the other fails at the primary key. -/
theorem second_start_fails :
    let final := [true, false, true, false, true, false, true].foldl turn
      (together counting ⟨none, 0⟩)
    (∀ who, (final.1 who).Ended) ∧ final.2.contents = 2 ∧
      final.1 true = .done [1, 2] ∧
      final.1 false = .fail ⟨[], .record 1 .uniqueViolation⟩ := by
  refine ⟨fun who => ?_, rfl, rfl, rfl⟩
  cases who with
  | true => trivial
  | false => trivial

end Runs

end Harbormaster.Store
