import Harbormaster.Inspector.Attribution

/-! # Conflicting owners

Accounts of two clients in the cells that are read, or an account of one client under
a name that is taken for another's, leave an attribution with a conflict. Rows beyond
the limit, text around an account in its own column and further patterns that match
the name are not read, and do not.
-/

namespace Harbormaster.Inspector

open Matching Matcher Ordered

variable (runtime : Runtime)

/-! ## What the scan reads -/

/-- A list that only grows holds what one of its rounds adds. -/
theorem mem_foldl_of_adds {α β : Type} {step : List α → β → List α} {start : List α}
    {elements : List β} {element : β} {x : α} (hgrows : ∀ found b, found ⊆ step found b)
    (hmem : element ∈ elements) (hadds : ∀ found, x ∈ step found element) :
    x ∈ elements.foldl step start := by
  obtain ⟨before, after, rfl⟩ := List.append_of_mem hmem
  rw [List.foldl_append, List.foldl_cons]
  exact List.foldlRecOn (motive := fun found => x ∈ found) after step (hadds _)
    fun found hfound b _ => hgrows found b hfound

theorem subset_foldl {α β : Type} {step : List α → β → List α} {start : List α}
    {elements : List β} (hgrows : ∀ found b, found ⊆ step found b) :
    start ⊆ elements.foldl step start :=
  List.foldlRecOn (motive := fun found => start ⊆ found) elements step (List.Subset.refl start)
    fun found hfound b _ => List.Subset.trans hfound (hgrows found b)

/-- The columns that carry an account by their name. -/
def accountColumns (headers : List String) : List String :=
  headers.filter fun h => accountColumnHints.contains (normalizeHeader runtime h)

/-- The account columns, or all of them where there is none. -/
def scanColumns (headers : List String) : List String :=
  if accountColumns runtime headers = [] then headers else accountColumns runtime headers

/-- A cell holds an account: it is one, or one stands in a cell that is none, in a
file without account columns. -/
def HoldsAccount (known : Dict String String) (headers : List String) (value accountId : String) :
    Prop :=
  value ≠ "" ∧ (value = accountId ∨ accountColumns runtime headers = [] ∧ known.get? value = none ∧
    accountId.toList ∈ (accountCandidate runtime).findAll value.toList)

/-- A client's account is in a cell of the rows that are read. -/
def ReadOwner (known : Dict String String) (headers : List String) (rows : List Row)
    (owner : String) : Prop :=
  ∃ row ∈ rows.take 500, ∃ header ∈ scanColumns runtime headers, ∃ accountId,
    HoldsAccount runtime known headers (strip (row.cell header)) accountId ∧
      known.get? accountId = some owner

section Scan

variable {runtime} {known : Dict String String}

theorem subset_addKnown (found : List String) (candidate : String) :
    found ⊆ addKnown known found candidate := by
  unfold addKnown
  split
  next => exact List.subset_append_left found [candidate]
  next => exact List.Subset.refl found

theorem mem_addKnown {accountId owner : String} (hknown : known.get? accountId = some owner)
    (found : List String) : accountId ∈ addKnown known found accountId := by
  unfold addKnown
  split
  next => exact List.mem_append_right found List.mem_cons_self
  next hold =>
    rw [hknown, Option.isSome_some, Bool.true_and, Bool.not_eq_true, Bool.not_eq_false',
      List.contains_iff_mem] at hold
    exact hold

theorem subset_scanCell (obvious : Bool) (found : List String) (value : String) :
    found ⊆ scanCell runtime known obvious found value := by
  unfold scanCell
  split
  next => exact List.Subset.refl found
  next =>
    split
    next => exact List.subset_append_left found [value]
    next =>
      split
      next => exact List.Subset.refl found
      next => exact subset_foldl fun found candidate => subset_addKnown found (String.ofList candidate)

theorem mem_scanCell {headers found : List String} {value accountId owner : String}
    (hknown : known.get? accountId = some owner)
    (hholds : HoldsAccount runtime known headers value accountId) :
    accountId ∈ scanCell runtime known (accountColumns runtime headers ≠ []) found value := by
  obtain ⟨hne, rfl | ⟨hcolumns, hnone, hcandidate⟩⟩ := hholds
  · unfold scanCell
    rw [if_neg hne]
    split
    next => exact List.mem_append_right found List.mem_cons_self
    next hold =>
      rw [hknown, Option.isSome_some, Bool.true_and, Bool.not_eq_true, Bool.not_eq_false',
        List.contains_iff_mem] at hold
      split
      next => exact hold
      next =>
        exact subset_foldl (fun found candidate => subset_addKnown found (String.ofList candidate))
          hold
  · unfold scanCell
    rw [if_neg hne, hnone, if_neg (by simp), if_neg (by simp [hcolumns])]
    refine mem_foldl_of_adds (fun found candidate => subset_addKnown found (String.ofList candidate))
      hcandidate fun found => ?_
    rw [String.ofList_toList]
    exact mem_addKnown hknown found

theorem findAccountIds_eq (headers : List String) (rows : List Row) :
    findAccountIds runtime headers rows known = (rows.take 500).foldl (fun found row =>
      (scanColumns runtime headers).foldl (fun found header =>
        scanCell runtime known (accountColumns runtime headers ≠ []) found
          (strip (row.cell header))) found) [] := rfl

/-- The owner of an account that is read is among the owners. -/
theorem mem_owners {headers : List String} {rows : List Row} {owner : String}
    (h : ReadOwner runtime known headers rows owner) :
    owner ∈ (findAccountIds runtime headers rows known).filterMap known.get? := by
  obtain ⟨row, hrow, header, hheader, accountId, hholds, hknown⟩ := h
  refine List.mem_filterMap.mpr ⟨accountId, ?_, hknown⟩
  rw [findAccountIds_eq]
  refine mem_foldl_of_adds (fun found row => subset_foldl fun found header =>
    subset_scanCell _ found _) hrow fun found => ?_
  exact mem_foldl_of_adds (fun found header => subset_scanCell _ found _) hheader
    fun found => mem_scanCell hknown hholds

end Scan

/-! ## The decision -/

/-- What is read of the contents and of the name belongs to different clients. -/
def ConflictingOwners (filename : String) (headers : List String) (rows : List Row)
    (registry : Registry) : Prop :=
  ∃ owner other, owner ≠ other ∧ ReadOwner runtime registry.allAccountIds headers rows owner ∧
    (ReadOwner runtime registry.allAccountIds headers rows other ∨
      owner ≠ "" ∧ other ≠ "" ∧
        (matchFilename runtime filename registry).map (fun m => m.client.clientId) = some other)

section Decision

variable {runtime} {filename : String} {headers : List String} {rows : List Row}
  {registry : Registry}

theorem one_lt_length_dedup {owners : List String} {owner other : String} (hne : owner ≠ other)
    (howner : owner ∈ owners) (hother : other ∈ owners) : 1 < owners.dedup.length := by
  have hpair : [owner, other].Nodup := by simp [hne]
  have hsubset : [owner, other] ⊆ owners.dedup := by
    rw [List.cons_subset, List.cons_subset, List.mem_dedup, List.mem_dedup]
    exact ⟨howner, hother, List.nil_subset _⟩
  exact (List.subperm_of_subset hpair hsubset).length_le

/-- Where all identifiers are one client's, it is their main owner. -/
theorem mainOwner_of_single {owners : List String} {owner : String} (hmem : owner ∈ owners)
    (hsingle : ¬ 1 < owners.dedup.length) : mainOwner owners = some owner := by
  cases hmain : mainOwner owners with
  | none => exact absurd (List.argmax_eq_none.mp hmain ▸ hmem) List.not_mem_nil
  | some main =>
      have hmain : main ∈ owners := List.argmax_mem hmain
      by_contra hne
      exact hsingle (one_lt_length_dedup (fun h => hne (congrArg some h)) hmain hmem)

/-- Conflicting owners are never confident. -/
theorem conflict_of_conflictingOwners (runtime : Runtime) (filename : String)
    (headers : List String) (rows : List Row) (registry : Registry)
    (h : ConflictingOwners runtime filename headers rows registry) :
    (attributeFile runtime filename headers rows registry).conflict = true ∧
      (attributeFile runtime filename headers rows registry).confidence ≤ confConflict := by
  obtain ⟨owner, other, hne, hread, hother⟩ := h
  have howner := mem_owners hread
  unfold attributeFile
  dsimp only
  split
  next => exact ⟨rfl, le_rfl⟩
  next hsingle =>
    rcases hother with hother | ⟨howned, hnamed, hname⟩
    · exact absurd (one_lt_length_dedup hne howner (mem_owners hother)) hsingle
    · rw [mainOwner_of_single howner hsingle, hname, truthy_of_ne howned, truthy_of_ne hnamed]
      dsimp only
      rw [if_neg hne]
      exact ⟨rfl, le_rfl⟩

end Decision

/-! ## What hides a second owner -/

def ownedClient (clientId accountId : String) : Client where
  clientId := clientId
  calendar := "US_EQUITY"
  accounts := [{ id := accountId }]
  filenameHints := [{ pattern := clientId ++ "|cash", domain := "CASH" }]

/-- Two clients, with one account each. -/
def twoOwners : Registry where
  clients := [ownedClient "CLNT001" "ACC-001", ownedClient "CLNT002" "ACC-002"]
  calendars := [{ calendarId := "US_EQUITY" }]

/-- A client without an id owns the second account. -/
def namelessOwner : Registry where
  clients := [ownedClient "CLNT001" "ACC-001",
    { clientId := "", calendar := "US_EQUITY", accounts := [{ id := "ACC-002" }] }]
  calendars := twoOwners.calendars

def accountRow (cell : String) : Row := .ofPairs [("Account", cell)]

/-- The patterns of both clients match one name. -/
def cashRuntime : Runtime :=
  { Runtime.ascii with groupdict := fun _ name => if name = "cash.csv" then some [] else none }

/-- An account of the first client 500 times, and then one of the second. -/
def belowLimit : List Row :=
  List.replicate 500 (accountRow "ACC-001") ++ [accountRow "ACC-002"]

/-- An account of each client, the second with a text around it. -/
def annotated : List Row := [accountRow "ACC-001", accountRow "ACC-002 (custody)"]

/-- What is attributed to a file with one account column. -/
def accountsOf (name : String) (rows : List Row) (registry : Registry) : Attribution :=
  attributeFile cashRuntime name ["Account"] rows registry

/-- An account of a second client below the row limit, or with a text around it, or
whose client has no id, and a second client whose pattern matches the name: each of
them leaves the attribution without a conflict. -/
theorem second_owner_hidden :
    (twoOwners.allAccountIds.get? "ACC-001" = some "CLNT001" ∧
      twoOwners.allAccountIds.get? "ACC-002" = some "CLNT002") ∧
    ((accountsOf "data.csv" belowLimit twoOwners).conflict = false ∧
      (accountsOf "data.csv" belowLimit twoOwners).confidence = confAccountMatch) ∧
    ((accountsOf "data.csv" annotated twoOwners).conflict = false ∧
      (accountsOf "data.csv" annotated twoOwners).confidence = confAccountMatch) ∧
    ((∀ client ∈ twoOwners.clients, ∃ hint ∈ client.filenameHints,
        (FilenameHint.matchName cashRuntime hint "cash.csv").isSome) ∧
      (accountsOf "cash.csv" [] twoOwners).conflict = false ∧
      (accountsOf "cash.csv" [] twoOwners).confidence = confFilenameMatch) ∧
    (namelessOwner.allAccountIds.get? "ACC-002" = some "" ∧
      (matchFilename cashRuntime "cash.csv" namelessOwner).map (fun m => m.client.clientId) =
        some "CLNT001" ∧
      (accountsOf "cash.csv" [accountRow "ACC-002"] namelessOwner).conflict = false ∧
      (accountsOf "cash.csv" [accountRow "ACC-002"] namelessOwner).confidence =
        confFilenameMatch) := by
  refine ⟨by decide, ?_, by decide +kernel, by decide +kernel, by decide +kernel⟩
  decide +kernel

/-- Accounts of both clients in the first rows. -/
theorem conflict_of_both_accounts :
    (accountsOf "data.csv" [accountRow "ACC-001", accountRow "ACC-002"] twoOwners).conflict = true ∧
      (accountsOf "data.csv" [accountRow "ACC-001", accountRow "ACC-002"] twoOwners).confidence ≤
        confConflict := by
  apply conflict_of_conflictingOwners
  have hread : ∀ row ∈ [accountRow "ACC-001", accountRow "ACC-002"], ∀ accountId owner,
      strip (row.cell "Account") = accountId → accountId ≠ "" →
      twoOwners.allAccountIds.get? accountId = some owner →
      ReadOwner cashRuntime twoOwners.allAccountIds ["Account"]
        [accountRow "ACC-001", accountRow "ACC-002"] owner :=
    fun row hrow accountId owner hcell hne hknown => ⟨row, hrow, "Account", by decide, accountId,
      ⟨hcell ▸ hne, Or.inl hcell⟩, hknown⟩
  exact ⟨"CLNT001", "CLNT002", by decide,
    hread (accountRow "ACC-001") List.mem_cons_self "ACC-001" _ (by decide) (by decide) (by decide),
    Or.inl (hread (accountRow "ACC-002") (List.mem_cons_of_mem _ List.mem_cons_self) "ACC-002" _
      (by decide) (by decide) (by decide))⟩

end Harbormaster.Inspector
