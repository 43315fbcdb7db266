import Harbormaster.Loading

/-! # Who owns an account

Three lookups find the client of an account: the first client wins in two of them, the
last one in the third. Nothing that the loaders check keeps two clients from listing
one account, or a client from covering one domain twice.
-/

namespace Harbormaster

/-! ## Lookups -/

def Client.Lists (client : Client) (accountId : String) : Prop :=
  ∃ a ∈ client.accounts, a.id = accountId

theorem Client.isSome_account {client : Client} {accountId : String} :
    (client.account accountId).isSome ↔ client.Lists accountId := by
  unfold account
  rw [List.find?_isSome]
  exact exists_congr fun a => and_congr_right fun _ => decide_eq_true_iff

section Lookups

variable {clients : Ordered.Dict String Client}

theorem mem_clientsById {c : Client} :
    c ∈ clientsById clients ↔ ∃ key, clients.get? key = some c := by
  unfold clientsById
  rw [List.mem_filterMap]
  refine exists_congr fun key => and_iff_right_of_imp fun hget => ?_
  rw [List.mem_insertionSort, Ordered.Dict.mem_keys, hget]
  rfl

/-- The id of the first client that lists an account. -/
def firstOwner (clients : List Client) (accountId : String) : Option String :=
  (clients.findSome? fun c => (c.account accountId).map fun a => (c, a)).map
    fun owner => owner.1.clientId

theorem firstOwner_mem {list : List Client} {accountId owner : String}
    (h : firstOwner list accountId = some owner) :
    ∃ c ∈ list, c.clientId = owner ∧ c.Lists accountId := by
  obtain ⟨⟨c, a⟩, hfound, rfl⟩ := Option.map_eq_some_iff.mp h
  obtain ⟨c', hmem, hpair⟩ := List.exists_of_findSome?_eq_some hfound
  obtain ⟨a', haccount, hsame⟩ := Option.map_eq_some_iff.mp hpair
  obtain ⟨rfl, rfl⟩ := Prod.mk.inj hsame
  refine ⟨c', hmem, rfl, Client.isSome_account.mp ?_⟩
  rw [haccount]
  rfl

theorem firstOwner_eq_some {list : List Client} {accountId owner : String}
    (hlisted : ∃ c ∈ list, c.clientId = owner ∧ c.Lists accountId)
    (hsingle : ∀ c ∈ list, c.Lists accountId → c.clientId = owner) :
    firstOwner list accountId = some owner := by
  cases h : firstOwner list accountId with
  | none =>
      obtain ⟨c, hmem, -, hlists⟩ := hlisted
      have hnone := List.findSome?_eq_none_iff.mp (Option.map_eq_none_iff.mp h) c hmem
      have hsome := Client.isSome_account.mpr hlists
      rw [Option.map_eq_none_iff.mp hnone] at hsome
      cases hsome
  | some owner' =>
      obtain ⟨c, hmem, rfl, hlists⟩ := firstOwner_mem h
      rw [hsingle c hmem hlists]

end Lookups

/-! ## What the registries hold -/

namespace ConfigDirectory

variable (dir : ConfigDirectory) (runtime : YamlRuntime)

/-- A client, as the one language reads it from a file. -/
def StrictClient (c : Client) : Prop := ∃ file ∈ dir.clients, file.strict = some c

/-- A client, as the other language reads it from a file. -/
def SafeClient (c : Client) : Prop := ∃ file ∈ dir.clients, file.client runtime = .ok c

end ConfigDirectory

/-- The clients of a registry are some, each under its own id. -/
def Holds (clients : Ordered.Dict String Client) (among : Client → Prop) : Prop :=
  ∀ key c, clients.get? key = some c ↔ among c ∧ c.clientId = key

/-- An account is listed by the client of an id among some. -/
def ListedFor (among : Client → Prop) (accountId owner : String) : Prop :=
  ∃ c, among c ∧ c.clientId = owner ∧ c.Lists accountId

namespace GoRegistry

variable {compiles : String → Bool} {toUpper : Char → Char} {dir : ConfigDirectory}
  {registry : GoRegistry}

/-- What the rounds of `loadClients` have read. -/
structure Loaded (compiles : String → Bool) (passed : List ClientFile)
    (clients : Ordered.Dict String Client) : Prop where
  read : ∃ list : List Client, passed.map ClientFile.strict = list.map some ∧
    (list.map Client.clientId).Nodup ∧
    ∀ key c, clients.get? key = some c ↔ c ∈ list ∧ c.clientId = key
  valid : ∀ file ∈ passed, ∀ c, file.strict = some c →
    validateClient compiles file.name c = .ok ()

theorem addClient_eq_ok {clients next : Ordered.Dict String Client} {file : ClientFile}
    (h : addClient compiles clients file = .ok next) :
    ∃ c, file.strict = some c ∧ validateClient compiles file.name c = .ok () ∧
      clients.get? c.clientId = none ∧ next = clients.set c.clientId c := by
  obtain ⟨c, hstrict, h⟩ := Fallible.bind_eq_ok.mp h
  obtain ⟨_, hvalid, h⟩ := Fallible.bind_eq_ok.mp h
  split at h
  next => cases h
  next hnew =>
    obtain rfl := Except.ok.inj h
    exact ⟨c, Fallible.require_eq_ok.mp hstrict, Fallible.mapError_eq_ok.mp hvalid, hnew, rfl⟩

theorem Loaded.addClient {passed : List ClientFile} {clients next : Ordered.Dict String Client}
    {file : ClientFile} (hloaded : Loaded compiles passed clients)
    (h : addClient compiles clients file = .ok next) :
    Loaded compiles (passed ++ [file]) next := by
  obtain ⟨c, hstrict, hvalid, hnew, rfl⟩ := addClient_eq_ok h
  obtain ⟨list, hread, hnodup, hget⟩ := hloaded.read
  have hfresh : ∀ c' ∈ list, c'.clientId ≠ c.clientId := by
    intro c' hmem hsame
    rw [(hget c.clientId c').mpr ⟨hmem, hsame⟩] at hnew
    cases hnew
  refine ⟨⟨list ++ [c], ?_, ?_, fun key c' => ?_⟩, fun file' hfile c' hc' => ?_⟩
  · rw [List.map_append, List.map_append, hread, List.map_singleton, List.map_singleton, hstrict]
  · rw [List.map_append, List.map_singleton, List.nodup_append]
    refine ⟨hnodup, List.nodup_singleton _, fun id hid id' hid' => ?_⟩
    obtain ⟨c', hmem, rfl⟩ := List.mem_map.mp hid
    rw [List.mem_singleton.mp hid']
    exact hfresh c' hmem
  · rw [Ordered.Dict.get?_set, List.mem_append, List.mem_singleton]
    split
    next hkey =>
      subst hkey
      constructor
      · intro hsome
        obtain rfl := Option.some.inj hsome
        exact ⟨Or.inr rfl, rfl⟩
      · rintro ⟨hmem | rfl, hsame⟩
        · exact absurd hsame (hfresh c' hmem)
        · rfl
    next hkey =>
      rw [hget]
      refine and_congr_left fun hsame => ⟨Or.inl, ?_⟩
      rintro (hmem | rfl)
      · exact hmem
      · exact absurd hsame.symm hkey
  · rcases List.mem_append.mp hfile with hfile | hfile
    · exact hloaded.valid file' hfile c' hc'
    · obtain rfl := List.mem_singleton.mp hfile
      obtain rfl := Option.some.inj (hstrict.symm.trans hc')
      exact hvalid

/-- The registry holds every client of the directory once, and each is valid. -/
theorem loaded_of_load (h : load compiles toUpper dir = .ok registry) :
    Loaded compiles dir.clients registry.clients := by
  obtain ⟨calendars, -, h⟩ := Fallible.bind_eq_ok.mp h
  obtain ⟨clients, hclients, h⟩ := Fallible.bind_eq_ok.mp h
  split at h
  next => cases h
  next =>
    obtain ⟨_, -, h⟩ := Fallible.bind_eq_ok.mp h
    obtain rfl := Except.ok.inj h
    have hstart : Loaded compiles [] .empty :=
      ⟨⟨[], rfl, List.nodup_nil, fun key c => by simp⟩, nofun⟩
    exact Fallible.foldlM_passed hstart
      (fun passed file clients next hloaded hnext => hloaded.addClient hnext) hclients

/-- The registry holds the clients of the files, whose ids differ. -/
theorem holds_of_load (h : load compiles toUpper dir = .ok registry) :
    Holds registry.clients dir.StrictClient ∧
      ∃ list : List Client, dir.clients.map ClientFile.strict = list.map some ∧
        (list.map Client.clientId).Nodup ∧ ∀ c, dir.StrictClient c ↔ c ∈ list := by
  obtain ⟨list, hread, hnodup, hget⟩ := (loaded_of_load h).read
  have hstrict : ∀ c, dir.StrictClient c ↔ c ∈ list := by
    intro c
    have hmem : some c ∈ dir.clients.map ClientFile.strict ↔ c ∈ list := by
      rw [hread, List.mem_map_of_injective (Option.some_injective _)]
    rw [← hmem, List.mem_map]
    rfl
  refine ⟨fun key c => ?_, list, hread, hnodup, hstrict⟩
  rw [hget, hstrict]

/-- A client that is accepted lists an account. -/
theorem exists_lists (h : load compiles toUpper dir = .ok registry) {c : Client}
    (hc : dir.StrictClient c) : ∃ accountId, c.Lists accountId := by
  obtain ⟨file, hfile, hstrict⟩ := hc
  obtain ⟨a, ha⟩ := List.exists_mem_of_ne_nil _
    (accounts_of_validateClient ((loaded_of_load h).valid file hfile c hstrict))
  exact ⟨a.id, a, ha, rfl⟩

end GoRegistry

namespace PythonRegistry

variable {runtime : YamlRuntime} {text : Inspector.Runtime} {dir : ConfigDirectory}
  {registry : PythonRegistry}

/-- The registry keeps the last client of each id. -/
theorem load_clients (h : load runtime text dir = .ok registry) :
    ∃ list : List Client, dir.clients.map (ClientFile.client runtime) = list.map .ok ∧
      (∀ c, dir.SafeClient runtime c ↔ c ∈ list) ∧
      registry.clients = .ofPairs (list.map fun c => (c.clientId, c)) := by
  obtain ⟨calendars, -, h⟩ := Fallible.bind_eq_ok.mp h
  obtain ⟨list, hlist, h⟩ := Fallible.bind_eq_ok.mp h
  dsimp only at h
  split at h
  next => cases h
  next =>
    obtain ⟨_, -, h⟩ := Fallible.bind_eq_ok.mp h
    obtain rfl := Except.ok.inj h
    have hread := Fallible.map_eq_of_mapM hlist
    refine ⟨list, hread, fun c => ?_, rfl⟩
    have hmem : .ok c ∈ dir.clients.map (ClientFile.client runtime) ↔ c ∈ list := by
      rw [hread, List.mem_map_of_injective fun _ _ => Except.ok.inj]
    rw [← hmem, List.mem_map]
    rfl

theorem mem_of_get? {list : List Client} {key : String} {c : Client}
    (h : (Ordered.Dict.ofPairs (list.map fun c => (c.clientId, c))).get? key = some c) :
    c ∈ list ∧ c.clientId = key := by
  obtain ⟨c', hmem, hpair⟩ := List.mem_map.mp (Ordered.Dict.mem_of_get?_ofPairs h)
  obtain ⟨rfl, rfl⟩ := Prod.mk.inj hpair
  exact ⟨hmem, rfl⟩

end PythonRegistry

/-! ## Agreement -/

/-- No two expectations of a client cover one domain. -/
def Client.OneForEachDomain (client : Client) : Prop :=
  ∀ e ∈ client.expectations, ∀ e' ∈ client.expectations, e.domain = e'.domain → e = e'

/-- The lookups of both languages find what the files of a directory say. -/
structure Unambiguous (dir : ConfigDirectory) (runtime : YamlRuntime) (go : GoRegistry)
    (python : PythonRegistry) : Prop where
  owner : ∀ accountId owner,
    (ListedFor dir.StrictClient accountId owner ∨
      ListedFor (dir.SafeClient runtime) accountId owner) →
    (go.accountOwner accountId).map (fun o => o.1.clientId) = some owner ∧
      (python.accountOwner accountId).map (fun o => o.1.clientId) = some owner ∧
      python.allAccountIds.get? accountId = some owner
  goExpectation : ∀ c, dir.StrictClient c → ∀ e ∈ c.expectations,
    (go.client c.clientId).bind (fun c => c.expectationFor e.domain) = some e
  pythonExpectation : ∀ c, dir.SafeClient runtime c → ∀ e ∈ c.expectations,
    (python.client c.clientId).bind (fun c => c.expectationFor e.domain) = some e

/-- Both languages read the same accounts of the same clients, each account belongs to
one client, and no client covers a domain twice. -/
structure SingleOwners (dir : ConfigDirectory) (runtime : YamlRuntime) : Prop where
  same : ∀ accountId owner, ListedFor dir.StrictClient accountId owner ↔
    ListedFor (dir.SafeClient runtime) accountId owner
  single : ∀ accountId owner owner', ListedFor dir.StrictClient accountId owner →
    ListedFor dir.StrictClient accountId owner' → owner = owner'
  goDomains : ∀ c, dir.StrictClient c → c.OneForEachDomain
  pythonDomains : ∀ c, dir.SafeClient runtime c → c.OneForEachDomain

section Agreement

variable {clients : Ordered.Dict String Client} {among : Client → Prop} {accountId owner : String}

theorem mem_clientsById_of_holds (h : Holds clients among) {c : Client} :
    c ∈ clientsById clients ↔ among c := by
  rw [mem_clientsById]
  constructor
  · rintro ⟨key, hget⟩
    exact ((h key c).mp hget).1
  · exact fun hamong => ⟨c.clientId, (h c.clientId c).mpr ⟨hamong, rfl⟩⟩

theorem firstOwner_of_holds (h : Holds clients among) (hlisted : ListedFor among accountId owner)
    (hsingle : ∀ owner', ListedFor among accountId owner' → owner' = owner) :
    firstOwner (clientsById clients) accountId = some owner := by
  obtain ⟨c, hamong, hid, hlists⟩ := hlisted
  refine firstOwner_eq_some ⟨c, (mem_clientsById_of_holds h).mpr hamong, hid, hlists⟩ ?_
  intro c' hmem hlists'
  exact hsingle c'.clientId ⟨c', (mem_clientsById_of_holds h).mp hmem, rfl, hlists'⟩

theorem lastOwner_of_holds (h : Holds clients among) (hlisted : ListedFor among accountId owner)
    (hsingle : ∀ owner', ListedFor among accountId owner' → owner' = owner) :
    (Ordered.Dict.ofPairs ((clientsById clients).flatMap fun c =>
      c.accounts.map fun a => (a.id, c.clientId))).get? accountId = some owner := by
  have hpair : ∀ owner, (accountId, owner) ∈ (clientsById clients).flatMap (fun c =>
      c.accounts.map fun a => (a.id, c.clientId)) ↔ ListedFor among accountId owner := by
    intro owner
    rw [List.mem_flatMap]
    refine exists_congr fun c => ?_
    rw [mem_clientsById_of_holds h, List.mem_map]
    refine and_congr_right fun _ => ?_
    constructor
    · rintro ⟨a, hmem, hsame⟩
      obtain ⟨rfl, rfl⟩ := Prod.mk.inj hsame
      exact ⟨rfl, a, hmem, rfl⟩
    · rintro ⟨rfl, a, hmem, rfl⟩
      exact ⟨a, hmem, rfl⟩
  refine Ordered.Dict.get?_ofPairs_of_mem ((hpair owner).mpr hlisted) fun owner' hmem => ?_
  exact hsingle owner' ((hpair owner').mp hmem)

theorem expectationFor_eq_some {c : Client} :
    (∀ e ∈ c.expectations, c.expectationFor e.domain = some e) ↔ c.OneForEachDomain := by
  constructor
  · intro h e he e' he' hsame
    have hfirst := h e he
    rw [hsame, h e' he'] at hfirst
    exact (Option.some.inj hfirst).symm
  · intro h e he
    have hfound : (c.expectations.find? fun e' => e'.domain = e.domain).isSome :=
      List.find?_isSome.mpr ⟨e, he, by simp⟩
    obtain ⟨e', he'⟩ := Option.isSome_iff_exists.mp hfound
    have hdomain : e'.domain = e.domain := by simpa using List.find?_some he'
    rw [Client.expectationFor, he', h e' (List.mem_of_find?_eq_some he') e he hdomain]

/-- The lookup of an expectation through the registry. -/
theorem expectation_of_holds (h : Holds clients among) :
    (∀ c, among c → ∀ e ∈ c.expectations,
      (clients.get? c.clientId).bind (fun c => c.expectationFor e.domain) = some e) ↔
      ∀ c, among c → c.OneForEachDomain := by
  refine forall_congr' fun c => forall_congr' fun hamong => ?_
  rw [(h c.clientId c).mpr ⟨hamong, rfl⟩]
  exact expectationFor_eq_some

end Agreement

section Loaded

variable {compiles : String → Bool} {toUpper : Char → Char} {runtime : YamlRuntime}
  {text : Inspector.Runtime} {dir : ConfigDirectory} {go : GoRegistry} {python : PythonRegistry}

/-- Where both languages read the same accounts no file is replaced by a later one. -/
theorem PythonRegistry.holds_of_same (hgo : GoRegistry.load compiles toUpper dir = .ok go)
    (hpython : PythonRegistry.load runtime text dir = .ok python)
    (hsame : ∀ accountId owner, ListedFor dir.StrictClient accountId owner ↔
      ListedFor (dir.SafeClient runtime) accountId owner) :
    Holds python.clients (dir.SafeClient runtime) := by
  obtain ⟨-, strict, hstrictRead, hnodup, hstrict⟩ := GoRegistry.holds_of_load hgo
  obtain ⟨safe, hsafeRead, hsafe, hclients⟩ := load_clients hpython
  have hlength : (safe.map Client.clientId).length ≤ (strict.map Client.clientId).length := by
    have hstrictLength := congrArg List.length hstrictRead
    have hsafeLength := congrArg List.length hsafeRead
    simp only [List.length_map] at hstrictLength hsafeLength ⊢
    omega
  have hsubset : strict.map Client.clientId ⊆ safe.map Client.clientId := by
    intro id hid
    obtain ⟨c, hc, rfl⟩ := List.mem_map.mp hid
    obtain ⟨accountId, hlists⟩ := GoRegistry.exists_lists hgo ((hstrict c).mpr hc)
    obtain ⟨c', hc', hid', -⟩ :=
      (hsame accountId c.clientId).mp ⟨c, (hstrict c).mpr hc, rfl, hlists⟩
    exact List.mem_map.mpr ⟨c', (hsafe c').mp hc', hid'⟩
  have hperm := (List.subperm_of_subset hnodup hsubset).perm_of_length_le hlength
  intro key c
  rw [hclients, Ordered.Dict.get?_ofPairs_of_nodup, hsafe, List.mem_map]
  · constructor
    · rintro ⟨c', hmem, hpair⟩
      obtain ⟨rfl, rfl⟩ := Prod.mk.inj hpair
      exact ⟨hmem, rfl⟩
    · rintro ⟨hmem, rfl⟩
      exact ⟨c, hmem, rfl⟩
  · rw [List.map_map]
    exact hperm.nodup hnodup

/-- A configuration that both loaders accept is unambiguous exactly when they read the
same accounts, every account has one client and every domain of a client one expectation. -/
theorem unambiguous_iff_singleOwners
    (compiles : String → Bool) (toUpper : Char → Char) (runtime : YamlRuntime)
    (text : Inspector.Runtime) (dir : ConfigDirectory) (go : GoRegistry) (python : PythonRegistry)
    (hgo : GoRegistry.load compiles toUpper dir = .ok go)
    (hpython : PythonRegistry.load runtime text dir = .ok python) :
    Unambiguous dir runtime go python ↔ SingleOwners dir runtime := by
  obtain ⟨hholdsGo, -⟩ := GoRegistry.holds_of_load hgo
  constructor
  · intro h
    have hsame : ∀ accountId owner, ListedFor dir.StrictClient accountId owner ↔
        ListedFor (dir.SafeClient runtime) accountId owner := by
      intro accountId owner
      constructor
      · intro hlisted
        obtain ⟨-, hfirst, -⟩ := h.owner accountId owner (Or.inl hlisted)
        obtain ⟨c, hmem, hid, hlists⟩ := firstOwner_mem hfirst
        obtain ⟨key, hget⟩ := mem_clientsById.mp hmem
        obtain ⟨list, -, hsafe, hclients⟩ := PythonRegistry.load_clients hpython
        rw [hclients] at hget
        exact ⟨c, (hsafe c).mpr (PythonRegistry.mem_of_get? hget).1, hid, hlists⟩
      · intro hlisted
        obtain ⟨hfirst, -, -⟩ := h.owner accountId owner (Or.inr hlisted)
        obtain ⟨c, hmem, hid, hlists⟩ := firstOwner_mem hfirst
        exact ⟨c, (mem_clientsById_of_holds hholdsGo).mp hmem, hid, hlists⟩
    have hholdsPython := PythonRegistry.holds_of_same hgo hpython hsame
    refine ⟨hsame, fun accountId owner owner' hlisted hlisted' => ?_,
      (expectation_of_holds hholdsGo).mp h.goExpectation,
      (expectation_of_holds hholdsPython).mp h.pythonExpectation⟩
    have hfirst := (h.owner accountId owner (Or.inl hlisted)).1
    rw [(h.owner accountId owner' (Or.inl hlisted')).1] at hfirst
    exact (Option.some.inj hfirst).symm
  · intro h
    have hholdsPython := PythonRegistry.holds_of_same hgo hpython h.same
    refine ⟨fun accountId owner hlisted => ?_, (expectation_of_holds hholdsGo).mpr h.goDomains,
      (expectation_of_holds hholdsPython).mpr h.pythonDomains⟩
    have hstrict : ListedFor dir.StrictClient accountId owner :=
      hlisted.elim id (h.same accountId owner).mpr
    have hsafe := (h.same accountId owner).mp hstrict
    have hsingle : ∀ owner', ListedFor dir.StrictClient accountId owner' → owner' = owner :=
      fun owner' hother => h.single accountId owner' owner hother hstrict
    have hsingleSafe : ∀ owner', ListedFor (dir.SafeClient runtime) accountId owner' →
        owner' = owner :=
      fun owner' hother => hsingle owner' ((h.same accountId owner').mpr hother)
    exact ⟨firstOwner_of_holds hholdsGo hstrict hsingle,
      firstOwner_of_holds hholdsPython hsafe hsingleSafe,
      lastOwner_of_holds hholdsPython hsafe hsingleSafe⟩

end Loaded

/-! ## Two directories -/

/-- The file of a client with these accounts, and expectations of these domains and cadences. -/
def clientFile (clientId : String) (accountIds : List String) (covered : List (String × String)) :
    ClientFile where
  name := clientId ++ ".yaml"
  strict := some
    { clientId, calendar := "US_EQUITY", lateWindowDays := 2
      accounts := accountIds.map fun accountId => { id := accountId }
      expectations := covered.map fun (domain, cadence) => { id := cadence, domain, cadence } }
  safe := some (.map
    [(.str "client_id", .str clientId), (.str "calendar", .str "US_EQUITY"),
      (.str "accounts", .seq (accountIds.map fun accountId => .map [(.str "id", .str accountId)])),
      (.str "expectations", .seq (covered.map fun (domain, cadence) =>
        .map [(.str "id", .str cadence), (.str "domain", .str domain), (.str "cadence", .str cadence),
          (.str "sides", .map [
            (.str "internal_gl", .map [(.str "source_hint", .str "gl")]),
            (.str "external_client", .map [(.str "source_hint", .str "client")])])]))])

def usEquityFile : CalendarFile := { calendarId := some "US_EQUITY" }

def plainYaml : YamlRuntime := ⟨fun _ => "", fun _ => none, fun _ => true⟩

/-- Two clients list the same account, and one has two expectations of its trades. -/
def sharedDirectory : ConfigDirectory where
  calendars := [usEquityFile]
  clients := [clientFile "CLNT001" ["ACC-1"] [("TRADE", "DAILY"), ("TRADE", "MONTHLY")],
    clientFile "CLNT002" ["ACC-1"] [("TRADE", "DAILY")]]

/-- Both loaders accept the directory. The account belongs to the first client by two
of the lookups and to the second by the third, and the monthly trades are never found. -/
theorem shared_account_ambiguous :
    ∃ go python, GoRegistry.load (fun _ => true) Char.toUpper sharedDirectory = .ok go ∧
      PythonRegistry.load plainYaml .ascii sharedDirectory = .ok python ∧
      (python.accountOwner "ACC-1").map (fun o => o.1.clientId) = some "CLNT001" ∧
      python.allAccountIds.get? "ACC-1" = some "CLNT002" ∧
      ((go.client "CLNT001").bind fun c => c.expectationFor "TRADE").map Expectation.id =
        some "DAILY" ∧
      ¬ Unambiguous sharedDirectory plainYaml go python := by
  have hgo : (GoRegistry.load (fun _ => true) Char.toUpper sharedDirectory).toOption.map
      (fun go => ((go.client "CLNT001").bind fun c => c.expectationFor "TRADE").map Expectation.id) =
        some (some "DAILY") := by decide +kernel
  have hpython : (PythonRegistry.load plainYaml .ascii sharedDirectory).toOption.map
      (fun python => ((python.accountOwner "ACC-1").map (fun o => o.1.clientId),
        python.allAccountIds.get? "ACC-1")) = some (some "CLNT001", some "CLNT002") := by
    decide +kernel
  obtain ⟨go, hloadGo, hmonthly⟩ := Fallible.ok_of_toOption hgo
  obtain ⟨python, hloadPython, howners⟩ := Fallible.ok_of_toOption hpython
  obtain ⟨hfirst, hlast⟩ := Prod.mk.inj howners
  refine ⟨go, python, hloadGo, hloadPython, hfirst, hlast, hmonthly, fun h => ?_⟩
  have hlisted : ListedFor sharedDirectory.StrictClient "ACC-1" "CLNT001" :=
    ⟨_, ⟨_, List.mem_cons_self, rfl⟩, rfl, _, List.mem_cons_self, rfl⟩
  have howner := (h.owner "ACC-1" "CLNT001" (Or.inl hlisted)).2.2
  rw [hlast] at howner
  exact absurd howner (by decide)

/-- Two clients with accounts of their own, one of them with trades and positions. -/
def ownDirectory : ConfigDirectory where
  calendars := [usEquityFile]
  clients := [clientFile "CLNT001" ["ACC-1", "ACC-2"] [("TRADE", "DAILY"), ("POSITION", "MONTHLY")],
    clientFile "CLNT002" ["ACC-3", "ACC-4"] [("TRADE", "DAILY")]]

theorem unambiguous_single :
    ∃ go python, GoRegistry.load (fun _ => true) Char.toUpper ownDirectory = .ok go ∧
      PythonRegistry.load plainYaml .ascii ownDirectory = .ok python ∧
      (Unambiguous ownDirectory plainYaml go python ↔ SingleOwners ownDirectory plainYaml) := by
  have hgo : (GoRegistry.load (fun _ => true) Char.toUpper ownDirectory).toOption.map
      (fun _ => ()) = some () := by decide +kernel
  have hpython : (PythonRegistry.load plainYaml .ascii ownDirectory).toOption.map
      (fun _ => ()) = some () := by decide +kernel
  obtain ⟨go, hloadGo, -⟩ := Fallible.ok_of_toOption hgo
  obtain ⟨python, hloadPython, -⟩ := Fallible.ok_of_toOption hpython
  exact ⟨go, python, hloadGo, hloadPython, unambiguous_iff_singleOwners (fun _ => true) Char.toUpper
    plainYaml .ascii ownDirectory go python hloadGo hloadPython⟩

end Harbormaster
