import Harbormaster.FileSystem
import Harbormaster.Foundation.Sha256

/-! # The filesystem object store

`FS` of `go/internal/store/objectstore`, on Unix paths, over the calls it makes on the
file system. A key and a URI are any byte strings, as Go strings are. The lock, which
only orders the writers, is left out.
-/

namespace Harbormaster.ObjectStore

open Effect Program FileSystem SlashPath Alphabet

/-- `strings.TrimPrefix`. -/
def trimPrefix (start text : Bytes) : Bytes :=
  if start <+: text then text.drop start.length else text

theorem trimPrefix_append (start rest : Bytes) : trimPrefix start (start ++ rest) = rest := by
  rw [trimPrefix, if_pos (List.prefix_append start rest), List.drop_left]

theorem trimPrefix_slash {text : Bytes} (h : isAbs text = false) :
    trimPrefix [slash] text = text := by
  rw [trimPrefix, if_neg]
  rintro ⟨rest, rfl⟩
  simp [isAbs] at h

inductive Failure where
  | createRoot
  | resolveRoot
  | parentSegment (key : Bytes)
  | escapesRoot (key : Bytes)
  | mkdir
  | tempFile
  | write (key : Bytes)
  | closeTemp
  | rename
  | notFsUri (uri : Bytes)
  | notFound (uri : Bytes)
  | openFile (uri : Bytes)
  | stat (uri : Bytes)
deriving DecidableEq

/-! ## The store -/

/-- A store below a root, which `NewFS` has made absolute. -/
structure FS where
  root : Bytes
  root_isAbs : isAbs root = true
  root_clean : clean root = root

/-- A store with the clean form of an absolute root. -/
def FS.rooted (root : Bytes) (h : isAbs root = true) : FS where
  root := clean root
  root_isAbs := (stackOf_text (stackOf_settled root)).1.trans h
  root_clean := clean_clean root

/-- `NewFS`. A relative root is one below the working directory. -/
def newFS (root : Bytes) : Files Failure FS := do
  let _ ← ask (FileCall.mkdirAll root) >>= orFail .createRoot
  if h : isAbs root = true then return .rooted root h
  else
    let wd ← ask FileCall.getwd >>= orFail .resolveRoot
    return .rooted (wd.val ++ slash :: root) (by
      obtain ⟨path, hpath⟩ := wd
      cases path with
      | nil => cases hpath
      | cons c path => exact hpath)

def fsScheme : Bytes := Bytes.utf8 "fs://"

namespace FS

variable (fs : FS)

/-- Where a key is kept. -/
def pathFor (key : Bytes) : Except Failure Bytes :=
  if (key.splitOn slash).any (fun seg => seg = parent) then .error (.parentSegment key)
  else
    let full := joined fs.root (clean (slash :: trimPrefix [slash] key))
    if ¬ fs.root ++ [slash] <+: full ∧ full ≠ fs.root then .error (.escapesRoot key)
    else .ok full

structure Stored where
  uri : Bytes
  size : Nat
  sha256 : Bytes

/-- The URI of what was written. -/
def uriOf (full : Bytes) : Bytes := fsScheme ++ trimPrefix [slash] (trimPrefix fs.root full)

/-- The part of `Put` from the temporary file to its new name. -/
def write (key full tmpName content : Bytes) : Files Failure Stored := do
  match ← copy tmpName content with
  | none =>
      let _ ← ask (FileCall.close tmpName)
      fail (.write key)
  | some () =>
      let _ ← ask (FileCall.close tmpName) >>= orFail .closeTemp
      let _ ← ask (FileCall.rename tmpName full) >>= orFail .rename
      return {
        uri := fs.uriOf full
        size := content.length
        sha256 := Bytes.hex (Sha256.digest content) }

/-- `Put`. The temporary file is removed however the writing ends. -/
def put (key content : Bytes) : Files Failure Stored := do
  let full ← ofExcept (fs.pathFor key)
  let _ ← ask (FileCall.mkdirAll (dir full)) >>= orFail .mkdir
  let tmpName ← ask (FileCall.createTemp (dir full) ".hm-*") >>= orFail .tempFile
  let written ← (fs.write key full tmpName content).attempt
  let _ ← ask (FileCall.remove tmpName)
  ofExcept written

def resolve (uri : Bytes) : Except Failure Bytes :=
  if fsScheme <+: uri then fs.pathFor (trimPrefix fsScheme uri) else .error (.notFsUri uri)

def get (uri : Bytes) : Files Failure Bytes := do
  let full ← ofExcept (fs.resolve uri)
  match ← openFile full with
  | .found content => return content
  | .notExist => fail (.notFound uri)
  | .failed => fail (.openFile uri)

def stat (uri : Bytes) : Files Failure Nat := do
  let full ← ofExcept (fs.resolve uri)
  match ← statFile full with
  | .found size => return size
  | .notExist => fail (.notFound uri)
  | .failed => fail (.stat uri)

/-! ## Names below the root -/

/-- The names a key leads through. -/
def keyNames (key : Bytes) : List Bytes := (stackOf (slash :: trimPrefix [slash] key)).reverse

theorem name_of_mem_keyNames {key : Bytes} : ∀ name ∈ keyNames key, Name name := fun name hname =>
  (stackOf_settled (slash :: trimPrefix [slash] key)).names name (List.mem_reverse.mp hname)

theorem clean_key (key : Bytes) :
    clean (slash :: trimPrefix [slash] key) = absolute (keyNames key) := by
  simp [clean, isAbs, text, absolute, keyNames]

/-- A relative path of names is a key for these names. -/
theorem keyNames_join {names : List Bytes} (h : ∀ name ∈ names, Name name) :
    keyNames (join names) = names := by
  have hrelative : isAbs (join names) = false := not_isAbs_join fun name hname =>
    ⟨(not_or.mp (h name hname).kept).1, (h name hname).no_slash⟩
  rw [keyNames, trimPrefix_slash hrelative, ← absolute, stackOf_absolute h,
    List.reverse_reverse]

theorem no_parent_join {names : List Bytes} (h : ∀ name ∈ names, Name name) :
    (((join names).splitOn slash).any fun seg => seg = parent) = false := by
  by_cases hnil : names = []
  · subst hnil
    decide
  · have hsplit : (join names).splitOn slash = names :=
      List.splitOn_intercalate slash (fun name hname => (h name hname).no_slash) hnil
    rw [hsplit, List.any_eq_false]
    intro name hname
    simpa using (h name hname).ne_parent

variable {fs : FS} {rootNames : List Bytes}

theorem exists_rootNames (fs : FS) :
    ∃ names, (∀ name ∈ names, Name name) ∧ fs.root = absolute names := by
  obtain ⟨names, hnames, hclean⟩ := exists_names fs.root_isAbs
  exact ⟨names, hnames, fs.root_clean.symm.trans hclean⟩

/-- A key without a parent segment is kept below the root, under its names; a store at the
root of the file system keeps nothing but that root. -/
theorem pathFor_eq (hnames : ∀ name ∈ rootNames, Name name)
    (hroot : fs.root = absolute rootNames) (key : Bytes) :
    fs.pathFor key =
      if (key.splitOn slash).any (fun seg => seg = parent) then .error (.parentSegment key)
      else if rootNames = [] ∧ keyNames key ≠ [] then .error (.escapesRoot key)
      else .ok (absolute (rootNames ++ keyNames key)) := by
  have hkey := @name_of_mem_keyNames key
  have hself : absolute (rootNames ++ keyNames key) = absolute rootNames ↔
      keyNames key = [] := by
    constructor
    · intro h
      exact List.append_right_eq_self.mp (absolute_injective
        (List.forall_mem_append.mpr ⟨hnames, hkey⟩) hnames h)
    · intro h
      rw [h, List.append_nil]
  have hescape : (¬ absolute rootNames ++ [slash] <+:
        absolute (rootNames ++ keyNames key) ∧
      absolute (rootNames ++ keyNames key) ≠ absolute rootNames) ↔
      rootNames = [] ∧ keyNames key ≠ [] := by
    simp only [absolute_prefix_iff hkey, ne_eq, hself]
    tauto
  simp only [pathFor, clean_key, hroot, joined_absolute hnames hkey, hescape]

/-- A relative key leads through the names it is made of. -/
theorem mem_keyNames {key name : Bytes} (hrelative : isAbs key = false)
    (hparent : parent ∉ key.splitOn slash) (hname : Name name) (h : name ∈ key.splitOn slash) :
    name ∈ keyNames key := by
  have hsplit : (slash :: key).splitOn slash = [] :: key.splitOn slash := by
    simp [List.splitOn_cons_eq_if_modifyHead]
  have hmem : parent ∉ (slash :: key).splitOn slash := by
    rw [hsplit, List.mem_cons, not_or]
    exact ⟨by simp [parent], hparent⟩
  rw [keyNames, trimPrefix_slash hrelative, List.mem_reverse]
  refine mem_foldl_push hmem hname (Or.inl ?_)
  rw [hsplit]
  exact List.mem_cons_of_mem _ h

/-- Below every root but that of the file system itself, all keys without a parent segment
are accepted. -/
theorem pathFor_accepts_iff (fs : FS) {key : Bytes} (hparent : parent ∉ key.splitOn slash)
    (hkey : keyNames key ≠ []) : (∃ full, fs.pathFor key = .ok full) ↔ fs.root ≠ [slash] := by
  obtain ⟨rootNames, hnames, hroot⟩ := fs.exists_rootNames
  have hany : ((key.splitOn slash).any fun seg => seg = parent) = false := by
    rw [List.any_eq_false]
    intro seg hseg heq
    exact hparent (of_decide_eq_true heq ▸ hseg)
  have hempty : fs.root = [slash] ↔ rootNames = [] := by
    rw [hroot]
    constructor
    · intro h
      exact absolute_injective hnames (by simp) h
    · rintro rfl
      rfl
  rw [pathFor_eq hnames hroot, hany, if_neg Bool.false_ne_true]
  by_cases hnil : rootNames = []
  · simp [hnil, hkey, hempty]
  · simp [hnil, hempty]

/-- What is kept below a root is found again under the rest of its path. -/
theorem uriOf_eq (hroot : fs.root = absolute rootNames) {names : List Bytes}
    (hnames : ∀ name ∈ names, Name name) (hbelow : ¬ (rootNames = [] ∧ names ≠ [])) :
    fs.uriOf (absolute (rootNames ++ names)) = fsScheme ++ join names := by
  have hrest : trimPrefix [slash]
      (trimPrefix fs.root (absolute (rootNames ++ names))) = join names := by
    by_cases hnil : names = []
    · subst hnil
      have hself := trimPrefix_append fs.root []
      rw [List.append_nil] at hself
      rw [List.append_nil, ← hroot, hself]
      rfl
    · have hrootNames : rootNames ≠ [] := fun h => hbelow ⟨h, hnil⟩
      rw [absolute_append hrootNames hnil, ← hroot, trimPrefix_append]
      exact trimPrefix_append [slash] (join names)
  rw [uriOf, hrest]

/-- The URI of a path that a key led to leads to the same path. -/
theorem resolve_uriOf {key full : Bytes} (h : fs.pathFor key = .ok full) :
    fs.resolve (fs.uriOf full) = .ok full := by
  obtain ⟨rootNames, hnames, hroot⟩ := fs.exists_rootNames
  rw [pathFor_eq hnames hroot] at h
  split at h
  next => cases h
  next =>
    split at h
    next => cases h
    next hbelow =>
      obtain rfl := Except.ok.inj h
      have hkey := @name_of_mem_keyNames key
      rw [uriOf_eq hroot hkey hbelow, resolve, if_pos (List.prefix_append _ _),
        trimPrefix_append, pathFor_eq hnames hroot, no_parent_join hkey, keyNames_join hkey,
        if_neg Bool.false_ne_true, if_neg hbelow]

/-- A path that a key leads to is clean, and is the root or below it. -/
theorem pathFor_confined {key full : Bytes} (h : fs.pathFor key = .ok full) :
    clean full = full ∧ (full = fs.root ∨ Under fs.root full) := by
  obtain ⟨rootNames, hnames, hroot⟩ := fs.exists_rootNames
  rw [pathFor_eq hnames hroot] at h
  split at h
  next => cases h
  next =>
    split at h
    next => cases h
    next hbelow =>
      obtain rfl := Except.ok.inj h
      have hkey := @name_of_mem_keyNames key
      refine ⟨clean_absolute (List.forall_mem_append.mpr ⟨hnames, hkey⟩), ?_⟩
      rw [hroot]
      by_cases hnil : keyNames key = []
      · rw [hnil, List.append_nil]
        exact Or.inl rfl
      · have hrootNames : rootNames ≠ [] := fun h => hbelow ⟨h, hnil⟩
        refine Or.inr ⟨join (keyNames key), ?_, absolute_append hrootNames hnil⟩
        exact join_ne_nil hnil fun name hname => (not_or.mp (hkey name hname).kept).1

/-! ## What is written -/

section Put

variable (fs : FS) {world : World} {before : List Bytes}

/-- The new name is given last. -/
theorem write_spec (key full tmpName content : Bytes) (h : world.written = before) :
    Meets (fun world result =>
      match result with
      | .ok stored => stored.uri = fs.uriOf full ∧ world.written = before ++ [full]
      | .error _ => world.written = before) (fs.write key full tmpName content) world := by
  refine Spec.bind (meets_ask (.copy tmpName content) (fun _ => rfl) h fun world copied h => ?_)
  cases copied with
  | none =>
      exact Spec.bind (meets_ask (.close tmpName) (fun _ => rfl) h fun world _ h => h)
  | some =>
      refine Spec.bind (meets_orFail (.close tmpName) (fun reply => reply) Failure.closeTemp
        (fun _ => rfl) h (fun world _ h => ?_) fun _ h => h)
      exact Spec.bind (meets_write (.rename tmpName full) (fun reply => reply) Failure.rename
        (fun reply => by cases reply <;> rfl) h (fun world h => ⟨rfl, h⟩) fun _ h => h)

/-- `Put` writes nothing but the path of its key. -/
theorem put_spec (key content : Bytes) (h : world.written = before) :
    Meets (fun world result =>
      match result with
      | .ok stored => ∃ full, fs.pathFor key = .ok full ∧ stored.uri = fs.uriOf full ∧
          world.written = before ++ [full]
      | .error _ => world.written = before) (fs.put key content) world := by
  refine Spec.bind (Spec.ofExcept ?_)
  cases hpath : fs.pathFor key with
  | error cause => exact h
  | ok full =>
      refine Spec.bind (meets_orFail (.mkdirAll (dir full)) (fun reply => reply) Failure.mkdir
        (fun _ => rfl) h (fun world _ h => ?_) fun _ h => h)
      refine Spec.bind (meets_orFail (.createTemp (dir full) ".hm-*") (fun reply => reply)
        Failure.tempFile (fun _ => rfl) h (fun world tmpName h => ?_) fun _ h => h)
      refine Spec.bind (Spec.attempt ((fs.write_spec key full tmpName content h).mono
        (fun _ h => h) fun world written hwritten => ?_))
      cases written with
      | error cause =>
          exact Spec.bind (meets_ask (.remove tmpName) (fun _ => rfl) hwritten
            fun world _ h => h)
      | ok stored =>
          obtain ⟨huri, hwritten⟩ := hwritten
          exact Spec.bind (meets_ask (.remove tmpName) (fun _ => rfl) hwritten
            fun world _ h => ⟨full, rfl, huri, h⟩)

end Put

/-- A key is rejected, or leads to the root or below it; and the URI that `Put` returns leads
to the path it wrote, whatever the file system answers. -/
theorem confined_and_resolved (fs : FS) (key : Bytes) :
    (∀ full, fs.pathFor key = .ok full →
      clean full = full ∧ (full = fs.root ∨ Under fs.root full)) ∧
    ∀ (content : Bytes) (script : Script Answers) (world world' : World) (stored : Stored),
      (fs.put key content).run perform script world = (world', .value stored) →
        ∃ full, world'.written = world.written ++ [full] ∧ fs.resolve stored.uri = .ok full := by
  refine ⟨fun full => pathFor_confined, fun content script world world' stored hrun => ?_⟩
  have hend := Meets.run (fs.put_spec key content (rfl : world.written = _)) script
  rw [hrun] at hend
  obtain ⟨full, hpath, huri, hwritten⟩ := hend
  refine ⟨full, hwritten, ?_⟩
  rw [huri]
  exact resolve_uriOf hpath

section Sample

def sampleFS : FS := .rooted (Bytes.utf8 "/data//objects/") (by decide)

/-- A file system where every call succeeds. -/
def willing : Answers
  | .getwd => some ⟨[slash], by decide⟩
  | .createTemp dir _ => some (joined dir (Bytes.utf8 ".hm-1"))
  | .openFile _ => .found []
  | .stat _ => .found 0
  | .mkdirAll _ | .copy _ _ | .close _ | .rename _ _ | .remove _ | .writeFile _ _ => some ()

/-- A key with repeated slashes, a single dot and the look of a URI. -/
def sampleKey : Bytes := Bytes.utf8 "/raw//fs://a/./b.json"

def samplePath : Bytes := Bytes.utf8 "/data/objects/raw/fs:/a/b.json"

theorem resolved_sample :
    ∃ world stored, (sampleFS.put sampleKey []).run perform (fun _ => some willing) ⟨(), []⟩ =
        (world, .value stored) ∧
      World.written world = [samplePath] ∧ sampleFS.resolve stored.uri = .ok samplePath := by
  have hpath : sampleFS.pathFor sampleKey = .ok samplePath := by decide +kernel
  have hrun : ∃ world stored, (sampleFS.put sampleKey []).run perform (fun _ => some willing)
      ⟨(), []⟩ = (world, .value stored) ∧ World.written world = [samplePath] := by
    rw [put, hpath]
    exact ⟨_, _, rfl, rfl⟩
  obtain ⟨world, stored, hrun, hwritten⟩ := hrun
  obtain ⟨full, hfull, hresolve⟩ :=
    (confined_and_resolved sampleFS sampleKey).2 [] (fun _ => some willing) _ _ _ hrun
  have hsame : [samplePath] = [full] := hwritten.symm.trans hfull
  obtain rfl := (List.cons.inj hsame).1
  exact ⟨world, stored, hrun, hwritten, hresolve⟩

end Sample

end FS

end Harbormaster.ObjectStore
