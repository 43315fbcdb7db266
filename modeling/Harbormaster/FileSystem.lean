import Harbormaster.Foundation.Bytes
import Harbormaster.Foundation.Program
import Harbormaster.Foundation.SlashPath

/-! # The file system

The calls of `os` and `io` that write payloads and objects, on Unix paths. The
environment may answer every call as it likes; what a run has written is read off the
calls that succeeded.
-/

namespace Harbormaster.FileSystem

open Effect Program SlashPath

/-- The calls of `os` and `io`. -/
inductive FileCall where
  | getwd
  | mkdirAll (path : Bytes)
  | createTemp (dir : Bytes) (pattern : String)
  | copy (path content : Bytes)
  | close (path : Bytes)
  | rename (oldPath newPath : Bytes)
  | remove (path : Bytes)
  | writeFile (path content : Bytes)
  | openFile (path : Bytes)
  | stat (path : Bytes)

/-- What opening a file finds. -/
inductive Found (α : Type) where
  | found (value : α)
  | notExist
  | failed

/-- The reply to each call; `none` is a failure. The working directory is absolute. -/
abbrev FileReply : FileCall → Type
  | .getwd => Option {path : Bytes // isAbs path = true}
  | .mkdirAll _ => Option Unit
  | .createTemp _ _ => Option Bytes
  | .copy _ _ => Option Unit
  | .close _ => Option Unit
  | .rename _ _ => Option Unit
  | .remove _ => Option Unit
  | .writeFile _ _ => Option Unit
  | .openFile _ => Found Bytes
  | .stat _ => Found Nat

abbrev Files (ε : Type) := Program FileCall FileReply ε

section Calls

variable {ε : Type}

def copy (path content : Bytes) : Files ε (Option Unit) := ask (FileCall.copy path content)
def openFile (path : Bytes) : Files ε (Found Bytes) := ask (FileCall.openFile path)
def statFile (path : Bytes) : Files ε (Found Nat) := ask (FileCall.stat path)

end Calls

/-! ## Runs -/

abbrev Answers := (request : FileCall) → FileReply request

abbrev World := Recorded Unit FileCall FileReply

def perform : World → Answers → (request : FileCall) → World × FileReply request :=
  Effect.record fun state answers request => (state, answers request)

def written? : Event FileCall FileReply → Option Bytes
  | ⟨.rename _ newPath, some ()⟩ => some newPath
  | ⟨.writeFile path _, some ()⟩ => some path
  | _ => none

/-- The paths whose content was replaced, oldest first. -/
def World.written (world : World) : List Bytes := world.calls.filterMap written?

theorem World.written_perform (world : World) (answers : Answers) (request : FileCall) :
    World.written (perform world answers request).1 =
      World.written world ++ (written? ⟨request, answers request⟩).toList := by
  refine List.filterMap_append.trans (congrArg _ ?_)
  cases h : written? ⟨request, answers request⟩ with
  | none => exact List.filterMap_cons_none h
  | some path => exact List.filterMap_cons_some h

/-- Whatever the answers are. -/
abbrev Meets {ε α : Type} (after : World → Except ε α → Prop) (program : Files ε α)
    (world : World) : Prop :=
  program.Spec perform (fun _ _ _ => True) (fun _ => True) after world

theorem Meets.run {ε α : Type} {after : World → Except ε α → Prop} {program : Files ε α}
    {world : World} (h : Meets after program world) (script : Script Answers) :
    EndsIn (fun _ => True) after (program.run perform script world) :=
  Spec.run h (obeys_of_forall program (fun _ _ _ _ _ => trivial) world)

section Calls

variable {ε α : Type} {after : World → Except ε α → Prop} {world : World} {before : List Bytes}

/-- A call that replaces no content. -/
theorem meets_ask (request : FileCall) {after : World → Except ε (FileReply request) → Prop}
    (hquiet : ∀ reply, written? ⟨request, reply⟩ = none) (h : world.written = before)
    (hafter : ∀ world reply, world.written = before → after world (.ok reply)) :
    Meets after (ask request) world := by
  refine ⟨trivial, fun answers _ => hafter _ _ ?_⟩
  rw [world.written_perform, hquiet, Option.toList_none, List.append_nil, h]

theorem meets_orFail (request : FileCall) (read : FileReply request → Option α) (cause : ε)
    (hquiet : ∀ reply, written? ⟨request, reply⟩ = none) (h : world.written = before)
    (hgood : ∀ world value, world.written = before → after world (.ok value))
    (hbad : ∀ world, world.written = before → after world (.error cause)) :
    Meets after (ask request >>= fun reply => orFail cause (read reply)) world := by
  refine Spec.bind (meets_ask request hquiet h fun world reply h => ?_)
  change Meets after (orFail cause (read reply)) world
  cases read reply with
  | none => exact hbad world h
  | some value => exact hgood world value h

/-- A call that replaces the content of one path, or fails and replaces none. -/
theorem meets_write {after : World → Except ε Unit → Prop} {path : Bytes} (request : FileCall)
    (read : FileReply request → Option Unit) (cause : ε)
    (hwrites : ∀ reply, written? ⟨request, reply⟩ = (read reply).map fun _ => path)
    (h : world.written = before)
    (hgood : ∀ world, world.written = before ++ [path] → after world (.ok ()))
    (hbad : ∀ world, world.written = before → after world (.error cause)) :
    Meets after (ask request >>= fun reply => orFail cause (read reply)) world := by
  refine ⟨trivial, fun answers _ => ?_⟩
  have hwritten := world.written_perform answers request
  rw [hwrites, h] at hwritten
  change Meets after (orFail cause (read (answers request))) _
  cases hread : read (answers request) with
  | none =>
      rw [hread] at hwritten
      exact hbad _ (hwritten.trans (List.append_nil _))
  | some =>
      rw [hread] at hwritten
      exact hgood _ hwritten

end Calls

end Harbormaster.FileSystem
