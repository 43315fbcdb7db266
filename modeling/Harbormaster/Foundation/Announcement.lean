import Mathlib.Data.List.Induction
import Mathlib.Logic.Function.Basic

/-! # Files that are announced

A program writes files and announces each of them once it is written. It may be stopped
before any of its effects, or in the middle of a write, which leaves a torn file. It then
starts over, and writes some of its files again.
-/

namespace Announcement

variable {κ ν α : Type}

/-- What a program does to the world. -/
inductive Effect (κ ν α : Type) where
  | write (key : κ) (value : ν)
  | announce (note : α)

inductive Stored (ν : Type) where
  | whole (value : ν)
  | torn
deriving DecidableEq

structure World (κ ν α : Type) where
  files : κ → Option (Stored ν)
  announced : List α

/-- Where a pass through the effects is stopped. -/
inductive Stop where
  | never
  | before (count : Nat)
  | during (count : Nat)
deriving DecidableEq

/-- The effects that take place. -/
def Stop.completed (stop : Stop) (effects : List (Effect κ ν α)) : List (Effect κ ν α) :=
  match stop with
  | never => effects
  | before count | during count => effects.take count

/-- The effect that is broken off. -/
def Stop.broken (stop : Stop) (effects : List (Effect κ ν α)) : Option (Effect κ ν α) :=
  match stop with
  | never | before _ => none
  | during count => effects[count]?

namespace World

variable [DecidableEq κ]

def empty : World κ ν α := ⟨fun _ => none, []⟩

def apply (world : World κ ν α) : Effect κ ν α → World κ ν α
  | .write key value =>
      { world with files := Function.update world.files key (some (.whole value)) }
  | .announce note => { world with announced := world.announced ++ [note] }

/-- Break an effect off. An announcement that is broken off is not made. -/
def tear (world : World κ ν α) : Effect κ ν α → World κ ν α
  | .write key _ => { world with files := Function.update world.files key (some .torn) }
  | .announce _ => world

/-- One pass through the effects. -/
def pass (world : World κ ν α) (effects : List (Effect κ ν α)) (stop : Stop) : World κ ν α :=
  let reached := (stop.completed effects).foldl apply world
  match stop.broken effects with
  | some effect => reached.tear effect
  | none => reached

/-- What is read from a file. -/
def read (world : World κ ν α) (key : κ) : Option ν :=
  match world.files key with
  | some (.whole value) => some value
  | _ => none

/-- Passes one after the other. -/
def run (passes : List (List (Effect κ ν α) × Stop)) : World κ ν α :=
  passes.foldl (fun world entry => world.pass entry.1 entry.2) empty

variable {world : World κ ν α} {effects : List (Effect κ ν α)} {stop : Stop} {key : κ} {value : ν}
variable {note : α} {passes : List (List (Effect κ ν α) × Stop)}

variable {target : α → κ}

/-- Each announcement comes after the file it is about is written. -/
def WrittenFirst (target : α → κ) (effects : List (Effect κ ν α)) : Prop :=
  ∀ before note, before ++ [.announce note] <+: effects →
    ∃ value, .write (target note) value ∈ before

omit [DecidableEq κ] in
/-- A file is written and announced before the rest. -/
theorem WrittenFirst.cons_cons (h : WrittenFirst target effects) (value : ν) (note : α) :
    WrittenFirst target (.write (target note) value :: .announce note :: effects) := by
  intro before other hprefix
  cases before with
  | nil => cases (List.cons_prefix_cons.mp hprefix).1
  | cons first before =>
      obtain ⟨hfirst, hrest⟩ := List.cons_prefix_cons.mp hprefix
      subst hfirst
      cases before with
      | nil =>
          obtain rfl := Effect.announce.inj (List.cons_prefix_cons.mp hrest).1
          exact ⟨value, List.mem_cons_self⟩
      | cons second before =>
          obtain ⟨held, hwrite⟩ := h before other (List.cons_prefix_cons.mp hrest).2
          exact ⟨held, List.mem_cons_of_mem _ (List.mem_cons_of_mem _ hwrite)⟩

end World

end Announcement
