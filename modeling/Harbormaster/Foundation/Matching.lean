/-! # Backtracking matchers

A matcher stands at a position of a text and lists the ways in which it can read
on, the preferred one first. Sequencing tries the ways of the first part in
order, so the head of the list is what a backtracking regular-expression engine
finds.
-/

namespace Matching

/-- A position in a text: the characters before it, last first, and after it. -/
structure Cursor where
  before : List Char
  rest : List Char

/-- The ways to read on from a position, the preferred one first. -/
def Matcher (α : Type) : Type := Cursor → List (α × Cursor)

namespace Matcher

variable {α β : Type}

instance : Monad Matcher where
  pure result cursor := [(result, cursor)]
  bind matcher next cursor := (matcher cursor).flatMap fun (result, after) => next result after

/-- The first alternative is preferred. -/
def orElse (first second : Matcher α) : Matcher α := fun cursor => first cursor ++ second cursor

/-- Try each matcher in turn. -/
def oneOf (matchers : List (Matcher α)) : Matcher α :=
  fun cursor => matchers.flatMap fun matcher => matcher cursor

/-- One character, and what it stands for. -/
def char (read : Char → Option α) : Matcher α
  | ⟨_, []⟩ => []
  | ⟨before, c :: rest⟩ =>
      match read c with
      | some result => [(result, ⟨c :: before, rest⟩)]
      | none => []

def satisfy (p : Char → Bool) : Matcher Char := char fun c => if p c then some c else none

def literal (c : Char) : Matcher Unit := char fun c' => if c' = c then some () else none

/-- Exactly `count` readings. -/
def times (matcher : Matcher α) : Nat → Matcher (List α)
  | 0 => pure []
  | count + 1 => do
      let result ← matcher
      return result :: (← times matcher count)

/-- At most `count` readings, as many as possible preferred. -/
def upTo (matcher : Matcher α) : Nat → Matcher (List α)
  | 0 => pure []
  | count + 1 =>
      orElse (do
        let result ← matcher
        return result :: (← upTo matcher count)) (pure [])

/-- Between `low` and `high` readings, as many as possible preferred. -/
def between (matcher : Matcher α) (low high : Nat) : Matcher (List α) := do
  return (← times matcher low) ++ (← upTo matcher (high - low))

/-- At least one reading, as many as possible preferred; each reads a character. -/
def many1 (matcher : Matcher α) : Matcher (List α) :=
  fun cursor => between matcher 1 cursor.rest.length cursor

/-- The rest of the text meets a condition. -/
def ahead (p : List Char → Bool) : Matcher Unit :=
  fun cursor => if p cursor.rest then [((), cursor)] else []

/-- The character before the position, if any, meets a condition. -/
def behind (p : Option Char → Bool) : Matcher Unit :=
  fun cursor => if p cursor.before.head? then [((), cursor)] else []

/-- Exactly one of the two neighbours is a character of a word. -/
def boundary (isWord : Char → Bool) : Matcher Unit := fun cursor =>
  if cursor.before.head?.any isWord != cursor.rest.head?.any isWord then [((), cursor)] else []

/-- The text that a matcher has read. -/
def captured (matcher : Matcher α) : Matcher (List Char) := fun cursor =>
  (matcher cursor).map fun (_, after) =>
    ((after.before.take (after.before.length - cursor.before.length)).reverse, after)

/-- The preferred reading at the start of a text, and what it leaves. -/
def exec (matcher : Matcher α) (text : List Char) : Option (α × List Char) :=
  (matcher ⟨[], text⟩).head?.map fun (result, after) => (result, after.rest)

/-- The preferred reading at the first position at which there is one. -/
def searchFrom (matcher : Matcher α) (before : List Char) : List Char → Option (α × Cursor)
  | [] => (matcher ⟨before, []⟩).head?
  | c :: rest =>
      match (matcher ⟨before, c :: rest⟩).head? with
      | some found => some found
      | none => searchFrom matcher (c :: before) rest

def search (matcher : Matcher α) (text : List Char) : Option α :=
  (searchFrom matcher [] text).map Prod.fst

/-- The non-overlapping readings from left to right. `skip` characters belong
to the last one. -/
def findAllFrom (matcher : Matcher α) (before : List Char) (skip : Nat) :
    List Char → List α
  | [] => []
  | c :: rest =>
      if 0 < skip then findAllFrom matcher (c :: before) (skip - 1) rest
      else match (matcher ⟨before, c :: rest⟩).head? with
        | some (result, after) =>
            result :: findAllFrom matcher (c :: before)
              (after.before.length - before.length - 1) rest
        | none => findAllFrom matcher (c :: before) 0 rest

def findAll (matcher : Matcher α) (text : List Char) : List α := findAllFrom matcher [] 0 text

end Matcher

end Matching
