import Harbormaster.Foundation.Bytes

/-! # Reading UTF-8

A decoder reads a byte string one byte at a time. Bytes that begin no character, or
break one off, are left out; the decoder remembers whether there were any.
-/

namespace Utf8

/-- A character that has begun: the bytes it still needs, the value read so far, and
the bounds of its next byte. -/
structure Begun where
  needed : Nat
  value : Nat
  low : Nat := 0x80
  high : Nat := 0xBF

/-- What a byte means. -/
inductive Meaning where
  | character (c : Char)
  | more (begun : Begun)
  | malformed

/-- A byte between characters. -/
def first (byte : Nat) : Meaning :=
  if byte < 0x80 then .character (Char.ofNat byte)
  else if byte < 0xC2 then .malformed
  else if byte < 0xE0 then .more { needed := 1, value := byte - 0xC0 }
  else if byte = 0xE0 then .more { needed := 2, value := 0, low := 0xA0 }
  else if byte = 0xED then .more { needed := 2, value := 0xD, high := 0x9F }
  else if byte < 0xF0 then .more { needed := 2, value := byte - 0xE0 }
  else if byte = 0xF0 then .more { needed := 3, value := 0, low := 0x90 }
  else if byte < 0xF4 then .more { needed := 3, value := byte - 0xF0 }
  else if byte = 0xF4 then .more { needed := 3, value := 4, high := 0x8F }
  else .malformed

/-- A byte within a character. -/
def next (begun : Begun) (byte : Nat) : Meaning :=
  if byte < begun.low ∨ begun.high < byte then .malformed
  else if begun.needed = 1 then .character (Char.ofNat (begun.value * 64 + (byte - 0x80)))
  else .more { needed := begun.needed - 1, value := begun.value * 64 + (byte - 0x80) }

/-- A text, and whether no byte was left out. -/
structure Decoded where
  text : List Char
  clean : Bool
deriving DecidableEq

namespace Decoded

def empty (clean : Bool) : Decoded := ⟨[], clean⟩

def cons (c : Char) (decoded : Decoded) : Decoded := { decoded with text := c :: decoded.text }

/-- The same text, with bytes left out. -/
def soiled (decoded : Decoded) : Decoded := { decoded with clean := false }

end Decoded

/-- Read on, in a character or between two. A byte that breaks a character off may
begin another. -/
def decodeFrom : Option Begun → Bytes → Decoded
  | pending, [] => .empty pending.isNone
  | none, byte :: rest =>
      match first byte.toNat with
      | .character c => (decodeFrom none rest).cons c
      | .more begun => decodeFrom (some begun) rest
      | .malformed => (decodeFrom none rest).soiled
  | some begun, byte :: rest =>
      match next begun byte.toNat with
      | .character c => (decodeFrom none rest).cons c
      | .more begun => decodeFrom (some begun) rest
      | .malformed =>
          match first byte.toNat with
          | .character c => ((decodeFrom none rest).cons c).soiled
          | .more begun => (decodeFrom (some begun) rest).soiled
          | .malformed => (decodeFrom none rest).soiled

def byteOrderMark : Bytes := [0xEF, 0xBB, 0xBF]

/-- Decode a byte string, without the byte order mark it may begin with. -/
def decode (bytes : Bytes) : Decoded :=
  decodeFrom none (if byteOrderMark <+: bytes then bytes.drop 3 else bytes)

/-- The text with whatever is malformed left out. -/
def decodeIgnore (bytes : Bytes) : List Char := (decode bytes).text

/-- The text, if nothing is malformed. -/
def decodeStrict (bytes : Bytes) : Option (List Char) :=
  if (decode bytes).clean then some (decodeIgnore bytes) else none

example : decodeIgnore [0x61, 0xE2, 0x82, 0x62, 0xC3, 0xA9, 0xFF] = ['a', 'b', 'é'] := by decide

/-- Where both readings succeed, they agree. -/
theorem decodeIgnore_of_strict {bytes : Bytes} {text : List Char}
    (h : decodeStrict bytes = some text) : decodeIgnore bytes = text := by
  unfold decodeStrict at h
  split at h
  next => exact Option.some.inj h
  next => cases h

/-- A byte below 128 is a character of its own. -/
theorem decodeIgnore_cons {byte : UInt8} (rest : Bytes) (h : byte.toNat < 0x80) :
    (decodeIgnore (byte :: rest)).head? = some (Char.ofNat byte.toNat) := by
  have hmark : ¬ byteOrderMark <+: byte :: rest := by
    rw [byteOrderMark, List.cons_prefix_cons]
    rintro ⟨rfl, _⟩
    exact absurd h (by decide)
  rw [decodeIgnore, decode, if_neg hmark, decodeFrom, first, if_pos h]
  rfl

/-! ## One character at a time

A loop over the characters of a text replaces a byte that begins no character, and goes
on with the byte behind it. -/

/-- The character that has begun and the bytes it takes, if it is not broken off. -/
def finish : Begun → Bytes → Option (Char × Nat)
  | _, [] => none
  | begun, byte :: rest =>
      match next begun byte.toNat with
      | .character c => some (c, 1)
      | .more begun => (finish begun rest).map fun found => (found.1, found.2 + 1)
      | .malformed => none

/-- U+FFFD. -/
def replacement : Char := Char.ofNat 0xFFFD

/-- The first character, and the further bytes it takes. -/
def decodeRune (byte : UInt8) (rest : Bytes) : Char × Nat :=
  match first byte.toNat with
  | .character c => (c, 0)
  | .more begun => (finish begun rest).getD (replacement, 0)
  | .malformed => (replacement, 0)

def runesFrom : Nat → Bytes → List Char
  | _, [] => []
  | skip + 1, _ :: rest => runesFrom skip rest
  | 0, byte :: rest => (decodeRune byte rest).1 :: runesFrom (decodeRune byte rest).2 rest

/-- The characters of a byte string. -/
def runes (bytes : Bytes) : List Char := runesFrom 0 bytes

example : runes [0x61, 0xFF, 0xC3, 0xA9, 0xE2, 0x82, 0x62] =
    ['a', replacement, 'é', replacement, replacement, 'b'] := by decide

theorem low_of_first {byte : Nat} {begun : Begun} (h : first byte = .more begun) :
    0x80 ≤ begun.low := by
  unfold first at h
  repeat' split at h
  all_goals cases h <;> simp

/-- Only bytes from 128 on continue a character. -/
theorem le_of_finish {begun : Begun} (hlow : 0x80 ≤ begun.low) {rest : Bytes} {c : Char}
    {width : Nat} (h : finish begun rest = some (c, width)) :
    ∀ byte ∈ rest.take width, 0x80 ≤ byte.toNat := by
  induction rest generalizing begun width with
  | nil => cases h
  | cons byte rest ih =>
      have hbyte : next begun byte.toNat ≠ .malformed → 0x80 ≤ byte.toNat := by
        intro hnext
        unfold next at hnext
        split at hnext
        next => exact absurd rfl hnext
        next hwithin => omega
      rw [finish] at h
      split at h
      next c hnext =>
        obtain ⟨rfl, rfl⟩ := Prod.mk.inj (Option.some.inj h)
        have hle := hbyte (by rw [hnext]; nofun)
        simpa using hle
      next begun' hnext =>
        obtain ⟨⟨c, width⟩, hfinish, hfound⟩ := Option.map_eq_some_iff.mp h
        obtain ⟨rfl, rfl⟩ := Prod.mk.inj hfound
        have hle := hbyte (by rw [hnext]; nofun)
        have hlow' : 0x80 ≤ begun'.low := by
          unfold next at hnext
          repeat' split at hnext
          all_goals cases hnext <;> simp
        rw [List.take_succ_cons]
        exact List.forall_mem_cons.mpr ⟨hle, ih hlow' hfinish⟩
      next => cases h

/-- A byte below 128 is always read as a character. -/
theorem mem_runesFrom {byte : UInt8} (hbyte : byte.toNat < 0x80) {bytes : Bytes} {skip : Nat}
    (h : byte ∈ bytes.drop skip) : Char.ofNat byte.toNat ∈ runesFrom skip bytes := by
  induction bytes generalizing skip with
  | nil => simp at h
  | cons head rest ih =>
      cases skip with
      | succ skip => exact ih h
      | zero =>
          rcases List.mem_cons.mp h with rfl | h
          · have hrune : decodeRune byte rest = (Char.ofNat byte.toNat, 0) := by
              rw [decodeRune, first, if_pos hbyte]
            rw [runesFrom, hrune]
            exact List.mem_cons_self
          · refine List.mem_cons_of_mem _ (ih ?_)
            have hskipped : ∀ byte ∈ rest.take (decodeRune head rest).2, 0x80 ≤ byte.toNat := by
              unfold decodeRune
              split
              next => simp
              next begun hfirst =>
                cases hfinish : finish begun rest with
                | none => simp
                | some found => exact le_of_finish (low_of_first hfirst) hfinish
              next => simp
            rw [← List.take_append_drop (decodeRune head rest).2 rest, List.mem_append] at h
            refine h.resolve_left fun htake => ?_
            have hle := hskipped byte htake
            omega

/-! ## What is written is read

A character is written as a byte that tells how many follow, each with six more bits. -/

theorem toNat_ofNat_of_lt {n : Nat} (h : n < 256) : (UInt8.ofNat n).toNat = n := by
  rw [UInt8.toNat_ofNat']
  exact Nat.mod_eq_of_lt h

theorem toNat_continuation (v : Nat) : (UInt8.ofNat (v % 0x40 + 0x80)).toNat = v % 64 + 128 :=
  toNat_ofNat_of_lt (by omega)

theorem decodeFrom_last (v : Nat) (rest : Bytes) :
    decodeFrom (some { needed := 1, value := v / 64 }) (UInt8.ofNat (v % 0x40 + 0x80) :: rest) =
      (decodeFrom none rest).cons (Char.ofNat v) := by
  have hvalue : v / 64 * 64 + (v % 64 + 128 - 128) = v := by omega
  rw [decodeFrom, toNat_continuation, next, if_neg (by dsimp only; omega), if_pos rfl, hvalue]

theorem decodeFrom_more {needed v low high : Nat} (hneeded : 1 < needed)
    (hlow : low ≤ v % 64 + 128) (hhigh : v % 64 + 128 ≤ high) (rest : Bytes) :
    decodeFrom (some { needed := needed, value := v / 64, low := low, high := high })
        (UInt8.ofNat (v % 0x40 + 0x80) :: rest) =
      decodeFrom (some { needed := needed - 1, value := v }) rest := by
  have hvalue : v / 64 * 64 + (v % 64 + 128 - 128) = v := by omega
  rw [decodeFrom, toNat_continuation, next, if_neg (by dsimp only; omega),
    if_neg (by dsimp only; omega), hvalue]

theorem first_two {v : Nat} (hlow : 0x7F < v) (hhigh : v ≤ 0x7FF) :
    first (v / 64 % 0x20 + 0xC0) = .more { needed := 1, value := v / 64 } := by
  have hvalue : v / 64 % 0x20 + 0xC0 - 0xC0 = v / 64 := by omega
  rw [first, if_neg (by omega), if_neg (by omega), if_pos (by omega), hvalue]

/-- The first byte of three bounds the next one, so that the value is neither too small
nor a surrogate. -/
theorem first_three {v : Nat} (hlow : 0x7FF < v) (hhigh : v ≤ 0xFFFF)
    (hvalid : v < 0xD800 ∨ 0xDFFF < v) :
    ∃ low high, first (v / 4096 % 0x10 + 0xE0) =
        .more { needed := 2, value := v / 4096, low := low, high := high } ∧
      low ≤ v / 64 % 64 + 128 ∧ v / 64 % 64 + 128 ≤ high := by
  have hvalue : v / 4096 % 0x10 + 0xE0 - 0xE0 = v / 4096 := by omega
  rw [first, if_neg (by omega), if_neg (by omega), if_neg (by omega)]
  by_cases hzero : v / 4096 = 0
  · rw [hzero]
    exact ⟨_, _, rfl, by omega, by omega⟩
  · rw [if_neg (by omega)]
    by_cases hsurrogate : v / 4096 = 0xD
    · rw [hsurrogate]
      exact ⟨_, _, rfl, by omega, by omega⟩
    · rw [if_neg (by omega), if_pos (by omega), hvalue]
      exact ⟨_, _, rfl, by omega, by omega⟩

theorem first_four {v : Nat} (hlow : 0xFFFF < v) (hhigh : v < 0x110000) :
    ∃ low high, first (v / 262144 % 0x08 + 0xF0) =
        .more { needed := 3, value := v / 262144, low := low, high := high } ∧
      low ≤ v / 4096 % 64 + 128 ∧ v / 4096 % 64 + 128 ≤ high := by
  have hvalue : v / 262144 % 0x08 + 0xF0 - 0xF0 = v / 262144 := by omega
  rw [first, if_neg (by omega), if_neg (by omega), if_neg (by omega), if_neg (by omega),
    if_neg (by omega), if_neg (by omega)]
  by_cases hzero : v / 262144 = 0
  · rw [hzero]
    exact ⟨_, _, rfl, by omega, by omega⟩
  · rw [if_neg (by omega)]
    by_cases hlast : v / 262144 = 4
    · rw [hlast]
      exact ⟨_, _, rfl, by omega, by omega⟩
    · rw [if_pos (by omega), hvalue]
      exact ⟨_, _, rfl, by omega, by omega⟩

theorem decodeFrom_utf8EncodeChar (c : Char) (rest : Bytes) :
    decodeFrom none (String.utf8EncodeChar c ++ rest) = (decodeFrom none rest).cons c := by
  have hchar : Char.ofNat c.val.toNat = c := Char.ofNat_toNat c
  have hvalid : c.val.toNat < 0xD800 ∨ 0xDFFF < c.val.toNat ∧ c.val.toNat < 0x110000 := c.valid
  unfold String.utf8EncodeChar
  dsimp only
  generalize c.val.toNat = v at hchar hvalid ⊢
  rw [← hchar]
  have hsixty : v / 64 / 64 = v / 4096 := Nat.div_div_eq_div_mul v 64 64
  have hthird : v / 4096 / 64 = v / 262144 := Nat.div_div_eq_div_mul v 4096 64
  split
  next hone =>
    rw [List.singleton_append, decodeFrom, toNat_ofNat_of_lt (by omega), first, if_pos (by omega)]
  next hone =>
    split
    next htwo =>
      rw [List.cons_append, List.singleton_append, decodeFrom, toNat_ofNat_of_lt (by omega),
        first_two (by omega) htwo]
      exact decodeFrom_last v rest
    next htwo =>
      split
      next hthree =>
        obtain ⟨low, high, hfirst, hlow, hhigh⟩ := first_three (by omega) hthree (by omega)
        rw [List.cons_append, List.cons_append, List.singleton_append, decodeFrom,
          toNat_ofNat_of_lt (by omega), hfirst]
        dsimp only
        rw [← hsixty, decodeFrom_more (by decide) hlow hhigh]
        exact decodeFrom_last v rest
      next hthree =>
        obtain ⟨low, high, hfirst, hlow, hhigh⟩ := @first_four v (by omega) (by omega)
        rw [List.cons_append, List.cons_append, List.cons_append, List.singleton_append, decodeFrom,
          toNat_ofNat_of_lt (by omega), hfirst]
        dsimp only
        have hsecond := @decodeFrom_more 2 (v / 64) 0x80 0xBF (by decide) (by omega) (by omega)
        rw [hsixty] at hsecond
        rw [← hthird, decodeFrom_more (by decide) hlow hhigh, hsecond]
        exact decodeFrom_last v rest

theorem decodeFrom_flatMap (text : List Char) :
    decodeFrom none (text.flatMap String.utf8EncodeChar) = ⟨text, true⟩ := by
  induction text with
  | nil => rfl
  | cons c rest ih =>
      rw [List.flatMap_cons, decodeFrom_utf8EncodeChar, ih]
      rfl

/-- Only a text that begins with the character of the mark is written with its bytes. -/
theorem not_isPrefix_byteOrderMark {text : List Char} (h : text.head? ≠ some '\uFEFF') :
    ¬ byteOrderMark <+: text.flatMap String.utf8EncodeChar := by
  rintro ⟨rest, hrest⟩
  have hmark := decodeFrom_utf8EncodeChar '\uFEFF' rest
  rw [show String.utf8EncodeChar '\uFEFF' = byteOrderMark by decide, hrest,
    decodeFrom_flatMap] at hmark
  exact h (congrArg (fun decoded => decoded.text.head?) hmark)

/-- A text is read back, with a byte order mark before it or without one. -/
theorem decodeStrict_flatMap {text : List Char} (marked : Bool)
    (h : marked = true ∨ text.head? ≠ some '\uFEFF') :
    decodeStrict ((if marked then byteOrderMark else []) ++ text.flatMap String.utf8EncodeChar) =
      some text := by
  have hdecode : decode ((if marked then byteOrderMark else []) ++
      text.flatMap String.utf8EncodeChar) = ⟨text, true⟩ := by
    unfold decode
    cases marked with
    | true =>
        rw [if_pos rfl, if_pos (List.prefix_append _ _)]
        exact decodeFrom_flatMap text
    | false =>
        rw [if_neg Bool.false_ne_true, List.nil_append,
          if_neg (not_isPrefix_byteOrderMark (h.resolve_left Bool.false_ne_true)),
            decodeFrom_flatMap]
  unfold decodeStrict decodeIgnore
  rw [hdecode]
  rfl

end Utf8
