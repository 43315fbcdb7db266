import Mathlib.Algebra.GroupWithZero.Nat
import Mathlib.Data.List.Basic
import Mathlib.Data.List.Count

/-! # Byte strings

Texts as the bytes of their UTF-8 encoding, hexadecimal, and lists of texts that
are each ended by a separator. The texts can be read back from such a list if the
separator occurs in none of them.
-/

/-- A byte string. -/
abbrev Bytes := List UInt8

namespace Bytes

/-- The UTF-8 encoding of a text. -/
def utf8 (text : String) : Bytes := text.toList.flatMap String.utf8EncodeChar

/-- The lower-case hexadecimal digits of a byte string. -/
def hex (bytes : Bytes) : Bytes :=
  bytes.flatMap fun byte =>
    [UInt8.ofNat (byte.toNat / 16).digitChar.toNat, UInt8.ofNat (byte.toNat % 16).digitChar.toNat]

theorem hex_length (bytes : Bytes) : (hex bytes).length = 2 * bytes.length := by
  induction bytes with
  | nil => rfl
  | cons byte rest ih =>
      rw [hex, List.flatMap_cons, List.length_append, ← hex, ih]
      simp only [List.length_cons, List.length_nil]
      omega

theorem hexDigit_injective : ∀ n < 16, ∀ m < 16,
    UInt8.ofNat n.digitChar.toNat = UInt8.ofNat m.digitChar.toNat → n = m := by
  decide

theorem hexDigit_bounds : ∀ n < 16, 48 ≤ UInt8.ofNat n.digitChar.toNat := by decide

theorem hex_injective {bytes other : Bytes} (h : hex bytes = hex other) : bytes = other := by
  induction bytes generalizing other with
  | nil =>
      cases other with
      | nil => rfl
      | cons => cases h
  | cons byte rest ih =>
      cases other with
      | nil => cases h
      | cons byte' rest' =>
          obtain ⟨hhigh, hrest⟩ := List.cons.inj h
          obtain ⟨hlow, hrest⟩ := List.cons.inj hrest
          have hlt := byte.toNat_lt
          have hlt' := byte'.toNat_lt
          have hquot := hexDigit_injective _ (by omega) _ (by omega) hhigh
          have hrem := hexDigit_injective _ (by omega) _ (by omega) hlow
          rw [ih hrest, UInt8.toNat_inj.mp (by omega : byte.toNat = byte'.toNat)]

/-- Hexadecimal digits are printable. -/
theorem le_of_mem_hex {bytes : Bytes} {byte : UInt8} (h : byte ∈ hex bytes) : 48 ≤ byte := by
  obtain ⟨source, _, hdigit⟩ := List.mem_flatMap.mp h
  have hlt := source.toNat_lt
  rcases List.mem_pair.mp hdigit with rfl | rfl
  · exact hexDigit_bounds _ (by omega)
  · exact hexDigit_bounds _ (by omega)

/-! ## Plain texts -/

/-- Characters of the plain range between the blank and the tilde. -/
def Plain (c : Char) : Prop := 32 ≤ c.toNat ∧ c.toNat < 127

theorem Plain.toNat_byte {c : Char} (h : Plain c) : (UInt8.ofNat c.toNat).toNat = c.toNat := by
  obtain ⟨_, hlt⟩ := h
  rw [UInt8.toNat_ofNat']
  exact Nat.mod_eq_of_lt (by omega)

theorem utf8EncodeChar_plain {c : Char} (h : Plain c) :
    String.utf8EncodeChar c = [UInt8.ofNat c.toNat] := by
  unfold String.utf8EncodeChar
  exact if_pos (Nat.le_of_lt h.2)

/-- A plain text has one byte for each character. -/
theorem utf8_plain {chars : List Char} (h : ∀ c ∈ chars, Plain c) :
    utf8 (String.ofList chars) = chars.map fun c => UInt8.ofNat c.toNat := by
  rw [utf8, String.toList_ofList]
  induction chars with
  | nil => rfl
  | cons c rest ih =>
      obtain ⟨hc, hrest⟩ := List.forall_mem_cons.mp h
      rw [List.flatMap_cons, utf8EncodeChar_plain hc, ih hrest]
      rfl

theorem utf8_plain_injective {chars other : List Char} (h : ∀ c ∈ chars, Plain c)
    (h' : ∀ c ∈ other, Plain c) (heq : utf8 (String.ofList chars) = utf8 (String.ofList other)) :
    chars = other := by
  rw [utf8_plain h, utf8_plain h'] at heq
  induction chars generalizing other with
  | nil =>
      cases other with
      | nil => rfl
      | cons => cases heq
  | cons c rest ih =>
      cases other with
      | nil => cases heq
      | cons c' rest' =>
          obtain ⟨hc, hrest⟩ := List.forall_mem_cons.mp h
          obtain ⟨hc', hrest'⟩ := List.forall_mem_cons.mp h'
          obtain ⟨hhead, htail⟩ := List.cons.inj heq
          have hnat := congrArg UInt8.toNat hhead
          dsimp only at hnat
          rw [hc.toNat_byte, hc'.toNat_byte] at hnat
          rw [Char.toNat_inj.mp hnat, ih hrest hrest' htail]

theorem le_of_mem_plain {chars : List Char} (h : ∀ c ∈ chars, Plain c) {byte : UInt8}
    (hmem : byte ∈ utf8 (String.ofList chars)) : 32 ≤ byte := by
  rw [utf8_plain h] at hmem
  obtain ⟨c, hc, rfl⟩ := List.mem_map.mp hmem
  rw [UInt8.le_iff_toNat_le, (h c hc).toNat_byte]
  exact (h c hc).1

/-! ## Terminated lists -/

/-- The parts one after the other, each ended by the separator. -/
def terminated {α : Type} (separator : α) (parts : List (List α)) : List α :=
  parts.flatMap fun part => part ++ [separator]

section Terminated

variable {α : Type} {separator : α}

/-- The first separator ends the first part. -/
theorem append_cons_injective {part part' rest rest' : List α} (hpart : separator ∉ part)
    (hpart' : separator ∉ part') (h : part ++ separator :: rest = part' ++ separator :: rest') :
    part = part' ∧ rest = rest' := by
  induction part generalizing part' with
  | nil =>
      cases part' with
      | nil => exact ⟨rfl, (List.cons.inj h).2⟩
      | cons first part' => exact absurd ((List.cons.inj h).1 ▸ List.mem_cons_self) hpart'
  | cons first part ih =>
      cases part' with
      | nil => exact absurd ((List.cons.inj h).1 ▸ List.mem_cons_self) hpart
      | cons first' part' =>
          obtain ⟨rfl, htail⟩ := List.cons.inj h
          obtain ⟨rfl, hrest⟩ := ih (List.not_mem_of_not_mem_cons hpart)
            (List.not_mem_of_not_mem_cons hpart') htail
          exact ⟨rfl, hrest⟩

variable [DecidableEq α]

/-- The separators of a terminated list: one for each part, and those inside. -/
theorem count_terminated (parts : List (List α)) :
    (terminated separator parts).count separator =
      parts.length + (parts.map (List.count separator)).sum := by
  induction parts with
  | nil => rfl
  | cons part rest ih =>
      rw [terminated, List.flatMap_cons, ← terminated, List.count_append, List.count_append, ih,
        List.count_singleton_self, List.length_cons, List.map_cons, List.sum_cons]
      omega

omit [DecidableEq α] in
theorem eq_of_terminated {parts other : List (List α)}
    (hparts : ∀ part ∈ parts, separator ∉ part) (hother : ∀ part ∈ other, separator ∉ part)
    (h : terminated separator parts = terminated separator other) : parts = other := by
  induction parts generalizing other with
  | nil =>
      cases other with
      | nil => rfl
      | cons part rest => simp [terminated] at h
  | cons part rest ih =>
      cases other with
      | nil => simp [terminated] at h
      | cons part' rest' =>
          obtain ⟨hpart, hrest⟩ := List.forall_mem_cons.mp hparts
          obtain ⟨hpart', hrest'⟩ := List.forall_mem_cons.mp hother
          simp only [terminated, List.flatMap_cons, List.append_assoc, List.singleton_append] at h
          obtain ⟨rfl, htail⟩ := append_cons_injective hpart hpart' h
          rw [ih hrest hrest' htail]

/-- As many parts are the same parts, when one side has no separator inside. -/
theorem eq_of_terminated_of_length {parts other : List (List α)}
    (hparts : ∀ part ∈ parts, separator ∉ part) (hlength : parts.length = other.length)
    (h : terminated separator parts = terminated separator other) : parts = other := by
  apply eq_of_terminated hparts _ h
  have hcount := congrArg (List.count separator) h
  have hnone : (parts.map (List.count separator)).sum = 0 := by
    apply List.sum_eq_zero_iff_forall_eq_nat.mpr
    intro count hcount
    obtain ⟨part, hpart, rfl⟩ := List.mem_map.mp hcount
    exact List.count_eq_zero.mpr (hparts part hpart)
  rw [count_terminated, count_terminated, hnone, hlength] at hcount
  have hsum : (other.map (List.count separator)).sum = 0 := by omega
  intro part hpart
  exact List.count_eq_zero.mp (List.sum_eq_zero_iff_forall_eq_nat.mp hsum _ (List.mem_map_of_mem hpart))

end Terminated

end Bytes
