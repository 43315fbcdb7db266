import Harbormaster.Slot.Lifecycle

/-! # Partition keys

A client id may hold any character, but the domain of a routed slot is an
enumeration name and its value date is a date. The partition key of such a slot
therefore determines it.
-/

namespace Harbormaster

/-- The domain is an enumeration name and the value date has a date's length. -/
structure Key.Addressed (key : Key) : Prop where
  domain : ':' ∉ key.domain.toList
  valueDate : key.valueDate.toList.length = 10

theorem colon_not_mem_domainName (domain : ProductDomain) :
    ':' ∉ (domainName domain).toList := by
  cases domain with
  | unrecognized number => exact not_mem_toString (by decide) (by decide) number
  | _ => decide

theorem length_of_parseIso {text : String} {date : Civil.Date}
    (h : Civil.parseIso text = some date) : text.toList.length = 10 := by
  rw [← Civil.isoformat_of_parseIso h, Civil.Date.isoformat, String.toList_ofList]
  exact Civil.isoChars_length date

/-- What follows the last separator is determined. -/
theorem append_cons_inj {α : Type} {separator : α} {head head' tail tail' : List α}
    (htail : separator ∉ tail) (htail' : separator ∉ tail')
    (h : head ++ separator :: tail = head' ++ separator :: tail') :
    head = head' ∧ tail = tail' := by
  rcases List.append_eq_append_iff.mp h with ⟨middle, hhead, hrest⟩ | ⟨middle, hhead, hrest⟩
  · cases middle with
    | nil =>
        rw [List.append_nil] at hhead
        exact ⟨hhead.symm, (List.cons.inj hrest).2⟩
    | cons first middle =>
        refine absurd ?_ htail
        rw [(List.cons.inj hrest).2]
        exact List.mem_append_right _ List.mem_cons_self
  · cases middle with
    | nil =>
        rw [List.append_nil] at hhead
        exact ⟨hhead, (List.cons.inj hrest).2.symm⟩
    | cons first middle =>
        refine absurd ?_ htail'
        rw [(List.cons.inj hrest).2]
        exact List.mem_append_right _ List.mem_cons_self

/-- Addressed slots with one partition key are one slot. -/
theorem Key.Addressed.text_injective {key key' : Key} (h : key.Addressed) (h' : key'.Addressed)
    (htext : key.text = key'.text) : key = key' := by
  have hchars := congrArg String.toList htext
  simp only [Key.text, busSlotKey, String.toList_append] at hchars
  obtain ⟨hfront, hdate⟩ := List.append_inj' hchars (h.valueDate.trans h'.valueDate.symm)
  obtain ⟨hfront, _⟩ := List.append_inj' hfront rfl
  have hcolon : ":".toList = [':'] := rfl
  rw [hcolon, List.append_assoc, List.append_assoc] at hfront
  obtain ⟨hclient, hdomain⟩ := append_cons_inj h.domain h'.domain hfront
  obtain ⟨clientId, domain, valueDate⟩ := key
  obtain ⟨clientId', domain', valueDate'⟩ := key'
  rw [String.toList_inj] at hclient hdomain hdate
  subst hclient hdomain hdate
  rfl

end Harbormaster
