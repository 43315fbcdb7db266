import Harbormaster.Inspector.FlatTable
import Harbormaster.Inspector.XmlFlatten
import Mathlib.Data.List.Dedup
import Mathlib.Data.List.Sort

/-! # FIXML reports

`FIXMLParser` flattens a report by the standard names of FIX. Every party with one of
three roles writes the account, so it is the one of the customer exactly when the last
of these parties has the same ID.
-/

namespace Harbormaster.Inspector.FIXMLParser

open Ordered Xml

/-! ## The code -/

/-- Standard FIX attribute names, mapped to headers the alias dictionary already
understands. -/
def fixFields : List (String × String) :=
  [("ExecID", "ExecID"), ("OrderID", "OrderID"), ("TradeID", "TradeID"), ("ClOrdID", "ClOrdID"),
    ("LastQty", "LastQty"), ("CumQty", "CumQty"), ("LastPx", "LastPx"), ("AvgPx", "AvgPx"),
    ("SettlPx", "Settlement Price"), ("SettlCurrAmt", "Settlement Amount"),
    ("NetMoney", "NetMoney"), ("GrossTradeAmt", "Gross Amount"), ("TrdDt", "Trade Date"),
    ("TradeDate", "Trade Date"), ("SettlDt", "Settlement Date"),
    ("TransactTime", "Transaction Time"), ("Ccy", "Currency"), ("Curr", "Currency"),
    ("SettlCurrency", "Settlement Currency"), ("Sym", "Symbol"), ("Issr", "Issuer"),
    ("Desc", "Security Description"), ("SecTyp", "Security Type"), ("MatDt", "Maturity Date")]

def sideCodes : List (String × String) :=
  [("1", "BUY"), ("2", "SELL"), ("3", "BUY"), ("4", "SELL"), ("5", "SELL"), ("6", "SELL")]

/-- Security ID source (tag 22). -/
def idSources : List (String × String) :=
  [("1", "CUSIP"), ("2", "SEDOL"), ("4", "ISIN"), ("8", "Ticker"), ("5", "RIC")]

/-- Party role (tag 452). 24 is customer account, which is what we want. -/
def accountRoles : List String := ["24", "3", "1"]

/-- `_RECORD_TAGS`. -/
def reportTags : List String := ["ExecRpt", "TrdCaptRpt", "Position", "PosRpt", "Alloc"]

def accountId : String := "Account ID"

/-- `_localname(element.tag)`. -/
def localTag (element : Element) : String := localname element.tag

/-- The header of a FIX name. -/
def mapped (name : String) : String := (fixFields.lookup name).getD name

/-- `{_localname(k): str(v) for k, v in element.attrib.items()}`. -/
def localAttributes (element : Element) : Dict String String :=
  .ofPairs (element.attributes.map fun (name, value) => (localname name, value))

/-- `_attributes`. -/
def attributes (element : Element) (out : Dict String String) (path : String) :
    Dict String String :=
  element.attributes.foldl (fun out (rawName, value) =>
    let name := localname rawName
    if name = "Side" then out.set "Side" ((sideCodes.lookup value).getD value)
    else out.set (path ++ mapped name) (strip value)) out

/-- `_instrument`: the identifier is named by its source. -/
def instrument (element : Element) (out : Dict String String) : Dict String String :=
  let attrs := localAttributes element
  let out := match attrs.get? "Sym" with
    | some symbol => out.set "Symbol" symbol
    | none => out
  let identifier := (attrs.get? "ID").getD ""
  let out := if identifier ≠ "" then
      out.set ((idSources.lookup ((attrs.get? "IDSrc").getD "")).getD "Security ID") identifier
    else out
  attrs.entries.foldl (fun out (name, value) =>
    if ["Sym", "ID", "IDSrc"].contains name then out
    else out.set ("Instrmt." ++ mapped name) value) out

/-- The role of a party. -/
def role (party : Element) : String := ((localAttributes party).get? "R").getD ""

/-- The ID of a party. -/
def identifier (party : Element) : String := ((localAttributes party).get? "ID").getD ""

/-- `_party`. -/
def party (element : Element) (out : Dict String String) : Dict String String :=
  if identifier element = "" then out
  else if accountRoles.contains (role element) then out.set accountId (identifier element)
  else out.set ("Party." ++ if role element ≠ "" then role element else "unknown")
    (identifier element)

/-- One child of a report. -/
def flattenChild (out : Dict String String) (child : Element) : Dict String String :=
  let tag := localTag child
  if tag = "Instrmt" then instrument child out
  else if tag = "Pty" then party child out
  else
    let out := attributes child out (tag ++ ".")
    let text := strip (child.text.getD "")
    if text ≠ "" then out.set (mapped tag) text else out

/-- `_flatten_report`. -/
def flattenReport (element : Element) : Dict String String :=
  element.children.foldl flattenChild (attributes element .empty "")

/-- `root.get("v", "")`. -/
def fixVersion (root : Element) : String :=
  ((root.attributes.find? fun entry => entry.1 = "v").map Prod.snd).getD ""

/-- `parse`, of the root that `etree.parse` returns or the error it raises. -/
def parse (document : Except String Element) : Except String ParsedTable :=
  match document with
  | .error exc => .error ("malformed FIXML: " ++ exc)
  | .ok root =>
      let records := root.iter.filter fun element => reportTags.contains (localTag element)
      if records = [] then .error "no FIXML report elements found"
      else
        .ok (flatTable (records.map flattenReport)
          (.ofPairs [("record_elements",
              join "," ((records.map localTag).dedup.insertionSort (· ≤ ·))),
            ("record_count", toString records.length), ("fix_version", fixVersion root)]))

/-- Every report of a document has one row, which holds all its cells. -/
theorem rows_of_parse {root : Element} {table : ParsedTable} (h : parse (.ok root) = .ok table) :
    List.Forall₂ (fun (report : Element) (row : Row) =>
        ∀ key cell, (flattenReport report).get? key = some cell → row.get? key = some cell)
      (root.iter.filter fun element => reportTags.contains (localTag element)) table.rows := by
  rw [parse] at h
  split at h
  next => cases h
  next =>
    obtain rfl := Except.ok.inj h
    have hrows := rows_flatTable ((root.iter.filter fun element =>
      reportTags.contains (localTag element)).map flattenReport) .empty
    rw [List.forall₂_map_left_iff] at hrows
    exact hrows

/-! ## The account -/

/-- A party with an account role and an ID. -/
def isAccount (child : Element) : Bool :=
  localTag child = "Pty" && identifier child ≠ "" && accountRoles.contains (role child)

/-- The account that a child writes. -/
def account (child : Element) : Option String :=
  if isAccount child then some (identifier child) else none

/-- A table without the account does not give it, nor does its default. -/
theorem lookup_ne {codes : List (String × String)} (h : ∀ entry ∈ codes, entry.2 ≠ accountId)
    (code : String) {default : String} (hdefault : default ≠ accountId) :
    (codes.lookup code).getD default ≠ accountId := by
  cases hlookup : codes.lookup code with
  | none => exact hdefault
  | some header =>
      obtain ⟨front, back, rfl, -⟩ := List.lookup_eq_some_iff.mp hlookup
      exact h (code, header) (by simp)

theorem mapped_ne {name : String} (h : name ≠ accountId) : mapped name ≠ accountId :=
  lookup_ne (by decide) name h

/-- Names of XML have no blanks. -/
theorem localname_ne (name : QName) : localname name.text ≠ accountId := by
  rw [localname_text]
  intro heq
  apply name.name.not_mem (c := ' ') (by decide)
  rw [heq]
  decide

theorem attribute_ne {element : Element} : ∀ entry ∈ element.attributes,
    localname entry.1 ≠ accountId := by
  intro entry hentry
  cases element with
  | tagged name attributes text children tail =>
      obtain ⟨⟨key, value⟩, -, rfl⟩ := List.mem_map.mp hentry
      exact localname_ne key
  | special kind attributes text tail =>
      obtain ⟨⟨word, value⟩, -, rfl⟩ := List.mem_map.mp hentry
      dsimp only
      rw [localname_of_not_mem fun hbrace => (word.plain _ hbrace).1 rfl]
      intro heq
      have hblank : ' ' ∈ word.text.toList := by
        rw [heq]
        decide
      exact (word.plain _ hblank).2.2 rfl

theorem localTag_ne (element : Element) : localTag element ≠ accountId := by
  cases element with
  | tagged name _ _ _ _ => exact localname_ne name
  | special kind attributes text tail =>
      intro heq
      have htag : localTag (.special kind attributes text tail) = "<" ++ kind.label ++ ">" :=
        XMLParser.localTag_special kind attributes text tail
      have hhead := congrArg (fun text => text.toList.head?) (htag.symm.trans heq)
      simp [accountId] at hhead

/-- What has a dot in it is not the account. -/
theorem dotted_ne (front back : String) : front ++ "." ++ back ≠ accountId := by
  intro heq
  have hdot : '.' ∈ accountId.toList := by
    rw [← heq]
    simp
  exact absurd hdot (by decide)

theorem get?_attributes (element : Element) (out : Dict String String) {path : String}
    (h : ∀ name, name ≠ accountId → path ++ name ≠ accountId) :
    (attributes element out path).get? accountId = out.get? accountId := by
  refine Dict.get?_foldl_of_ne (fun dict entry hentry => ?_) out
  dsimp only
  split
  next => rw [Dict.get?_set, if_neg (by decide)]
  next =>
    rw [Dict.get?_set, if_neg]
    exact (h _ (mapped_ne (attribute_ne entry hentry))).symm

theorem get?_set_ne {out : Dict String String} {key value : String} (h : key ≠ accountId) :
    (out.set key value).get? accountId = out.get? accountId := by
  rw [Dict.get?_set, if_neg h.symm]

theorem get?_instrument (element : Element) (out : Dict String String) :
    (instrument element out).get? accountId = out.get? accountId := by
  rw [instrument]
  rw [Dict.get?_foldl_of_ne]
  · have hsymbol : ∀ symbol : Option String, (match symbol with
        | some symbol => out.set "Symbol" symbol
        | none => out).get? accountId = out.get? accountId := by
      intro symbol
      cases symbol with
      | none => rfl
      | some symbol => exact get?_set_ne (by decide)
    split
    next => rw [get?_set_ne (lookup_ne (by decide) _ (by decide)), hsymbol]
    next => exact hsymbol _
  · intro dict entry _
    dsimp only
    split
    next => rfl
    next => exact get?_set_ne (dotted_ne "Instrmt" (mapped entry.1))

theorem get?_party {element : Element} (hparty : localTag element = "Pty")
    (out : Dict String String) :
    (party element out).get? accountId = (account element).or (out.get? accountId) := by
  unfold party
  by_cases hempty : identifier element = ""
  · rw [if_pos hempty, account, if_neg (by simp [isAccount, hempty]), Option.none_or]
  · rw [if_neg hempty]
    by_cases hrole : accountRoles.contains (role element) = true
    · rw [if_pos hrole, account, if_pos (by simpa [isAccount, hparty, hempty] using hrole),
        Dict.get?_set, if_pos rfl, Option.some_or]
    · have haccount : account element = none :=
        if_neg (by simpa [isAccount, hparty, hempty] using hrole)
      rw [if_neg hrole, haccount, Option.none_or]
      refine get?_set_ne fun heq => ?_
      have hdot : '.' ∈ accountId.toList := by
        rw [← heq]
        simp
      exact absurd hdot (by decide)

theorem get?_flattenChild (out : Dict String String) (child : Element) :
    (flattenChild out child).get? accountId = (account child).or (out.get? accountId) := by
  unfold flattenChild
  dsimp only
  by_cases hparty : localTag child = "Pty"
  · rw [if_neg (by rw [hparty]; decide), if_pos hparty, get?_party hparty]
  · have haccount : account child = none := by simp [account, isAccount, hparty]
    rw [haccount, Option.none_or]
    by_cases hinstrument : localTag child = "Instrmt"
    · rw [if_pos hinstrument]
      exact get?_instrument child out
    · have hattributes : (attributes child out (localTag child ++ ".")).get? accountId =
          out.get? accountId :=
        get?_attributes child out fun name _ => dotted_ne (localTag child) name
      rw [if_neg hinstrument, if_neg hparty]
      split
      next => rw [get?_set_ne (mapped_ne (localTag_ne child)), hattributes]
      next => exact hattributes

/-- The account of a report is the one that its last party with an account role writes. -/
theorem get?_flattenReport (report : Element) :
    (flattenReport report).get? accountId = (report.children.filterMap account).getLast? := by
  rw [flattenReport, Dict.get?_foldl get?_flattenChild, get?_attributes, Dict.get?_empty,
    Option.or_none]
  intro name hname
  rw [String.empty_append]
  exact hname

theorem filterMap_account (children : List Element) :
    children.filterMap account = (children.filter isAccount).map identifier := by
  induction children with
  | nil => rfl
  | cons child rest ih =>
      rw [List.filterMap_cons, List.filter_cons, account, ih]
      cases isAccount child <;> rfl

/-- The account of a report is that of a customer in it exactly when the last party
behind the customer that has an account role, if there is one, has the same ID. -/
theorem account_eq_iff {report customer : Element} {before after : List Element}
    (hchildren : report.children = before ++ customer :: after)
    (hparty : localTag customer = "Pty") (hrole : role customer = "24")
    (hidentifier : identifier customer ≠ "") :
    (flattenReport report).get? accountId = some (identifier customer) ↔
      ∀ last ∈ (after.filter isAccount).getLast?, identifier last = identifier customer := by
  have hcustomer : isAccount customer = true := by
    rw [isAccount, hparty, hrole]
    simp [hidentifier, accountRoles]
  rw [get?_flattenReport, hchildren, filterMap_account, List.filter_append,
    List.filter_cons_of_pos hcustomer, List.getLast?_map, List.getLast?_append,
    List.getLast?_cons]
  cases (after.filter isAccount).getLast? with
  | none => simp
  | some last => simp

section Samples

/-- A party with a role and an ID. -/
def samplePty (role identifier : String) : Element :=
  .tagged (.unqualified "Pty" (by decide) (by decide))
    (.ofPairs [(.unqualified "R" (by decide) (by decide), role),
      (.unqualified "ID" (by decide) (by decide), identifier)]) none [] none

def sampleReport (children : List Element) : Element :=
  .tagged (.unqualified "ExecRpt" (by decide) (by decide)) .empty none children none

/-- A customer behind a broker. -/
theorem account_of_customer :
    (flattenReport (sampleReport [samplePty "1" "FIRM", samplePty "24" "ACC"])).get? accountId =
      some (identifier (samplePty "24" "ACC")) :=
  (@account_eq_iff (sampleReport [samplePty "1" "FIRM", samplePty "24" "ACC"])
    (samplePty "24" "ACC") [samplePty "1" "FIRM"] [] (by rfl) (by decide) (by decide)
    (by decide)).mpr (by decide)

/-- A party behind the customer that also has an account role overwrites the account. -/
theorem account_overwritten :
    identifier (samplePty "24" "ACC") = "ACC" ∧ role (samplePty "24" "ACC") = "24" ∧
      role (samplePty "1" "FIRM") = "1" ∧
      (flattenReport (sampleReport [samplePty "24" "ACC", samplePty "1" "FIRM"])).get? accountId =
        some "FIRM" := by
  decide

end Samples

end Harbormaster.Inspector.FIXMLParser
