import Harbormaster.Foundation.DottedPath
import Harbormaster.Inspector.SurplusPrices

/-! # Names of nested leaves

A flattened key has the keys of the objects around a leaf in front of the leaf's own. In
comparable form they run together into one word, so that a leaf key keeps its field
under a path exactly when the path adds no letter or digit.
-/

namespace Harbormaster.Inspector

open Dotted

/-! ## Lower case -/

/-- `str.lower` of a text: every character has its own lower case, only that of a capital
sigma depends on what stands around it. -/
inductive Lowered (lowerChar : Char → List Char) : List Char → List Char → Prop where
  | nil : Lowered lowerChar [] []
  | char {c : Char} {rest out : List Char} (hc : c ≠ 'Σ') (h : Lowered lowerChar rest out) :
      Lowered lowerChar (c :: rest) (lowerChar c ++ out)
  | sigma {low : Char} {rest out : List Char} (hlow : low = 'σ' ∨ low = 'ς')
      (h : Lowered lowerChar rest out) : Lowered lowerChar ('Σ' :: rest) (low :: out)

structure LowersEach (runtime : Runtime) (lowerChar : Char → List Char) : Prop where
  lowered : ∀ text : List Char, Lowered lowerChar text (runtime.lower text)
  sigma : runtime.isalnum 'σ' = true
  finalSigma : runtime.isalnum 'ς' = true

namespace Lowered

variable {lowerChar : Char → List Char}

theorem of_append {first second out : List Char} (h : Lowered lowerChar (first ++ second) out) :
    ∃ left right, out = left ++ right ∧ Lowered lowerChar first left ∧
      Lowered lowerChar second right := by
  induction first generalizing out with
  | nil => exact ⟨[], out, rfl, nil, h⟩
  | cons c rest ih =>
      cases h with
      | char hc h =>
          obtain ⟨left, right, rfl, hleft, hright⟩ := ih h
          exact ⟨lowerChar c ++ left, right, (List.append_assoc _ _ _).symm, char hc hleft, hright⟩
      | sigma hlow h =>
          obtain ⟨left, right, rfl, hleft, hright⟩ := ih h
          exact ⟨_ :: left, right, rfl, sigma hlow hleft, hright⟩

/-- Without a capital sigma a text has one lower case. -/
theorem unique {text out other : List Char} (h : Lowered lowerChar text out)
    (hother : Lowered lowerChar text other) (hsigma : 'Σ' ∉ text) : out = other := by
  induction h generalizing other with
  | nil =>
      cases hother
      rfl
  | char hc _ ih =>
      cases hother with
      | char _ hrest => rw [ih hrest fun hmem => hsigma (List.mem_cons_of_mem _ hmem)]
      | sigma => exact absurd rfl hc
  | sigma => exact absurd List.mem_cons_self hsigma

end Lowered

variable {runtime : Runtime} {lowerChar : Char → List Char}

/-- Whether a text has a letter or a digit does not depend on what stands around it. -/
theorem LowersEach.filter_eq_nil (hlower : LowersEach runtime lowerChar)
    {text out other : List Char} (h : Lowered lowerChar text out)
    (hother : Lowered lowerChar text other) (hnone : out.filter runtime.isalnum = []) :
    other.filter runtime.isalnum = [] := by
  induction h generalizing other with
  | nil =>
      cases hother
      rfl
  | char hc _ ih =>
      rw [List.filter_append, List.append_eq_nil_iff] at hnone
      cases hother with
      | char _ hrest => rw [List.filter_append, hnone.1, List.nil_append, ih hrest hnone.2]
      | sigma => exact absurd rfl hc
  | sigma hlow =>
      rcases hlow with rfl | rfl
      · rw [List.filter_cons_of_pos hlower.sigma] at hnone
        cases hnone
      · rw [List.filter_cons_of_pos hlower.finalSigma] at hnone
        cases hnone

/-- A capital sigma leaves a letter beyond ASCII. -/
theorem LowersEach.exists_wide (hlower : LowersEach runtime lowerChar) {text out : List Char}
    (h : Lowered lowerChar text out) (hsigma : 'Σ' ∈ text) :
    ∃ c ∈ out.filter runtime.isalnum, 128 ≤ c.toNat := by
  induction h with
  | nil => exact absurd hsigma List.not_mem_nil
  | char hc _ ih =>
      obtain ⟨c, hmem, hwide⟩ := ih ((List.mem_cons.mp hsigma).resolve_left (Ne.symm hc))
      rw [List.filter_append]
      exact ⟨c, List.mem_append_right _ hmem, hwide⟩
  | @sigma low _ _ hlow _ _ =>
      have halnum : runtime.isalnum low = true := by
        rcases hlow with rfl | rfl
        · exact hlower.sigma
        · exact hlower.finalSigma
      rw [List.filter_cons_of_pos halnum]
      refine ⟨low, List.mem_cons_self, ?_⟩
      rcases hlow with rfl | rfl <;> decide

theorem ascii_of_all {text : List Char}
    (h : (text.all fun c => decide (c.toNat < 128)) = true) : ∀ c ∈ text, c.toNat < 128 :=
  fun c hc => of_decide_eq_true (List.all_eq_true.mp h c hc)

/-! ## Names of fields -/

/-- The forms that name a field. -/
def namesOf (entry : String × List String) : List String :=
  entry.1 :: normalizeHeader .ascii entry.1 :: entry.2

theorem exists_name_of_aliasOf (hascii : ReadsAscii runtime) {form field : String}
    (h : aliasOf runtime form = some field) : ∃ entry ∈ fieldAliases, form ∈ namesOf entry := by
  rw [hascii.aliasOf_eq] at h
  obtain ⟨entry, hfind, -⟩ := Option.map_eq_some_iff.mp h
  refine ⟨entry, List.mem_of_find?_eq_some hfind, ?_⟩
  have hnamed := List.find?_some hfind
  simp only [Bool.or_eq_true, decide_eq_true_eq, List.contains_eq_mem] at hnamed
  rw [namesOf, List.mem_cons, List.mem_cons, ← or_assoc]
  exact hnamed

/-- The names that end in a qualifier. -/
def endedNames : List String :=
  ["grossamt", "netamt", "settleamt", "settlementamt", "marketvalueinbase"]

/-- Names are plain ASCII, and in comparable form but for those of the fields themselves;
only one ends like an ISIN, and few end in a qualifier. -/
theorem names_checked : ∀ entry ∈ fieldAliases, ∀ name ∈ namesOf entry,
    (name.toList.all fun c => decide (c.toNat < 128)) = true ∧
      (name = entry.1 ∨ (name.toList.all fun c => c.isLower || c.isDigit) = true) ∧
      ("in".toList <:+ name.toList → name = "isin") ∧
      ∀ token ∈ noiseTokens, token.toList <:+ name.toList → name ∈ endedNames := by
  decide +kernel

/-- Qualifiers are removed from the end only. -/
theorem mem_stripNoise {form : String} {c : Char} (h : c ∈ form.toList) (hwide : 128 ≤ c.toNat) :
    c ∈ (stripNoise form).toList := by
  have htokens : ∀ token ∈ noiseTokens,
      (token.toList.all fun c => decide (c.toNat < 128)) = true := by decide
  refine List.foldlRecOn (motive := fun out : String => c ∈ out.toList) _ _ h
    fun out hout token htoken => ?_
  split
  next hstrip =>
    rw [Bool.and_eq_true] at hstrip
    have hsuffix : token.toList <:+ out.toList := by simpa [endsWith] using hstrip.1
    obtain ⟨rest, hrest⟩ := hsuffix
    rw [← hrest, List.mem_append] at hout
    have hkept : c ∈ rest := by
      refine hout.resolve_right fun htail => ?_
      have hsmall := ascii_of_all (htokens token htoken) c htail
      omega
    rw [String.toList_ofList, ← hrest, List.length_append, Nat.add_sub_cancel,
      List.take_left]
    exact hkept
  next => exact hout

/-- A form with a character beyond ASCII names no field. -/
theorem aliasLookup_of_wide (hascii : ReadsAscii runtime) {header : String} {c : Char}
    (h : c ∈ (normalizeHeader runtime header).toList) (hwide : 128 ≤ c.toNat) :
    aliasLookup runtime header = none := by
  have hnone : ∀ form : String, c ∈ form.toList → aliasOf runtime form = none := by
    intro form hmem
    rw [Option.eq_none_iff_forall_ne_some]
    intro field hfield
    obtain ⟨entry, hentry, hname⟩ := exists_name_of_aliasOf hascii hfield
    have hsmall := ascii_of_all (names_checked entry hentry form hname).1 c hmem
    omega
  rw [aliasLookup, hnone _ h, hnone _ (mem_stripNoise h hwide), Option.or_none]

/-- No name has anything in front of an ISIN. -/
theorem aliasLookup_isin (hascii : ReadsAscii runtime) {header : String} {front : List Char}
    (hfront : front ≠ [])
    (h : (normalizeHeader runtime header).toList = front ++ "isin".toList) :
    aliasLookup runtime header = none := by
  have hnone : aliasOf runtime (normalizeHeader runtime header) = none := by
    rw [Option.eq_none_iff_forall_ne_some]
    intro field hfield
    obtain ⟨entry, hentry, hname⟩ := exists_name_of_aliasOf hascii hfield
    have hisin := (names_checked entry hentry _ hname).2.2.1
      (List.IsSuffix.trans ⟨['i', 's'], rfl⟩ ⟨front, h.symm⟩)
    rw [hisin] at h
    exact hfront (List.append_left_eq_self.mp h.symm)
  have hstrip : stripNoise (normalizeHeader runtime header) = normalizeHeader runtime header := by
    have htokens : ∀ token ∈ noiseTokens,
        token.toList.getLast? ≠ none ∧ token.toList.getLast? ≠ some 'n' := by decide
    refine List.foldlRecOn (motive := fun out : String => out = normalizeHeader runtime header)
      _ _ rfl fun out hout token htoken => ?_
    rw [hout, if_neg]
    intro hend
    rw [Bool.and_eq_true] at hend
    have hsuffix : token.toList <:+ (normalizeHeader runtime header).toList := by
      simpa [endsWith] using hend.1
    obtain ⟨rest, hrest⟩ := hsuffix
    obtain ⟨hsome, hne⟩ := htokens token htoken
    obtain ⟨c, hlast⟩ := Option.ne_none_iff_exists'.mp hsome
    have hsame := congrArg List.getLast? (hrest.trans h)
    rw [List.getLast?_append, List.getLast?_append, hlast] at hsame
    exact hne (hlast.trans hsame)
  rw [aliasLookup, hstrip, hnone, Option.or_none]

/-! ## Paths -/

theorem LowersEach.lowerChar_dot (hlower : LowersEach runtime lowerChar)
    (hascii : ReadsAscii runtime) : lowerChar '.' = ['.'] := by
  have hdot := hlower.lowered ['.']
  rw [hascii.lower ['.'] (ascii_of_all (by decide))] at hdot
  generalize hout : ['.'].map Char.toLower = out at hdot
  cases hdot with
  | char _ hrest =>
      cases hrest
      rw [List.append_nil] at hout
      exact hout.symm

/-- Letters and digits of a path come from its keys. -/
theorem LowersEach.blank_path_iff (hlower : LowersEach runtime lowerChar)
    (hascii : ReadsAscii runtime) {keys : List String} {out : List Char}
    (h : Lowered lowerChar (withDots keys).toList out) :
    out.filter runtime.isalnum = [] ↔ ∀ key ∈ keys, normalizeHeader runtime key = "" := by
  have hdot : runtime.isalnum '.' = false := hascii.isalnum '.' (by decide)
  induction keys generalizing out with
  | nil =>
      cases h
      simp
  | cons key rest ih =>
      have hchars : (withDots (key :: rest)).toList =
          key.toList ++ '.' :: (withDots rest).toList := by
        simp [withDots, Bytes.terminated]
      rw [hchars] at h
      obtain ⟨left, right, rfl, hleft, hright⟩ := h.of_append
      cases hright with
      | char _ hrest =>
          have hkey : left.filter runtime.isalnum = [] ↔ normalizeHeader runtime key = "" := by
            have hnil : normalizeHeader runtime key = "" ↔
                (runtime.lower key.toList).filter runtime.isalnum = [] := by
              rw [normalizeHeader, ← String.toList_inj, String.toList_ofList, String.toList_empty]
            rw [hnil]
            exact ⟨hlower.filter_eq_nil hleft (hlower.lowered _),
              hlower.filter_eq_nil (hlower.lowered _) hleft⟩
          rw [hlower.lowerChar_dot hascii, List.filter_append, List.filter_append,
            List.filter_cons_of_neg (by rw [hdot]; exact Bool.false_ne_true), List.filter_nil,
            List.nil_append, List.append_eq_nil_iff, hkey, List.forall_mem_cons]
          exact and_congr_right' (ih hrest)

/-- The path of a leaf is read as one word with its own key. -/
theorem LowersEach.normalizeHeader_nested (hlower : LowersEach runtime lowerChar)
    (keys : List String) (leaf : String) :
    ∃ left right, (normalizeHeader runtime (withDots keys ++ leaf)).toList =
        left.filter runtime.isalnum ++ right.filter runtime.isalnum ∧
      Lowered lowerChar (withDots keys).toList left ∧ Lowered lowerChar leaf.toList right := by
  have hwhole := hlower.lowered ((withDots keys).toList ++ leaf.toList)
  obtain ⟨left, right, hout, hleft, hright⟩ := hwhole.of_append
  refine ⟨left, right, ?_, hleft, hright⟩
  rw [normalizeHeader, String.toList_ofList, String.toList_append, hout, List.filter_append]

/-- Under a path every leaf key keeps its field exactly when no key of the path has a
letter or a digit. -/
theorem aliasLookup_nested_iff (hlower : LowersEach runtime lowerChar)
    (hascii : ReadsAscii runtime) (keys : List String) :
    (∀ leaf field, '.' ∉ leaf.toList → aliasLookup runtime leaf = some field →
        aliasLookup runtime (withDots keys ++ leaf) = some field) ↔
      ∀ key ∈ keys, normalizeHeader runtime key = "" := by
  constructor
  · intro hkeeps
    have hisin := hkeeps "isin" "instrument_id" (by decide) (by
      rw [hascii.aliasLookup_eq (ascii_of_all (by decide))]
      decide)
    obtain ⟨left, right, hform, hleft, hright⟩ := hlower.normalizeHeader_nested keys "isin"
    rw [← hlower.blank_path_iff hascii hleft]
    by_contra hfront
    have hword : right.filter runtime.isalnum = "isin".toList := by
      have hsame : normalizeHeader runtime "isin" = "isin" :=
        (hascii.normalizeHeader_eq (ascii_of_all (by decide))).trans (by decide)
      have hchars := congrArg String.toList hsame
      rw [normalizeHeader, String.toList_ofList] at hchars
      rw [hright.unique (hlower.lowered _) (by decide), hchars]
    rw [hword] at hform
    rw [aliasLookup_isin hascii hfront hform] at hisin
    cases hisin
  · intro hblank leaf field _ hfield
    obtain ⟨left, right, hform, hleft, hright⟩ := hlower.normalizeHeader_nested keys leaf
    have hsigma : 'Σ' ∉ leaf.toList := by
      intro hsigma
      obtain ⟨c, hmem, hwide⟩ := hlower.exists_wide (hlower.lowered leaf.toList) hsigma
      rw [aliasLookup_of_wide hascii (c := c) (by
        rw [normalizeHeader, String.toList_ofList]
        exact hmem) hwide] at hfield
      cases hfield
    have hsame : normalizeHeader runtime (withDots keys ++ leaf) =
        normalizeHeader runtime leaf := by
      apply String.toList_injective
      rw [hform, (hlower.blank_path_iff hascii hleft).mpr hblank, List.nil_append,
        hright.unique (hlower.lowered _) hsigma, normalizeHeader, String.toList_ofList]
    rw [aliasLookup, hsame]
    exact hfield

/-- The tables on ASCII text, with the capital sigma. -/
def sigmaRuntime : Runtime :=
  { Runtime.ascii with
    lower := fun text => text.map fun c => if c = 'Σ' then 'σ' else c.toLower
    isalnum := fun c => c.isAlphanum || c = 'σ' || c = 'ς' }

theorem sigmaRuntime_lowersEach : LowersEach sigmaRuntime fun c => [c.toLower] where
  lowered text := by
    induction text with
    | nil => exact .nil
    | cons c rest ih =>
        change Lowered _ _ ((if c = 'Σ' then 'σ' else c.toLower) :: sigmaRuntime.lower rest)
        by_cases hc : c = 'Σ'
        · subst hc
          exact .sigma (Or.inl rfl) ih
        · rw [if_neg hc]
          exact .char hc ih
  sigma := rfl
  finalSigma := rfl

theorem sigmaRuntime_readsAscii : ReadsAscii sigmaRuntime where
  lower text h := by
    refine List.map_congr_left fun c hc => if_neg ?_
    rintro rfl
    exact absurd (h _ hc) (by decide)
  isalnum c h := by
    have hne : c ≠ 'σ' ∧ c ≠ 'ς' := by
      constructor <;> rintro rfl <;> exact absurd h (by decide)
    change (c.isAlphanum || c = 'σ' || c = 'ς') = _
    simp [hne.1, hne.2]

/-- Under a path of dashes a leaf keeps its field. -/
theorem aliasLookup_dashes : aliasLookup sigmaRuntime (withDots ["--"] ++ "netAmount") =
    some "net_amount" :=
  (aliasLookup_nested_iff sigmaRuntime_lowersEach sigmaRuntime_readsAscii ["--"]).mpr (by decide)
    "netAmount" "net_amount" (by decide) (by decide)

set_option maxRecDepth 4096 in
/-- Under a path with letters it does not: the price of a settlement is no trade price,
and an amount among the economics is nothing. -/
theorem aliasLookup_economics :
    aliasLookup sigmaRuntime "price" = some "trade_price" ∧
      aliasLookup sigmaRuntime (withDots ["settlement"] ++ "price") = some "settlement_price" ∧
      aliasLookup sigmaRuntime "netAmount" = some "net_amount" ∧
      aliasLookup sigmaRuntime (withDots ["economics"] ++ "netAmount") = none := by
  decide

end Harbormaster.Inspector
