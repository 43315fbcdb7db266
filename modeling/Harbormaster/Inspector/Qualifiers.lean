import Harbormaster.Inspector.NestedNames

/-! # Qualifiers behind a name

`strip_noise` tries each qualifier once, in a fixed order, on what is left of the name.
Qualifiers that were appended to an alias are therefore all removed exactly when, from the
right, each comes later in the order than the one before it and no shorter one that it
ends in is tried first; and the alias is found unless a later qualifier ends it as well.
-/

namespace Harbormaster.Inspector

/-! ## Removing endings -/

/-- One turn of the pass. -/
def cutToken (out token : List Char) : List Char :=
  if token <:+ out ∧ token.length + 2 < out.length then out.take (out.length - token.length)
  else out

def cutTokens (order : List String) (text : List Char) : List Char :=
  order.foldl (fun out token => cutToken out token.toList) text

theorem stripNoise_toList (form : String) :
    (stripNoise form).toList = cutTokens noiseTokens form.toList := by
  unfold stripNoise cutTokens
  induction noiseTokens generalizing form with
  | nil => rfl
  | cons token rest ih =>
      rw [List.foldl_cons, List.foldl_cons, ih]
      congr 1
      unfold cutToken
      by_cases hend : token.toList <:+ form.toList ∧ token.toList.length + 2 < form.toList.length
      · rw [if_pos hend, if_pos (by simpa [endsWith] using hend), String.toList_ofList]
      · rw [if_neg hend, if_neg (by simpa [endsWith] using hend)]

theorem cut_append {text : List Char} (h : 3 ≤ text.length) (token : List Char) :
    cutToken (text ++ token) token = text := by
  have hguard : token.length + 2 < (text ++ token).length := by
    rw [List.length_append]
    omega
  rw [cutToken, if_pos ⟨List.suffix_append _ _, hguard⟩, List.length_append, Nat.add_sub_cancel,
    List.take_left]

theorem cut_of_not_suffix {out token : List Char} (h : ¬ token <:+ out) :
    cutToken out token = out :=
  if_neg fun hend => h hend.1

theorem cutTokens_of_forall {order : List String} {text : List Char}
    (h : ∀ token ∈ order, cutToken text token.toList = text) : cutTokens order text = text := by
  induction order with
  | nil => rfl
  | cons token rest ih =>
      obtain ⟨htoken, hrest⟩ := List.forall_mem_cons.mp h
      rw [cutTokens, List.foldl_cons, htoken]
      exact ih hrest

theorem cutTokens_append (first second : List String) (text : List Char) :
    cutTokens (first ++ second) text = cutTokens second (cutTokens first text) :=
  List.foldl_append

/-! ## Appended qualifiers -/

/-- A name with qualifiers behind it, the last one first. -/
def appended (stem : List Char) : List String → List Char
  | [] => stem
  | token :: rest => appended stem rest ++ token.toList

/-- The qualifiers that are tried after one. -/
def triedAfter (token : String) : List String := (noiseTokens.dropWhile (· ≠ token)).tail

/-- Qualifiers that the rest of the pass removes one by one, the last one first: of those
that are still to be tried, each is the first that it ends in. -/
def Removable : List String → List String → Prop
  | _, [] => True
  | order, token :: rest =>
      order.find? (fun tried => endsWith token tried) = some token ∧
        Removable (triedAfter token) rest

instance decidableRemovable : (order tokens : List String) → Decidable (Removable order tokens)
  | _, [] => .isTrue trivial
  | _, token :: rest => @instDecidableAnd _ _ _ (decidableRemovable (triedAfter token) rest)

/-- The qualifiers that are tried after the first one of a name is removed. -/
def triedLater : List String → List String
  | [] => noiseTokens
  | first :: _ => triedAfter first

/-- The qualifiers of a name are removed, and nothing else. -/
def Stripped (form : String) (tokens : List String) : Prop :=
  Removable noiseTokens tokens.reverse ∧ ∀ token ∈ triedLater tokens, endsWith form token = false

instance (form : String) (tokens : List String) : Decidable (Stripped form tokens) :=
  inferInstanceAs (Decidable (_ ∧ _))

/-- `marketvalueinbase` is an alias that ends in a qualifier, behind an alias of the same
field: the pass may leave either. -/
def InBase (form : String) (tokens : List String) : Prop :=
  form = "marketvalueinbase" ∧ Removable noiseTokens tokens.reverse ∧
      (tokens.head? = some "base" ∨ tokens.head? = some "reporting") ∨
    form = "marketvalue" ∧ ∃ rest, tokens = "inbase" :: rest ∧
      (rest = [] ∨ Stripped "marketvalueinbase" rest)

/-- What the comparable form of a name without other letters looks like. -/
structure Stem (stem : List Char) : Prop where
  long : 3 ≤ stem.length
  short_of_in : "in".toList <:+ stem → stem.length ≤ 4

/-- One qualifier ends in another only as `inbase` and `inlocal` do. -/
theorem suffix_tokens : ∀ token ∈ noiseTokens, ∀ other ∈ noiseTokens,
    other.toList <:+ token.toList → other = token ∨ token.toList = "in".toList ++ other.toList := by
  decide +kernel

theorem last_token : ∀ token ∈ noiseTokens, ∃ c, token.toList.getLast? = some c ∧ c ≠ 'n' := by
  have hlast : ∀ token ∈ noiseTokens,
      token.toList.getLast? ≠ none ∧ token.toList.getLast? ≠ some 'n' := by decide
  intro token htoken
  obtain ⟨hsome, hn⟩ := hlast token htoken
  obtain ⟨c, hc⟩ := Option.ne_none_iff_exists'.mp hsome
  exact ⟨c, hc, fun heq => hn (heq ▸ hc)⟩

/-- No qualifier ends in `in`. -/
theorem not_suffix_in {token : String} (htoken : token ∈ noiseTokens) (text : List Char) :
    ¬ token.toList <:+ text ++ "in".toList := by
  rintro ⟨rest, hrest⟩
  obtain ⟨c, hc, hn⟩ := last_token token htoken
  have hlast := congrArg List.getLast? hrest
  rw [List.getLast?_append, List.getLast?_append, hc] at hlast
  exact hn (Option.some.inj hlast)

theorem not_in_suffix {token : String} (htoken : token ∈ noiseTokens) (text : List Char) :
    ¬ "in".toList <:+ text ++ token.toList := by
  rintro ⟨rest, hrest⟩
  obtain ⟨c, hc, hn⟩ := last_token token htoken
  have hlast := congrArg List.getLast? hrest
  rw [List.getLast?_append, List.getLast?_append, hc] at hlast
  exact hn (Option.some.inj hlast).symm

section Pass

variable {stem : List Char} {order rest : List String} {token tried : String}

theorem length_appended (stem : List Char) (tokens : List String) :
    stem.length ≤ (appended stem tokens).length := by
  induction tokens with
  | nil => exact le_rfl
  | cons token rest ih =>
      rw [appended, List.length_append]
      omega

/-- A qualifier that the last one does not end in is not removed, whatever stands before. -/
theorem cut_other (hstem : Stem stem) (hrest : ∀ token ∈ rest, token ∈ noiseTokens)
    (htoken : token ∈ noiseTokens) (htried : tried ∈ noiseTokens)
    (h : endsWith token tried = false) :
    cutToken (appended stem (token :: rest)) tried.toList = appended stem (token :: rest) := by
  have hnot : ¬ tried.toList <:+ token.toList := of_decide_eq_false h
  by_cases hend : tried.toList <:+ appended stem rest ++ token.toList
  · -- only a name that ends in `in` could take part in the qualifier, and it is too short
    have hlonger : token.toList <:+ tried.toList :=
      (List.suffix_or_suffix_of_suffix hend (List.suffix_append _ _)).resolve_left hnot
    rcases suffix_tokens tried htried token htoken hlonger with rfl | hin
    · exact absurd List.suffix_rfl hnot
    · obtain ⟨front, hfront⟩ := hend
      rw [hin, ← List.append_assoc] at hfront
      have hin' : "in".toList <:+ appended stem rest := ⟨front, List.append_cancel_right hfront⟩
      cases rest with
      | nil =>
          have hshort := hstem.short_of_in hin'
          have hlength : tried.toList.length = 2 + token.toList.length := by
            rw [hin, List.length_append]
            rfl
          refine if_neg fun hguard => ?_
          have hlong := hguard.2
          rw [appended, appended, List.length_append] at hlong
          omega
      | cons next rest =>
          exact absurd hin' (not_in_suffix (hrest next List.mem_cons_self) _)
  · exact cut_of_not_suffix hend

/-- The first letters of `inbase` and `inlocal` stay, as no qualifier ends in them. -/
theorem cutTokens_in (horder : ∀ token ∈ order, token ∈ noiseTokens) (text : List Char) :
    cutTokens order (text ++ "in".toList) = text ++ "in".toList :=
  cutTokens_of_forall fun token htoken =>
    cut_of_not_suffix (not_suffix_in (horder token htoken) text)

theorem triedAfter_eq {remaining : List String} (h : token :: remaining <:+ noiseTokens) :
    triedAfter token = remaining := by
  obtain ⟨front, hfront⟩ := h
  have hnodup : (front ++ token :: remaining).Nodup := by
    rw [hfront]
    decide
  have hnot : ∀ tried ∈ front, (decide (tried ≠ token)) = true := fun tried htried =>
    decide_eq_true fun heq => (List.disjoint_of_nodup_append hnodup) htried
      (heq ▸ List.mem_cons_self)
  rw [triedAfter, ← hfront, List.dropWhile_append_of_pos hnot, List.dropWhile_cons_of_neg (by simp),
    List.tail_cons]

/-- The rest of the pass when the last qualifier is looked at. -/
theorem cutTokens_cons (hstem : Stem stem) (horder : order <:+ noiseTokens)
    (hrest : ∀ token ∈ rest, token ∈ noiseTokens) (htoken : token ∈ noiseTokens) :
    (order.find? (fun tried => endsWith token tried) = some token ∧
        triedAfter token <:+ noiseTokens ∧
        cutTokens order (appended stem (token :: rest)) =
          cutTokens (triedAfter token) (appended stem rest)) ∨
      ((∀ tried ∈ order, endsWith token tried = false) ∧
        cutTokens order (appended stem (token :: rest)) = appended stem (token :: rest)) ∨
      (order.find? (fun tried => endsWith token tried) ≠ some token ∧
        cutTokens order (appended stem (token :: rest)) = appended stem rest ++ "in".toList) := by
  have hlong : 3 ≤ (appended stem rest).length := hstem.long.trans (length_appended stem rest)
  have hmem : ∀ tried ∈ order, tried ∈ noiseTokens := fun tried htried => horder.subset htried
  cases hfind : order.find? (fun tried => endsWith token tried) with
  | none =>
      have hnone : ∀ tried ∈ order, endsWith token tried = false := fun tried htried =>
        eq_false_of_ne_true (List.find?_eq_none.mp hfind tried htried)
      exact Or.inr (Or.inl ⟨hnone, cutTokens_of_forall fun tried htried =>
        cut_other hstem hrest htoken (hmem tried htried) (hnone tried htried)⟩)
  | some tried =>
      obtain ⟨hend, before, remaining, rfl, hbefore⟩ := List.find?_eq_some_iff_append.mp hfind
      have htried := hmem tried (by simp)
      have hpass : cutTokens before (appended stem (token :: rest)) =
          appended stem (token :: rest) :=
        cutTokens_of_forall fun other hother =>
          cut_other hstem hrest htoken (hmem other (by simp [hother]))
            (by simpa using hbefore other hother)
      have htail : tried :: remaining <:+ noiseTokens :=
        (List.suffix_append before _).trans horder
      rw [cutTokens_append, hpass, cutTokens, List.foldl_cons, ← cutTokens]
      rcases suffix_tokens token htoken tried htried (of_decide_eq_true hend) with rfl | hin
      · left
        rw [triedAfter_eq htail, appended, cut_append hlong]
        exact ⟨rfl, (List.suffix_cons _ _).trans htail, rfl⟩
      · right
        right
        refine ⟨?_, ?_⟩
        · rintro heq
          have hlength := congrArg List.length hin
          rw [Option.some.inj heq, List.length_append] at hlength
          simp at hlength
        · rw [appended, hin, ← List.append_assoc, cut_append (by rw [List.length_append]; omega)]
          exact cutTokens_in (fun other hother => hmem other (by simp [hother])) _

/-- The qualifiers that are still tried when some were removed, the last one first. -/
def orderAfter : List String → List String → List String
  | order, [] => order
  | _, token :: rest => orderAfter (triedAfter token) rest

theorem orderAfter_append (order first second : List String) :
    orderAfter order (first ++ second) = orderAfter (orderAfter order first) second := by
  induction first generalizing order with
  | nil => rfl
  | cons token rest ih => exact ih (triedAfter token)

theorem orderAfter_reverse (tokens : List String) :
    orderAfter noiseTokens tokens.reverse = triedLater tokens := by
  cases tokens with
  | nil => rfl
  | cons first rest =>
      rw [List.reverse_cons, orderAfter_append]
      rfl

theorem triedAfter_subset (token : String) : triedAfter token ⊆ noiseTokens := fun _ htried =>
  List.dropWhile_subset _ (List.mem_of_mem_tail htried)

theorem triedLater_subset (tokens : List String) : triedLater tokens ⊆ noiseTokens := by
  cases tokens with
  | nil => exact List.Subset.refl _
  | cons first rest => exact triedAfter_subset first

/-- What the pass leaves of appended qualifiers: none of them; all from one on that nothing
still to be tried ends; or the first letters of one. -/
inductive Left (stem : List Char) (order tokens : List String) : List Char → Prop
  | removed (h : Removable order tokens) :
      Left stem order tokens (cutTokens (orderAfter order tokens) stem)
  | stuck (gone : List String) (token : String) (rest : List String)
      (hsplit : tokens = gone ++ token :: rest) (hgone : Removable order gone)
      (hpass : ∀ tried ∈ orderAfter order gone, endsWith token tried = false)
      (hnot : ¬ Removable order tokens) : Left stem order tokens (appended stem (token :: rest))
  | broken (rest : List String) (hnot : ¬ Removable order tokens) :
      Left stem order tokens (appended stem rest ++ "in".toList)

theorem left_appended (hstem : Stem stem) (horder : order <:+ noiseTokens) {tokens : List String}
    (htokens : ∀ token ∈ tokens, token ∈ noiseTokens) :
    Left stem order tokens (cutTokens order (appended stem tokens)) := by
  induction tokens generalizing order with
  | nil => exact .removed trivial
  | cons token rest ih =>
      obtain ⟨htoken, hrest⟩ := List.forall_mem_cons.mp htokens
      rcases cutTokens_cons hstem horder hrest htoken with
        ⟨hfind, hsuffix, heq⟩ | ⟨hnone, heq⟩ | ⟨hne, heq⟩
      · have hleft := ih hsuffix hrest
        rw [heq]
        generalize cutTokens (triedAfter token) (appended stem rest) = out at hleft
        cases hleft with
        | removed h => exact .removed ⟨hfind, h⟩
        | stuck gone next others hsplit hgone hpass hnot =>
            exact .stuck (token :: gone) next others (congrArg (token :: ·) hsplit) ⟨hfind, hgone⟩
              hpass fun h => hnot h.2
        | broken others hnot => exact .broken others fun h => hnot h.2
      · rw [heq]
        refine .stuck [] token rest rfl trivial hnone fun h => ?_
        have hself := hnone token (List.mem_of_find?_eq_some h.1)
        rw [List.find?_some h.1] at hself
        cases hself
      · rw [heq]
        exact .broken rest fun h => hne h.1

/-- Of qualifiers that are removed one by one nothing is left. -/
theorem cutTokens_removable (hstem : Stem stem) {tokens : List String}
    (htokens : ∀ token ∈ tokens, token ∈ noiseTokens) (h : Removable noiseTokens tokens.reverse) :
    cutTokens noiseTokens (appended stem tokens.reverse) = cutTokens (triedLater tokens) stem := by
  have hreverse : ∀ token ∈ tokens.reverse, token ∈ noiseTokens := fun token htoken =>
    htokens token (List.mem_reverse.mp htoken)
  have hleft := left_appended hstem List.suffix_rfl hreverse
  generalize cutTokens noiseTokens (appended stem tokens.reverse) = out at hleft
  cases hleft with
  | removed => rw [orderAfter_reverse]
  | stuck _ _ _ _ _ _ hnot => exact absurd h hnot
  | broken _ hnot => exact absurd h hnot

theorem cutTokens_stripped {form : String} (hstem : Stem form.toList) {tokens : List String}
    (htokens : ∀ token ∈ tokens, token ∈ noiseTokens) (h : Stripped form tokens) :
    cutTokens noiseTokens (appended form.toList tokens.reverse) = form.toList := by
  rw [cutTokens_removable hstem htokens h.1]
  exact cutTokens_of_forall fun token htoken =>
    cut_of_not_suffix (of_decide_eq_false (h.2 token htoken))

theorem appended_append (stem : List Char) (first second : List String) :
    appended stem (first ++ second) = appended (appended stem second) first := by
  induction first with
  | nil => rfl
  | cons token rest ih => rw [List.cons_append, appended, appended, ih]

theorem appended_reverse (stem : List Char) (tokens : List String) :
    appended stem tokens.reverse = stem ++ tokens.flatMap String.toList := by
  induction tokens generalizing stem with
  | nil => exact (List.append_nil stem).symm
  | cons token rest ih =>
      rw [List.reverse_cons, appended_append, ih, appended, appended, List.flatMap_cons,
        List.append_assoc]

end Pass

/-! ## Names in comparable form -/

/-- Lower case letters and digits are their own comparable form. -/
theorem filter_comparable {text : List Char}
    (h : (text.all fun c => c.isLower || c.isDigit) = true)
    (hsmall : (text.all fun c => decide (c.toNat < 128)) = true) :
    (Runtime.ascii.lower text).filter Runtime.ascii.isalnum = text := by
  have hchar : ∀ code < 128, ((Char.ofNat code).isLower || (Char.ofNat code).isDigit) = true →
      (Char.ofNat code).toLower = Char.ofNat code ∧ (Char.ofNat code).isAlphanum = true := by
    decide
  have hkept : ∀ c ∈ text, c.toLower = c ∧ c.isAlphanum = true := by
    intro c hc
    have hkind := hchar c.toNat (ascii_of_all hsmall c hc)
    rw [Char.ofNat_toNat] at hkind
    exact hkind (List.all_eq_true.mp h c hc)
  have hlower : Runtime.ascii.lower text = text :=
    (List.map_congr_left fun c hc => (hkept c hc).1).trans (List.map_id' text)
  rw [hlower]
  exact List.filter_eq_self.mpr fun c hc => (hkept c hc).2

theorem normalizeHeader_comparable {name : String}
    (h : (name.toList.all fun c => c.isLower || c.isDigit) = true)
    (hsmall : (name.toList.all fun c => decide (c.toNat < 128)) = true) :
    normalizeHeader .ascii name = name := by
  rw [normalizeHeader, filter_comparable h hsmall, String.ofList_toList]

theorem noiseTokens_comparable : ∀ token ∈ noiseTokens,
    (token.toList.all fun c => c.isLower || c.isDigit) = true ∧
      (token.toList.all fun c => decide (c.toNat < 128)) = true := by
  decide

theorem normalizeHeader_appended (known : String) {tokens : List String}
    (htokens : ∀ token ∈ tokens, token ∈ noiseTokens) :
    (normalizeHeader .ascii (known ++ String.join tokens)).toList =
      appended (normalizeHeader .ascii known).toList tokens.reverse := by
  have hqualifiers : (Runtime.ascii.lower (tokens.flatMap String.toList)).filter
      Runtime.ascii.isalnum = tokens.flatMap String.toList := by
    refine filter_comparable ?_ ?_ <;> rw [List.all_flatMap, List.all_eq_true]
    · exact fun token htoken => (noiseTokens_comparable token (htokens token htoken)).1
    · exact fun token htoken => (noiseTokens_comparable token (htokens token htoken)).2
  have hlower : Runtime.ascii.lower (known.toList ++ tokens.flatMap String.toList) =
      Runtime.ascii.lower known.toList ++ Runtime.ascii.lower (tokens.flatMap String.toList) :=
    List.map_append
  rw [appended_reverse, normalizeHeader, normalizeHeader, String.toList_ofList,
    String.toList_ofList, String.toList_append, String.toList_join, hlower, List.filter_append,
    hqualifiers]

/-- The field's own name stands for itself, also in comparable form. -/
theorem fields_checked : ∀ entry ∈ fieldAliases,
    aliasOf .ascii entry.1 = some entry.1 ∧
      aliasOf .ascii (normalizeHeader .ascii entry.1) = some entry.1 ∧
      3 ≤ (normalizeHeader .ascii entry.1).toList.length := by
  decide +kernel

theorem aliasOf_normalizeHeader {known field : String} (h : aliasOf .ascii known = some field)
    (hlong : 3 ≤ known.length) :
    aliasOf .ascii (normalizeHeader .ascii known) = some field ∧
      3 ≤ (normalizeHeader .ascii known).toList.length := by
  obtain ⟨entry, hentry, hname⟩ := exists_name_of_aliasOf readsAscii_ascii h
  obtain ⟨hself, hform, hlength⟩ := fields_checked entry hentry
  obtain ⟨hsmall, rfl | hcomparable, -⟩ := names_checked entry hentry known hname
  · exact ⟨hform.trans (hself.symm.trans h), hlength⟩
  · rw [normalizeHeader_comparable hcomparable hsmall, String.length_toList]
    exact ⟨h, hlong⟩

theorem stem_of_aliasOf {form field : String} (h : aliasOf .ascii form = some field)
    (hlong : 3 ≤ form.toList.length) : Stem form.toList where
  long := hlong
  short_of_in hin := by
    obtain ⟨entry, hentry, hname⟩ := exists_name_of_aliasOf readsAscii_ascii h
    rw [(names_checked entry hentry form hname).2.2.1 hin]
    decide

/-! ## Names that end in a qualifier -/

/-- What is left of a name without the qualifier that ends it, unless that is a name. -/
def residues : List String := ["gross", "net", "settle", "settlement", "marketvaluein"]

theorem residues_unknown : ∀ residue ∈ residues, aliasOf .ascii residue = none := by
  decide +kernel

/-- What is left when the qualifier is taken from a name. -/
theorem residue_of_suffix : ∀ name ∈ endedNames, ∀ token ∈ noiseTokens,
    token.toList <:+ name.toList →
      (name = "marketvalueinbase" ∧ token = "inbase") ∨
        String.ofList (name.toList.take (name.toList.length - token.toList.length)) ∈ residues := by
  decide +kernel

theorem not_suffix_residue : ∀ stem ∈ "marketvalue" :: residues, ∀ token ∈ noiseTokens,
    ¬ token.toList <:+ stem.toList := by
  decide +kernel

/-- What the pass leaves of a name after the first qualifier behind it. -/
theorem residue_of_pass : ∀ name ∈ endedNames, ∀ first ∈ noiseTokens,
    (∀ token ∈ triedAfter first, endsWith name token = false) ∨
      (name = "marketvalueinbase" ∧ (first = "base" ∨ first = "reporting")) ∨
      String.ofList (cutTokens (triedAfter first) name.toList) ∈ residues := by
  decide +kernel

/-- `inbase` ends in the same qualifiers as the name it ends. -/
theorem endsWith_inbase : ∀ token ∈ noiseTokens,
    endsWith "marketvalueinbase" token = endsWith "inbase" token := by
  decide +kernel

section Qualified

variable {form field name : String} {tokens rest : List String} {token : String}

/-- A name with qualifiers behind it is a name only of the market value in base. -/
theorem inBase_of_name (hform : aliasOf .ascii form = some field)
    (htoken : token ∈ noiseTokens) (hrest : ∀ token ∈ rest, token ∈ noiseTokens)
    (hname : (aliasOf .ascii name).isSome)
    (h : name.toList = appended form.toList (token :: rest)) :
    name = "marketvalueinbase" ∧ form = "marketvalue" ∧ token = "inbase" ∧ rest = [] := by
  obtain ⟨_, hsome⟩ := Option.isSome_iff_exists.mp hname
  obtain ⟨entry, hentry, hmem⟩ := exists_name_of_aliasOf readsAscii_ascii hsome
  have hend : token.toList <:+ name.toList := ⟨appended form.toList rest, h.symm⟩
  have hended := (names_checked entry hentry name hmem).2.2.2 token htoken hend
  have htake : name.toList.take (name.toList.length - token.toList.length) =
      appended form.toList rest := by
    rw [h, appended, List.length_append, Nat.add_sub_cancel, List.take_left]
  -- nothing but the form is in front of the qualifier, as no qualifier ends what is
  have hstem : ∀ stem : String, stem ∈ "marketvalue" :: residues →
      stem.toList = appended form.toList rest → form = stem ∧ rest = [] := by
    intro stem hmember heq
    cases rest with
    | nil => exact ⟨String.toList_injective heq.symm, rfl⟩
    | cons next others =>
        exact absurd ⟨appended form.toList others, heq.symm⟩
          (not_suffix_residue stem hmember next (hrest next List.mem_cons_self))
  rcases residue_of_suffix name hended token htoken hend with ⟨rfl, rfl⟩ | hresidue
  · obtain ⟨hstemForm, hnil⟩ := hstem "marketvalue" List.mem_cons_self (by
      rw [← htake]
      decide)
    exact ⟨rfl, hstemForm, rfl, hnil⟩
  · obtain ⟨hstemForm, -⟩ := hstem _ (List.mem_cons_of_mem _ hresidue) (by
      rw [String.toList_ofList, htake])
    rw [hstemForm, residues_unknown _ hresidue] at hform
    cases hform

theorem aliasOf_inBase : aliasOf .ascii "marketvalueinbase" = aliasOf .ascii "marketvalue" := by
  decide +kernel

theorem inBase_of_appended {found : String} (hform : aliasOf .ascii form = some field)
    (hne : tokens ≠ []) (htokens : ∀ token ∈ tokens, token ∈ noiseTokens)
    (h : name.toList = appended form.toList tokens.reverse)
    (hfound : aliasOf .ascii name = some found) :
    found = field ∧ form = "marketvalue" ∧ tokens = ["inbase"] := by
  obtain ⟨last, before, hlast⟩ := List.exists_cons_of_ne_nil (List.reverse_ne_nil_iff.mpr hne)
  have hreverse : ∀ token ∈ last :: before, token ∈ noiseTokens := fun token htoken =>
    htokens token (List.mem_reverse.mp (hlast ▸ htoken))
  rw [hlast] at h
  obtain ⟨hlastToken, hbefore⟩ := List.forall_mem_cons.mp hreverse
  obtain ⟨rfl, rfl, rfl, rfl⟩ :=
    inBase_of_name hform hlastToken hbefore (by rw [hfound]; rfl) h
  refine ⟨?_, rfl, List.reverse_eq_iff.mp hlast⟩
  rw [aliasOf_inBase, hform] at hfound
  exact (Option.some.inj hfound).symm

/-- What the pass leaves is a name only if it removed the qualifiers and nothing else, up
to the market value in base. -/
theorem kept_of_stripNoise (hform : aliasOf .ascii form = some field)
    (hlong : 3 ≤ form.toList.length) (hne : tokens ≠ [])
    (htokens : ∀ token ∈ tokens, token ∈ noiseTokens)
    (h : name.toList = appended form.toList tokens.reverse)
    (hfound : (aliasOf .ascii (stripNoise name)).isSome) :
    Stripped form tokens ∨ InBase form tokens := by
  have hreverse : ∀ token ∈ tokens.reverse, token ∈ noiseTokens := fun token htoken =>
    htokens token (List.mem_reverse.mp htoken)
  have hleft := left_appended (stem_of_aliasOf hform hlong) List.suffix_rfl hreverse
  rw [← h, ← stripNoise_toList] at hleft
  generalize hout : (stripNoise name).toList = out at hleft
  cases hleft with
  | removed hremovable =>
      cases tokens with
      | nil => exact absurd rfl hne
      | cons first others =>
          rw [orderAfter_reverse, triedLater] at hout
          by_cases hnone : ∀ token ∈ triedAfter first, endsWith form token = false
          · exact Or.inl ⟨hremovable, hnone⟩
          · have hended : form ∈ endedNames := by
              obtain ⟨entry, hentry, hmem⟩ := exists_name_of_aliasOf readsAscii_ascii hform
              simp only [not_forall, Bool.not_eq_false] at hnone
              obtain ⟨tried, htried, hend⟩ := hnone
              exact (names_checked entry hentry form hmem).2.2.2 tried
                (triedAfter_subset first htried) (of_decide_eq_true hend)
            rcases residue_of_pass form hended first (htokens first List.mem_cons_self) with
              hnot | ⟨hvalue, hfirst⟩ | hresidue
            · exact absurd hnot hnone
            · refine Or.inr (Or.inl ⟨hvalue, hremovable, ?_⟩)
              exact hfirst.imp (congrArg some) (congrArg some)
            · rw [← hout, String.ofList_toList] at hresidue
              rw [residues_unknown _ hresidue] at hfound
              cases hfound
  | stuck gone token rest hsplit hgone hpass =>
      rw [hsplit] at hreverse
      obtain ⟨htoken, hrest⟩ := List.forall_mem_cons.mp fun other hother =>
        hreverse other (List.mem_append_right gone hother)
      obtain ⟨-, rfl, rfl, rfl⟩ := inBase_of_name hform htoken hrest hfound hout
      have hgoneTokens : ∀ other ∈ gone, other ∈ noiseTokens := fun other hother =>
        hreverse other (List.mem_append_left _ hother)
      have htokensEq : tokens = "inbase" :: gone.reverse := by
        rw [← List.reverse_reverse tokens, hsplit, List.reverse_append]
        rfl
      refine Or.inr (Or.inr ⟨rfl, gone.reverse, htokensEq, Or.inr ⟨?_, ?_⟩⟩)
      · rw [List.reverse_reverse]
        exact hgone
      · rw [← List.reverse_reverse gone, orderAfter_reverse] at hpass
        intro tried htried
        rw [endsWith_inbase tried (triedLater_subset _ htried)]
        exact hpass tried htried
  | broken rest =>
      obtain ⟨_, hsome⟩ := Option.isSome_iff_exists.mp hfound
      obtain ⟨entry, hentry, hmem⟩ := exists_name_of_aliasOf readsAscii_ascii hsome
      have hisin := (names_checked entry hentry _ hmem).2.2.1 (by
        rw [hout]
        exact List.suffix_append _ _)
      rw [hisin] at hout
      have hshort := congrArg List.length hout
      have hstem := length_appended form.toList rest
      rw [List.length_append] at hshort
      simp at hshort
      omega

/-- A name whose qualifiers are removed is found by what is left of it. -/
theorem found_of_kept (hform : aliasOf .ascii form = some field) (hlong : 3 ≤ form.toList.length)
    (htokens : ∀ token ∈ tokens, token ∈ noiseTokens)
    (h : name.toList = appended form.toList tokens.reverse)
    (hkept : Stripped form tokens ∨ InBase form tokens) :
    aliasOf .ascii name = some field ∨ aliasOf .ascii (stripNoise name) = some field := by
  have hstem : Stem form.toList := stem_of_aliasOf hform hlong
  have hpass : (stripNoise name).toList =
      cutTokens noiseTokens (appended form.toList tokens.reverse) := by
    rw [stripNoise_toList, h]
  rcases hkept with hstripped | ⟨rfl, hremovable, hfirst⟩ | ⟨rfl, rest, rfl, hrest⟩
  · rw [cutTokens_stripped hstem htokens hstripped] at hpass
    rw [String.toList_injective hpass]
    exact Or.inr hform
  · right
    rw [cutTokens_removable hstem htokens hremovable] at hpass
    have hvalue : stripNoise name = "marketvalue" := by
      apply String.toList_injective
      rw [hpass]
      cases tokens with
      | nil => rcases hfirst with hnil | hnil <;> cases hnil
      | cons first others =>
          rcases hfirst with hbase | hreporting
          · rw [triedLater, Option.some.inj hbase]
            decide
          · rw [triedLater, Option.some.inj hreporting]
            decide
    rw [hvalue, ← aliasOf_inBase, hform]
  · rw [← aliasOf_inBase] at hform
    have happended : appended "marketvalue".toList ("inbase" :: rest).reverse =
        appended "marketvalueinbase".toList rest.reverse := by
      rw [List.reverse_cons, appended_append]
      rfl
    rcases hrest with rfl | hstripped
    · have hname : name = "marketvalueinbase" := String.toList_injective (h.trans happended)
      rw [hname, hform]
      exact Or.inl rfl
    · have hlonger : Stem "marketvalueinbase".toList := stem_of_aliasOf hform (by decide)
      rw [happended, cutTokens_stripped hlonger
        (fun token htoken => htokens token (List.mem_cons_of_mem _ htoken)) hstripped] at hpass
      rw [String.toList_injective hpass]
      exact Or.inr hform

end Qualified

/-- Qualifiers behind an alias leave its field exactly when the pass removes them and
nothing else, up to the market value in base. -/
theorem aliasLookup_qualified_iff {runtime : Runtime} (hascii : ReadsAscii runtime)
    {known field : String} {tokens : List String} (hknown : aliasOf runtime known = some field)
    (hlong : 3 ≤ known.length) (hne : tokens ≠ [])
    (htokens : ∀ token ∈ tokens, token ∈ noiseTokens) :
    aliasLookup runtime (known ++ String.join tokens) = some field ↔
      Stripped (normalizeHeader runtime known) tokens ∨
        InBase (normalizeHeader runtime known) tokens := by
  have hsmall : ∀ c ∈ (known ++ String.join tokens).toList, c.toNat < 128 := by
    obtain ⟨entry, hentry, hmem⟩ := exists_name_of_aliasOf hascii hknown
    intro c hc
    rw [String.toList_append, String.toList_join, List.mem_append, List.mem_flatMap] at hc
    rcases hc with hc | ⟨token, htoken, hc⟩
    · exact ascii_of_all (names_checked entry hentry known hmem).1 c hc
    · exact ascii_of_all (noiseTokens_comparable token (htokens token htoken)).2 c hc
  have hsmallKnown : ∀ c ∈ known.toList, c.toNat < 128 := fun c hc =>
    hsmall c (by rw [String.toList_append]; exact List.mem_append_left _ hc)
  rw [hascii.aliasLookup_eq hsmall, hascii.normalizeHeader_eq hsmallKnown]
  rw [hascii.aliasOf_eq] at hknown
  obtain ⟨hform, hlength⟩ := aliasOf_normalizeHeader hknown hlong
  have hname := normalizeHeader_appended known htokens
  constructor
  · intro hlookup
    rcases Option.or_eq_some_iff.mp hlookup with hfound | ⟨-, hfound⟩
    · obtain ⟨-, hvalue, htokensEq⟩ := inBase_of_appended hform hne htokens hname hfound
      exact Or.inr (Or.inr ⟨hvalue, [], htokensEq, Or.inl rfl⟩)
    · exact kept_of_stripNoise hform hlength hne htokens hname (by rw [hfound]; rfl)
  · intro hkept
    apply Option.or_eq_some_iff.mpr
    rcases found_of_kept hform hlength htokens hname hkept with hfound | hfound
    · exact Or.inl hfound
    · cases hself : aliasOf .ascii (normalizeHeader .ascii (known ++ String.join tokens)) with
      | some found =>
          obtain ⟨hsame, -⟩ := inBase_of_appended hform hne htokens hname hself
          exact Or.inl (congrArg some hsame)
      | none => exact Or.inr ⟨rfl, hfound⟩

/-- Of a market value two qualifiers are removed in this order. -/
theorem aliasLookup_base_usd : aliasLookup .ascii ("market_value" ++ String.join ["base", "usd"]) =
    some "market_value" :=
  (aliasLookup_qualified_iff readsAscii_ascii (by decide) (by decide) (by decide) (by decide)).mpr
    (Or.inl (by decide))

/-- With the currency behind it an amount loses its own ending as well. -/
theorem aliasLookup_netamt_usd :
    ¬ ∀ (known field : String) (tokens : List String), aliasOf .ascii known = some field →
      3 ≤ known.length → tokens ≠ [] → (∀ token ∈ tokens, token ∈ noiseTokens) →
      aliasOf .ascii (known ++ String.join tokens) = none →
      aliasLookup .ascii (known ++ String.join tokens) = some field := by
  intro hcomplete
  have hamount := hcomplete "netamt" "net_amount" ["usd"] (by decide) (by decide) (by decide)
    (by decide) (by decide)
  exact absurd hamount (by decide +kernel)

/-- In the other order the last qualifier stays, and `inbase` loses only its end. -/
example : aliasLookup .ascii ("marketvalue" ++ String.join ["usd", "base"]) = none ∧
    aliasLookup .ascii ("price" ++ String.join ["inbase"]) = none := by
  decide +kernel

end Harbormaster.Inspector
