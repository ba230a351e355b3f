import Mathlib.Data.List.GetD
import Mathlib.Data.List.TakeWhile
import Udk.Hii.MergeFound

/-! # The merge is exact

One pass of the loop handles one alternative of the default string, and a merged string lacks none.
-/

namespace Udk.Hii.Merge

open Separated

/-! ## What is missing -/

theorem missing_sublist (hdr : Header) (has : EfiString → Bool) (rs : List Response) :
    (missing hdr has rs).Sublist rs := by
  induction rs generalizing has with
  | nil => exact List.Sublist.refl _
  | cons r rs ih =>
    unfold missing
    split
    · split
      · exact (ih _).cons _
      · exact (ih _).cons_cons _
    · exact (ih _).cons _

/-- The first response with an id is the one that is taken. -/
theorem missing_find (hdr : Header) (has : EfiString → Bool) (rs : List Response) (id : EfiString) :
    (missing hdr has rs).find? (fun r => r.alternative hdr = some id) =
      if has id then none else rs.find? fun r => r.alternative hdr = some id := by
  induction rs generalizing has with
  | nil => simp [missing]
  | cons r rs ih =>
    unfold missing
    rw [List.find?_cons]
    cases halt : r.alternative hdr with
    | none => simpa using ih has
    | some i =>
      simp only [Option.some.injEq]
      by_cases hhas : has i = true
      · rw [if_pos hhas, ih has]
        by_cases hi : i = id
        · rw [← hi, if_pos hhas, if_pos hhas]
        · simp [hi]
      · rw [if_neg hhas, List.find?_cons, halt, ih]
        by_cases hi : i = id
        · subst hi
          simp [hhas]
        · simp [hi, Ne.symm hi]

/-- No id is taken twice. -/
theorem missing_nodup (hdr : Header) (has : EfiString → Bool) (rs : List Response) :
    (missing hdr has rs).Pairwise fun r r' => r.alternative hdr ≠ r'.alternative hdr := by
  induction rs generalizing has with
  | nil => exact List.Pairwise.nil
  | cons r rs ih =>
    unfold missing
    split
    · rename_i i halt
      split
      · exact ih _
      · refine List.Pairwise.cons (fun r' hr' heq => ?_) (ih _)
        have hfind := missing_find hdr (fun j => j = i || has j) rs i
        rw [if_pos (by simp), List.find?_eq_none] at hfind
        exact hfind r' hr' (by rw [← heq, halt]; simp)
    · exact ih _

theorem missing_eq_nil {hdr : Header} {has : EfiString → Bool} {rs : List Response}
    (h : ∀ r ∈ rs, ∀ id, r.alternative hdr = some id → has id = true) : missing hdr has rs = [] := by
  induction rs with
  | nil => rfl
  | cons r rs ih =>
    obtain ⟨hr, hrs⟩ := List.forall_mem_cons.mp h
    unfold missing
    split
    · rename_i id halt
      rw [if_pos (hr id halt), ih hrs]
    · exact ih hrs

/-! ## Cuts -/

theorem cString_eq {s : EfiString} (h : 0 ∉ s) : cString s = s :=
  List.takeWhile_eq_self_iff.mpr fun _ hc => decide_eq_true fun heq => h (heq ▸ hc)

theorem drop_start {start s : EfiString} (h : 0 ∉ s) : cString ((start ++ s).drop start.length) = s := by
  rw [List.drop_left, cString_eq h]

theorem drop_tail {start s : EfiString} (h : 0 ∉ s) :
    cString ((start ++ s).drop (start.length + 1)) = s.tail := by
  rw [← List.drop_drop, List.drop_left, List.drop_one, cString_eq fun hin => h (List.mem_of_mem_tail hin)]

/-- The string ends where it is cut. -/
theorem drop_cut {start s t : EfiString} (h : 0 ∉ s) (hne : t ≠ []) :
    cString (((start ++ (s ++ t)).set (start.length + s.length) 0).drop start.length) = s := by
  obtain ⟨c, t, rfl⟩ := List.exists_cons_of_ne_nil hne
  rw [← List.append_assoc, ← List.length_append, List.set_append_right _ _ (Nat.le_refl _), Nat.sub_self,
    List.set_cons_zero, List.append_assoc, List.drop_left, cString, List.takeWhile_append_of_pos, List.takeWhile_cons]
  · simp
  · exact fun c hc => decide_eq_true fun heq => h (heq ▸ hc)

theorem restore_cut (s : EfiString) (i : Nat) : (s.set i 0).set i (s.getD i 0) = s := by
  rw [List.set_set]
  by_cases hi : i < s.length
  · rw [List.getD_eq_getElem _ _ hi, List.set_getElem_self]
  · exact List.set_eq_of_length_le (Nat.le_of_not_lt hi)

/-! ## One alternative -/

theorem rest_ne_nil (r : Response) (rs : List Response) : rest (r :: rs) ≠ [] := List.cons_ne_nil _ _

theorem rest_one (r : Response) (rs : List Response) : rest (r :: rs) = rest [r] ++ rest rs := rest_append [r] rs

theorem pattern_append (hdr : Header) (id : EfiString) : pattern hdr (altItem []) ++ id = pattern hdr (altItem id) := by
  unfold pattern
  rw [joined_append, joined_append, joined_cons, joined_cons, joined_nil, List.append_nil, List.append_nil,
    List.append_assoc, altItem, List.append_nil]
  rfl

/-- The id behind the pattern. -/
theorem name_found {hdr : Header} {r : Response} {id : EfiString} {rs : List Response}
    (halt : r.alternative hdr = some id) (hlen : id.length = 4) :
    ((rest (r :: rs)).drop (pattern hdr (altItem [])).length).take 4 = id := by
  obtain ⟨hheader, hcfg⟩ := alternative_some halt
  have hitems : r.items = hdr.items ++ [altItem id] ++ r.elements := by
    unfold Response.items
    rw [hheader, hcfg, List.append_assoc]
    rfl
  have hrest : rest (r :: rs) = pattern hdr (altItem []) ++ (id ++ (joined amp r.elements ++ rest rs)) := by
    rw [rest_one, ← List.append_assoc _ id, pattern_append, pattern, ← List.append_assoc, ← joined_append, ← hitems]
    simp [rest]
  rw [hrest, List.drop_left, ← hlen, List.take_left]

theorem strStr_eq_none {hdr : Header} {s id : EfiString} :
    strStr s (pattern hdr (altItem []) ++ id) = none ↔ ¬Has hdr s id := by
  rw [pattern_append]
  exact search_eq_none

/-- The search for the next alternative, and the passes from it on. -/
def mergeFrom (allocates : Nat → Bool) (hdr : Header) (fuel n : Nat) (altCfgResp defaultAltCfgResp following : EfiString) :
    Option (EfiStatus × Option EfiString × EfiString) :=
  match strStr following (pattern hdr (altItem [])) with
  | some found =>
    mergeLoop allocates (pattern hdr (altItem [])) fuel n altCfgResp defaultAltCfgResp
      (defaultAltCfgResp.length - found.length)
  | none => some (.success, some altCfgResp, defaultAltCfgResp)

/-- What a pass does with an alternative. -/
theorem mergeLoop_alternative {allocates : Nat → Bool} {hdr : Header} {fuel n : Nat} {alt start id : EfiString}
    {r : Response} {rs : List Response} (hr : r.WellFormed) (hrs : ∀ r ∈ rs, r.WellFormed)
    (halt : r.alternative hdr = some id) (hd : ¬Has hdr alt id → r.Delimited) :
    mergeLoop allocates (pattern hdr (altItem [])) (fuel + 1) n alt (start ++ rest (r :: rs)) start.length =
      if Has hdr alt id then mergeFrom allocates hdr fuel n alt (start ++ rest (r :: rs)) (rest (r :: rs)).tail
      else if rs = [] then
        if ¬allocates n then some (.outOfResources, none, start ++ rest [r])
        else some (.success, some (alt ++ rest [r]), start ++ rest [r])
      else if ¬allocates n then
        some (.outOfResources, none, (start ++ rest (r :: rs)).set (start.length + (rest [r]).length) 0)
      else mergeFrom allocates hdr fuel (n + 1) (alt ++ rest [r]) (start ++ rest (r :: rs)) (rest (r :: rs)).tail := by
  have htext : 0 ∉ rest (r :: rs) := rest_text (List.forall_mem_cons.mpr ⟨hr, hrs⟩)
  have hone : 0 ∉ rest [r] := rest_text (by simpa using hr)
  unfold mergeLoop
  simp only [drop_start htext, drop_tail htext, name_found halt (hr.alternative halt).2]
  by_cases hhas : Has hdr alt id
  · cases hfound : strStr alt (pattern hdr (altItem []) ++ id) with
    | none => exact absurd hhas (strStr_eq_none.mp hfound)
    | some t => exact (if_pos hhas).symm
  · rw [strStr_eq_none.mpr hhas, if_neg hhas]
    simp only [strStr, search_guid rs hr (hd hhas)]
    by_cases hnil : rs = []
    · subst hnil
      rfl
    · obtain ⟨r', rs', hcons⟩ := List.exists_cons_of_ne_nil hnil
      have hne : rest rs ≠ [] := hcons ▸ rest_ne_nil r' rs'
      have hindex : (start ++ rest (r :: rs)).length - (rest rs).length = start.length + (rest [r]).length := by
        rw [rest_one, List.length_append, List.length_append]
        omega
      simp only [hnil, if_false, hindex, restore_cut, drop_tail htext]
      simp only [rest_one r rs, drop_cut hone hne]
      rfl

/-! ## All alternatives -/

theorem mergeLoop_spec (allocates : Nat → Bool) {hdr : Header} (fuel n : Nat) (alt start : EfiString)
    {rs : List Response} (hhdr : hdr.WellFormed) (hrs : ∀ r ∈ rs, r.WellFormed)
    (hd : ∀ r ∈ missing hdr (Has hdr alt ·) rs, r.Delimited) (hfuel : rs.length ≤ fuel) :
    ∃ status merged default,
      mergeFrom allocates hdr fuel n alt (start ++ rest rs) (rest rs) = some (status, merged, default) ∧
        (status = .success → merged = some (alt ++ rest (missing hdr (Has hdr alt ·) rs)) ∧ default = start ++ rest rs) := by
  -- by induction on the responses that are still to be merged
  induction rs generalizing fuel n alt start with
  | nil => exact ⟨.success, some alt, start, by simp [mergeFrom, rest, strStr, pattern, search, Header.items],
    by simp [missing, rest]⟩
  | cons r rs ih =>
    obtain ⟨hr, hrs'⟩ := List.forall_mem_cons.mp hrs
    have hstart : start ++ rest (r :: rs) = start ++ rest [r] ++ rest rs := by
      rw [rest_one, List.append_assoc]
    have htail : ∀ fuel n alt, mergeFrom allocates hdr fuel n alt (start ++ rest (r :: rs)) (rest (r :: rs)).tail =
        mergeFrom allocates hdr fuel n alt (start ++ rest [r] ++ rest rs) (rest rs) := by
      intro fuel n alt
      obtain ⟨u, hu, hguid⟩ := pattern_cons hdr (altItem [])
      unfold mergeFrom
      rw [strStr, hu, search_tail rs hguid hr, ← hu, hstart]
      rfl
    rw [missing] at hd
    cases halt : r.alternative hdr with
    | none =>
      rw [halt] at hd
      obtain ⟨status, merged, default, heq, hsuccess⟩ := ih fuel n alt (start ++ rest [r]) hrs' hd
        (Nat.le_of_succ_le hfuel)
      refine ⟨status, merged, default, ?_, fun h => ?_⟩
      · rw [← heq, ← htail]
        unfold mergeFrom
        obtain ⟨u, hu, hguid⟩ := pattern_cons hdr (altItem [])
        rw [strStr, strStr, search_alternative hhdr hr hrs', halt, hu, search_tail rs hguid hr]
        rfl
      · rw [hstart, missing, halt]
        exact hsuccess h
    | some id =>
      obtain ⟨fuel, rfl⟩ : ∃ k, fuel = k + 1 := ⟨fuel - 1, by simp at hfuel; omega⟩
      have hfuel : rs.length ≤ fuel := by simpa using hfuel
      have hfound : mergeFrom allocates hdr (fuel + 1) n alt (start ++ rest (r :: rs)) (rest (r :: rs)) =
          mergeLoop allocates (pattern hdr (altItem [])) (fuel + 1) n alt (start ++ rest (r :: rs)) start.length := by
        unfold mergeFrom
        rw [strStr, search_alternative hhdr hr hrs', halt]
        simp
      simp only [halt] at hd
      by_cases hhas : Has hdr alt id
      · rw [hfound, mergeLoop_alternative hr hrs' halt fun h => absurd hhas h, missing, halt]
        simp only [hhas, decide_true, if_true] at hd ⊢
        rw [htail, hstart]
        exact ih _ _ _ _ hrs' hd hfuel
      · simp only [hhas, decide_false, Bool.false_eq_true, if_false, List.forall_mem_cons] at hd
        rw [hfound, mergeLoop_alternative hr hrs' halt fun _ => hd.1, missing, halt]
        simp only [hhas, decide_false, Bool.false_eq_true, if_false]
        by_cases hnil : rs = []
        · subst hnil
          cases hallocates : allocates n with
          | false => exact ⟨.outOfResources, none, start ++ rest [r], by simp, by simp⟩
          | true => exact ⟨.success, some (alt ++ rest [r]), start ++ rest [r], by simp, by simp [missing]⟩
        · simp only [hnil, if_false]
          cases hallocates : allocates n with
          | false => exact ⟨.outOfResources, none, _, rfl, fun h => by cases h⟩
          | true =>
            simp only [not_true, if_false]
            rw [htail, hstart]
            have hmissing : missing hdr (fun i => i = id || decide (Has hdr alt i)) rs =
                missing hdr (Has hdr (alt ++ rest [r]) ·) rs :=
              missing_congr hrs' fun i hi hlen => by
                rw [← Bool.decide_or]
                exact decide_eq_decide.mpr (has_append hhdr hr halt hi hlen).symm
            obtain ⟨status, merged, default, heq, hsuccess⟩ := ih fuel (n + 1) (alt ++ rest [r])
              (start ++ rest [r]) hrs' (hmissing ▸ hd.2) hfuel
            refine ⟨status, merged, default, heq, fun h => ?_⟩
            rw [hmissing, rest_one r (missing _ _ _), ← List.append_assoc]
            exact hsuccess h

/-! ## The header -/

theorem Header.text_eq (hdr : Header) : hdr.text = wide ['G', 'U', 'I', 'D', '='] ++ hdr.guid ++
    (amp :: (wide ['N', 'A', 'M', 'E', '='] ++ hdr.name ++ (amp :: (wide ['P', 'A', 'T', 'H', '='] ++ hdr.path)))) := by
  unfold Header.text
  rw [Header.items, joined_cons, joined_cons, joined_cons, joined_nil, List.append_nil, List.tail_cons]

theorem dropWhile_path {path suffix : EfiString} (hpath : Plain amp path) (hsuffix : Follows amp suffix) :
    (path ++ suffix).dropWhile (· ≠ char '&') = suffix := by
  rw [List.dropWhile_append_of_pos]
  · rcases hsuffix with rfl | ⟨t, rfl⟩
    · rfl
    · exact List.dropWhile_cons_of_neg (by simp [amp])
  · exact fun c hc => decide_eq_true fun heq => hpath ((show c = amp from heq) ▸ hc)

/-- The header is everything up to the end of the path. -/
theorem configHdr_text {hdr : Header} {suffix : EfiString} (hhdr : hdr.WellFormed) (hsuffix : Follows amp suffix) :
    configHdr (hdr.text ++ suffix) = some hdr.text := by
  have hguid : Plain amp (wide ['G', 'U', 'I', 'D', '='] ++ hdr.guid) := (text_wide (by decide) hhdr.guid).1
  have hname : Plain amp (wide ['N', 'A', 'M', 'E', '='] ++ hdr.name) := (text_wide (by decide) hhdr.name).1
  have hpath : skipTo (wide ['&', 'P', 'A', 'T', 'H', '='])
      (amp :: (wide ['N', 'A', 'M', 'E', '='] ++ hdr.name ++ (amp :: (wide ['P', 'A', 'T', 'H', '='] ++ hdr.path))) ++
        suffix) = amp :: (wide ['P', 'A', 'T', 'H', '='] ++ hdr.path) ++ suffix := by
    unfold skipTo strStr
    rw [List.cons_append, search, if_neg,
      show wide ['&', 'P', 'A', 'T', 'H', '='] = amp :: wide ['P', 'A', 'T', 'H', '='] from rfl,
      List.append_assoc, search_skip hname, List.cons_append, search, if_pos, Option.getD_some]
    · exact List.isPrefixOf_iff_prefix.mpr (List.cons_prefix_cons.mpr ⟨rfl, by
        rw [List.append_assoc]
        exact List.prefix_append _ _⟩)
    · intro h
      have h := (List.cons_prefix_cons.mp (List.isPrefixOf_iff_prefix.mp h)).2
      exact absurd (List.cons_prefix_cons.mp h).1 (by decide)
  have hskip : skipTo (wide ['&', 'N', 'A', 'M', 'E', '=']) (hdr.text ++ suffix) =
      amp :: (wide ['N', 'A', 'M', 'E', '='] ++ hdr.name ++ (amp :: (wide ['P', 'A', 'T', 'H', '='] ++ hdr.path))) ++
        suffix := by
    unfold skipTo strStr
    rw [Header.text_eq, show wide ['&', 'N', 'A', 'M', 'E', '='] = amp :: wide ['N', 'A', 'M', 'E', '='] from rfl,
      List.append_assoc, search_skip hguid, List.cons_append, search, if_pos, Option.getD_some]
    exact List.isPrefixOf_iff_prefix.mpr (List.cons_prefix_cons.mpr ⟨rfl, by
      rw [List.append_assoc, List.append_assoc]
      exact List.prefix_append _ _⟩)
  have hstart : (wide ['G', 'U', 'I', 'D', '=']).isPrefixOf (hdr.text ++ suffix) = true :=
    List.isPrefixOf_iff_prefix.mpr (by
      rw [Header.text_eq, List.append_assoc, List.append_assoc]
      exact List.prefix_append _ _)
  unfold configHdr
  simp only [hstart, not_true, if_false, hskip, hpath]
  rw [if_neg (by simp)]
  have hdrop : (amp :: (wide ['P', 'A', 'T', 'H', '='] ++ hdr.path) ++ suffix).drop 6 = hdr.path ++ suffix := rfl
  rw [hdrop, dropWhile_path hhdr.path.1 hsuffix, before, List.length_append, Nat.add_sub_cancel, List.take_left]

/-! ## The merge -/

theorem altConfigHdr_eq (hdr : Header) :
    char '&' :: hdr.text ++ wide ['&', 'A', 'L', 'T', 'C', 'F', 'G', '='] = pattern hdr (altItem []) := by
  unfold pattern
  rw [joined_append]
  rfl

theorem rest_length (rs : List Response) : rs.length ≤ (rest rs).length := by
  induction rs with
  | nil => exact Nat.zero_le _
  | cons r rs ih =>
    rw [rest_one, List.length_append, List.length_cons]
    have : 0 < (rest [r]).length := Nat.succ_pos _
    omega

/-- Once the first response is gone past, the default string is merged. -/
theorem mergeDefaultString_spec (allocates : Nat → Bool) {hdr : Header} {suffix : EfiString} {rs : List Response}
    (hhdr : hdr.WellFormed) (hsuffix : Follows amp suffix) (hrs : ∀ r ∈ rs, r.WellFormed)
    (hd : ∀ r ∈ missing hdr (Has hdr (hdr.text ++ suffix) ·) rs.tail, r.Delimited) :
    ∃ status merged default,
      mergeDefaultString allocates (some (hdr.text ++ suffix)) (text rs) = some (status, merged, default) ∧
        (status = .success → merged = some (hdr.text ++ suffix ++
          rest (missing hdr (Has hdr (hdr.text ++ suffix) ·) rs.tail)) ∧ default = text rs) := by
  obtain ⟨start, hstart, hfirst⟩ : ∃ start, text rs = start ++ rest rs.tail ∧
      strStr (text rs) (pattern hdr (altItem [])) = strStr (rest rs.tail) (pattern hdr (altItem [])) := by
    cases rs with
    | nil => exact ⟨[], rfl, rfl⟩
    | cons r rs =>
      obtain ⟨u, hu, hguid⟩ := pattern_cons hdr (altItem [])
      refine ⟨(rest [r]).tail, ?_, ?_⟩
      · unfold text
        rw [rest_one]
        rfl
      · rw [hu]
        exact search_tail rs hguid (hrs r List.mem_cons_self)
  unfold mergeDefaultString
  simp only [configHdr_text hhdr hsuffix, altConfigHdr_eq]
  cases hallocates : allocates 0 with
  | false => exact ⟨.outOfResources, _, _, rfl, nofun⟩
  | true =>
    simp only [not_true, if_false, hfirst]
    rw [hstart]
    have hfuel : rs.tail.length ≤ (start ++ rest rs.tail).length + 1 := by
      have := rest_length rs.tail
      rw [List.length_append]
      omega
    obtain ⟨status, merged, default, heq, hsuccess⟩ := mergeLoop_spec allocates _ 1
      (hdr.text ++ suffix) start hhdr (fun r hr => hrs r (List.mem_of_mem_tail hr)) hd hfuel
    refine ⟨status, merged, default, ?_, hsuccess⟩
    rw [← heq, mergeFrom]
    cases strStr (rest rs.tail) (pattern hdr (altItem [])) with
    | none => rfl
    | some found => rfl

/-- What is merged is what the string does not have behind a separator, each id once, and merging again does nothing. -/
theorem merged_exactly {hdr : Header} {suffix : EfiString} {rs : List Response} (hhdr : hdr.WellFormed)
    (hsuffix : Follows amp suffix) (hrs : ∀ r ∈ rs, r.WellFormed)
    (hd : ∀ r ∈ missing hdr (Has hdr (hdr.text ++ suffix) ·) rs.tail, r.Delimited) (allocates : Nat → Bool) :
    ∃ status merged default,
      mergeDefaultString allocates (some (hdr.text ++ suffix)) (text rs) = some (status, merged, default) ∧
        (status = .success →
          merged = some (hdr.text ++ suffix ++ rest (missing hdr (Has hdr (hdr.text ++ suffix) ·) rs.tail)) ∧
          default = text rs ∧
          ∀ again merged' default', mergeDefaultString again merged default = some (.success, merged', default') →
            merged' = merged ∧ default' = default) := by
  obtain ⟨status, merged, default, heq, hsuccess⟩ := mergeDefaultString_spec allocates hhdr hsuffix hrs hd
  refine ⟨status, merged, default, heq, fun h => ?_⟩
  obtain ⟨rfl, rfl⟩ := hsuccess h
  refine ⟨rfl, rfl, fun again merged' default' hagain => ?_⟩
  obtain ⟨taken, htaken⟩ : ∃ taken, taken = missing hdr (Has hdr (hdr.text ++ suffix) ·) rs.tail := ⟨_, rfl⟩
  have hfollows : Follows amp (suffix ++ rest taken) := by
    rcases hsuffix with rfl | ⟨t, rfl⟩
    · exact follows_joined _
    · exact .inr ⟨_, rfl⟩
  have hwf : ∀ r ∈ rs.tail, r.WellFormed := fun r hr => hrs r (List.mem_of_mem_tail hr)
  -- whatever is an alternative now is there
  have hnone : missing hdr (Has hdr (hdr.text ++ (suffix ++ rest taken)) ·) rs.tail = [] := by
    refine missing_eq_nil fun r hr id hid => decide_eq_true ?_
    obtain ⟨hid', hlen⟩ := (hwf r hr).alternative hid
    rw [← List.append_assoc]
    by_cases hhas : Has hdr (hdr.text ++ suffix) id
    · exact hhas.trans (List.prefix_append _ _).isInfix
    · have hfind := missing_find hdr (Has hdr (hdr.text ++ suffix) ·) rs.tail id
      rw [if_neg (by simpa using hhas), ← htaken] at hfind
      obtain ⟨r', hr'⟩ : ∃ r', rs.tail.find? (fun r => r.alternative hdr = some id) = some r' :=
        Option.isSome_iff_exists.mp (List.find?_isSome.mpr ⟨r, hr, by simpa using hid⟩)
      rw [hr'] at hfind
      have hin := List.mem_of_find?_eq_some hfind
      have htakenwf : ∀ r ∈ taken, r.WellFormed := fun r hr =>
        hwf r ((missing_sublist hdr _ _).subset (htaken ▸ hr))
      refine List.IsInfix.trans ?_ (List.suffix_append _ _).isInfix
      exact (has_rest hhdr hid' hlen htakenwf).mpr ⟨r', hin, by simpa using List.find?_some hfind⟩
  obtain ⟨status', merged₂, default₂, heq', hsuccess'⟩ :=
    mergeDefaultString_spec again hhdr hfollows hrs fun r hr => by simp [hnone] at hr
  rw [← htaken, List.append_assoc, heq'] at hagain
  obtain ⟨rfl, rfl, rfl⟩ : status' = _ ∧ merged₂ = _ ∧ default₂ = _ := by simpa using hagain
  obtain ⟨rfl, rfl⟩ := hsuccess' rfl
  rw [hnone, ← htaken, List.append_assoc]
  simp [rest]

/-! ## Samples -/

def sampleHeader : Header := ⟨wide ['0', '1'], wide ['6', '1'], wide ['f', 'f']⟩

def sampleResponse (id : Option EfiString) : Response := ⟨sampleHeader, id, [wide ['O', 'F', 'F', 'S', 'E', 'T', '=', '0']]⟩

theorem sampleResponse_wellFormed {id : Option EfiString} (h : ∀ i ∈ id, Text i ∧ i.length = 4) :
    (sampleResponse id).WellFormed := by
  have hheader : sampleHeader.WellFormed := ⟨by decide, by decide, by decide⟩
  refine ⟨hheader, h, fun e he => ?_⟩
  obtain rfl := List.mem_singleton.mp he
  decide

theorem sampleResponse_delimited (id : Option EfiString) : (sampleResponse id).Delimited := by
  intro e he
  obtain rfl := List.mem_singleton.mp he
  decide

def sampleDefaults : List Response :=
  [sampleResponse none, sampleResponse (some (wide ['0', '0', '0', '1'])), sampleResponse (some (wide ['0', '0', '0', '2'])),
    sampleResponse (some (wide ['0', '0', '0', '1']))]

theorem sampleDefaults_wellFormed : ∀ r ∈ sampleDefaults, r.WellFormed := by
  intro r hr
  simp only [sampleDefaults, List.mem_cons, List.not_mem_nil, or_false] at hr
  rcases hr with rfl | rfl | rfl | rfl
  · exact sampleResponse_wellFormed nofun
  · exact sampleResponse_wellFormed fun i hi => Option.some.inj hi ▸ by decide
  · exact sampleResponse_wellFormed fun i hi => Option.some.inj hi ▸ by decide
  · exact sampleResponse_wellFormed fun i hi => Option.some.inj hi ▸ by decide

theorem merged_exactly_sample :
    ∃ status merged default,
      mergeDefaultString (fun _ => true) (some (sampleHeader.text ++ [])) (text sampleDefaults) =
        some (status, merged, default) ∧
        (status = .success →
          merged = some (sampleHeader.text ++ [] ++
            rest (missing sampleHeader (Has sampleHeader (sampleHeader.text ++ []) ·) sampleDefaults.tail)) ∧
          default = text sampleDefaults ∧
          ∀ again merged' default', mergeDefaultString again merged default = some (.success, merged', default') →
            merged' = merged ∧ default' = default) := by
  refine merged_exactly ⟨by decide, by decide, by decide⟩ (.inl rfl) sampleDefaults_wellFormed (fun r hr => ?_) _
  have hin := (missing_sublist sampleHeader _ _).subset hr
  simp only [sampleDefaults, List.tail_cons, List.mem_cons, List.not_mem_nil, or_false] at hin
  rcases hin with rfl | rfl | rfl
  all_goals exact sampleResponse_delimited _

/-- A string that starts with an alternative has it, and it is appended. -/
theorem first_alternative_merged :
    mergeDefaultString (fun _ => true) (some (text [sampleResponse (some (wide ['0', '0', '0', '1']))]))
        (text [sampleResponse none, sampleResponse (some (wide ['0', '0', '0', '1']))]) =
      some (.success, some (text [sampleResponse (some (wide ['0', '0', '0', '1'])),
          sampleResponse (some (wide ['0', '0', '0', '1']))]),
        text [sampleResponse none, sampleResponse (some (wide ['0', '0', '0', '1']))]) := by
  decide +kernel

end Udk.Hii.Merge
