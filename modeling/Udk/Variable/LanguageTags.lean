import Udk.Variable.Language
import Mathlib.Data.Nat.Find

/-! # Supported languages as lists of codes -/

namespace Udk.Variable.LanguageTags

/-! ## Codes between semicolons -/

/-- The language codes of an RFC 4646 list. -/
def entries (supported : List UInt8) : List (List UInt8) := (supported.splitOn semicolon).filter fun e => !e.isEmpty

/-- `p` is the whole tag, or the tag goes on behind it with a `-`. -/
def MatchesAt (p tag : List UInt8) : Prop := tag = p ∨ p ++ [hyphen] <+: tag

/-- `p` is the tag, cut at a `-` or whole. -/
def Cut (tag p : List UInt8) : Prop := p ≠ [] ∧ MatchesAt p tag

/-- The codes of an ISO 639 list. -/
def triples : List UInt8 → List (List UInt8)
  | a :: b :: c :: t => [a, b, c] :: triples t
  | _ => []

def codes (iso639Language : Bool) (supported : List UInt8) : List (List UInt8) :=
  if iso639Language then triples supported else entries supported

/-- The first RFC 4646 code of the requested language. -/
def requestedTag (language : List UInt8) : List UInt8 := (cString language).take (codeLength (cString language))

/-- Some code of the list begins with `p`, as characters. -/
def Begun (supported p : List UInt8) : Prop := ∃ e ∈ entries supported, p <+: e

/-- Some code of the list is `p` or goes on behind it with a `-`. -/
def Matched (supported p : List UInt8) : Prop := ∃ e ∈ entries supported, MatchesAt p e

/-- The longest cut of the tag of which `S` holds. -/
structure Longest (tag : List UInt8) (S : List UInt8 → Prop) (p : List UInt8) : Prop where
  cut : Cut tag p
  holds : S p
  longest : ∀ q, Cut tag q → S q → q.length ≤ p.length

/-- The code is an entry of the list and matches the longest cut of the tag that an entry matches. -/
def FollowsTags (supported tag code : List UInt8) : Prop :=
  code ∈ entries supported ∧ ∃ p, Longest tag (Matched supported) p ∧ MatchesAt p code

/-- The code is found in the list, and what is found at its index is the code. -/
structure ReturnsAgain (iso639Language : Bool) (supportedLang code : List UInt8) : Prop where
  found : (codes iso639Language (cString supportedLang))[getIndexFromSupportedLangCodes supportedLang code
    iso639Language]? = some code
  again : getLangFromSupportedLangCodes supportedLang (getIndexFromSupportedLangCodes supportedLang code
    iso639Language) iso639Language = some code

/-- Some cut of the tag is matched, and the first code that begins with the longest cut that any code begins
with matches it too, if one does. -/
def TagsDecide (supported tag : List UInt8) : Prop :=
  (∃ p, Cut tag p ∧ Matched supported p) ∧
  ∀ p, Longest tag (Begun supported) p → Matched supported p →
    ∀ e, (entries supported).find? (fun e => p.isPrefixOf e) = some e → MatchesAt p e

section
variable {t tag p q code : List UInt8}

theorem entries_cons_semicolon (t : List UInt8) : entries (semicolon :: t) = entries t := by
  rw [entries, List.splitOn_eq_splitOnP, List.splitOnP_cons_eq_if_modifyHead]
  rfl

theorem entries_skip (t : List UInt8) : entries (skipSemicolons t) = entries t := by
  induction t with
  | nil => rfl
  | cons c t ih =>
    rw [skipSemicolons, List.dropWhile_cons]
    split
    · rename_i hc
      rw [beq_iff_eq.mp hc, entries_cons_semicolon]
      exact ih
    · rfl

theorem skip_length (t : List UInt8) : (skipSemicolons t).length ≤ t.length := (List.dropWhile_sublist _).length_le

theorem skip_head (t : List UInt8) : (skipSemicolons t).head? ≠ some semicolon := by
  intro h
  have := List.head?_dropWhile_not (· == semicolon) t
  rw [skipSemicolons] at h
  rw [h] at this
  simp at this

theorem take_codeLength (t : List UInt8) : t.take (codeLength t) = t.takeWhile (· != semicolon) := by
  conv_lhs => arg 2; rw [← List.takeWhile_append_dropWhile (p := (· != semicolon)) (l := t)]
  exact List.take_left

theorem drop_codeLength (t : List UInt8) : t.drop (codeLength t) = t.dropWhile (· != semicolon) := by
  conv_lhs => arg 2; rw [← List.takeWhile_append_dropWhile (p := (· != semicolon)) (l := t)]
  exact List.drop_left

theorem codeLength_le (t : List UInt8) : codeLength t ≤ t.length := (List.takeWhile_sublist _).length_le

/-- The first code of a list that does not start with a semicolon. -/
theorem entries_code (hne : t ≠ []) (hhead : t.head? ≠ some semicolon) :
    entries t = t.take (codeLength t) :: entries (t.drop (codeLength t)) ∧ 0 < codeLength t := by
  obtain ⟨c, t, rfl⟩ := List.exists_cons_of_ne_nil hne
  have hc : (c != semicolon) = true := by simpa using hhead
  have hpos : 0 < codeLength (c :: t) := by
    rw [codeLength, List.takeWhile_cons, if_pos hc]
    exact Nat.succ_pos _
  refine ⟨?_, hpos⟩
  rw [take_codeLength, drop_codeLength]
  generalize hcode : (c :: t).takeWhile (· != semicolon) = code
  have hcodene : code ≠ [] := by
    rw [← hcode, List.takeWhile_cons, if_pos hc]
    exact List.cons_ne_nil _ _
  have hnone : ∀ x ∈ code, (x == semicolon) = false := by
    intro x hx
    rw [← hcode] at hx
    have := List.all_takeWhile (p := (· != semicolon)) (l := c :: t)
    simpa using List.all_eq_true.mp this x hx
  conv_lhs => arg 1; rw [← List.takeWhile_append_dropWhile (p := (· != semicolon)) (l := c :: t)]
  rw [hcode]
  have hkeep : ([code] : List (List UInt8)).filter (fun e => !e.isEmpty) = [code] := by
    simp [hcodene]
  cases hrest : (c :: t).dropWhile (· != semicolon) with
  | nil =>
    rw [List.append_nil, entries, List.splitOn_eq_splitOnP, List.splitOnP_eq_singleton hnone, hkeep]
    rfl
  | cons d rest =>
    have hd : d = semicolon := by
      have := List.head?_dropWhile_not (· != semicolon) (c :: t)
      rw [hrest] at this
      simpa using this
    subst hd
    rw [entries_cons_semicolon, entries, List.splitOn_eq_splitOnP,
      List.splitOnP_append_cons_of_forall_mem hnone _ (by rfl), List.filter_cons]
    rw [if_pos (by simpa using hcodene), entries, List.splitOn_eq_splitOnP]

/-- One turn of the loops that skip semicolons and take the next code. -/
theorem entries_turn (t : List UInt8) : (skipSemicolons t = [] ∧ entries t = []) ∨
    (entries t = (skipSemicolons t).take (codeLength (skipSemicolons t)) ::
        entries ((skipSemicolons t).drop (codeLength (skipSemicolons t))) ∧
      0 < codeLength (skipSemicolons t) ∧
      ((skipSemicolons t).drop (codeLength (skipSemicolons t))).length < t.length) := by
  by_cases hne : skipSemicolons t = []
  · refine .inl ⟨hne, ?_⟩
    rw [← entries_skip, hne]
    rfl
  · obtain ⟨hentries, hpos⟩ := entries_code hne (skip_head t)
    have hle := skip_length t
    have := List.length_pos_of_ne_nil hne
    refine .inr ⟨by rw [← hentries, entries_skip], hpos, ?_⟩
    rw [List.length_drop]
    omega

theorem take_codeLength_length (t : List UInt8) : (t.take (codeLength t)).length = codeLength t :=
  List.length_take_of_le (codeLength_le t)

/-! ## The loops over the codes -/

theorem matchSupported_nil (iso639Language : Bool) (language : List UInt8) (n fuel : Nat) :
    matchSupported iso639Language language n fuel [] = none := by
  cases fuel with
  | zero => rfl
  | succ fuel => rfl

/-- The comparison of the first `n` characters, where the code has as many. -/
theorem asciiStrnEq_iff {language s : List UInt8} {n m : Nat} (hn : n ≤ m) (hl : n ≤ language.length) :
    asciiStrnEq s language n = (language.take n).isPrefixOf (s.take m) := by
  rw [Bool.eq_iff_iff, asciiStrnEq, beq_iff_eq, List.isPrefixOf_iff_prefix, List.prefix_iff_eq_take,
    List.length_take_of_le hl, List.take_take, Nat.min_eq_left hn]
  exact eq_comm

/-- The first code that begins with the first `n` characters of the language. -/
theorem matchSupported_eq {language : List UInt8} {n : Nat} (hn : 0 < n) (hl : n ≤ language.length) (fuel : Nat)
    (t : List UInt8) (hfuel : t.length < fuel) :
    matchSupported false language n fuel t = (entries t).find? fun e => (language.take n).isPrefixOf e := by
  induction fuel generalizing t with
  | zero => omega
  | succ fuel ih =>
    rw [matchSupported]
    split
    · rename_i hnil
      rw [hnil]
      rfl
    · simp only [Bool.false_eq_true, if_false, Bool.not_false, Bool.true_and, decide_eq_true_eq]
      rcases entries_turn t with ⟨hnil, hentries⟩ | ⟨hentries, hpos, hlt⟩
      · rw [hnil, hentries, if_pos (show codeLength [] < n from hn)]
        exact matchSupported_nil false language n fuel
      · rw [hentries, List.find?_cons]
        have hcode := codeLength_le (skipSemicolons t)
        split
        · rename_i hshort
          have hnot : (language.take n).isPrefixOf ((skipSemicolons t).take (codeLength (skipSemicolons t))) = false := by
            rw [← Bool.not_eq_true, List.isPrefixOf_iff_prefix]
            intro hstarts
            have := hstarts.length_le
            rw [List.length_take_of_le hl, take_codeLength_length] at this
            omega
          rw [hnot]
          exact ih _ (by omega)
        · rename_i hlong
          rw [asciiStrnEq_iff (Nat.le_of_not_lt hlong) hl]
          split
          · rename_i h
            rw [h]
          · rename_i h
            rw [Bool.not_eq_true] at h
            rw [h]
            exact ih _ (by omega)

/-- The index of the first code that is the language. -/
theorem indexOfCode_eq {lang : List UInt8} (fuel : Nat) (t : List UInt8) (index : Nat)
    (hfuel : t.length < fuel) (hmem : lang ∈ entries t) :
    indexOfCode false lang fuel t index = index + (entries t).idxOf lang := by
  induction fuel generalizing t index with
  | zero => omega
  | succ fuel ih =>
    rw [indexOfCode]
    split
    · rename_i hnil
      rw [hnil] at hmem
      cases hmem
    · simp only [Bool.false_eq_true, if_false, Bool.false_or]
      rcases entries_turn t with ⟨-, hentries⟩ | ⟨hentries, hpos, hlt⟩
      · rw [hentries] at hmem
        cases hmem
      · have hcode := codeLength_le (skipSemicolons t)
        have hsame : (codeLength (skipSemicolons t) == lang.length &&
            asciiStrnEq lang (skipSemicolons t) (codeLength (skipSemicolons t))) =
            ((skipSemicolons t).take (codeLength (skipSemicolons t)) == lang) := by
          rw [Bool.eq_iff_iff, Bool.and_eq_true, beq_iff_eq, beq_iff_eq, asciiStrnEq, beq_iff_eq]
          constructor
          · rintro ⟨hlen, htake⟩
            rw [← htake, hlen, List.take_length]
          · intro h
            have hlen : codeLength (skipSemicolons t) = lang.length := by rw [← h, take_codeLength_length]
            exact ⟨hlen, by rw [h, hlen, List.take_length]⟩
        rw [hsame, hentries, List.idxOf_cons]
        split
        · rename_i h
          rw [h]
          rfl
        · rename_i h
          rw [Bool.not_eq_true] at h
          rw [h]
          rw [hentries, List.mem_cons] at hmem
          have hmem' := hmem.resolve_left fun heq => by rw [heq] at h; simp at h
          rw [ih _ _ (by omega) hmem', cond_false]
          omega

/-- The code at the index, in a list that does not start with a semicolon. -/
theorem codeAtIndex_eq {code : List UInt8} {index : Nat} (fuel : Nat) (t : List UInt8) (subIndex : Nat)
    (hfuel : t.length < fuel) (hhead : t.head? ≠ some semicolon) (hsub : subIndex ≤ index)
    (hcode : (entries t)[index - subIndex]? = some code) : codeAtIndex index fuel t subIndex = some code := by
  induction fuel generalizing t subIndex with
  | zero => omega
  | succ fuel ih =>
    have hne : t ≠ [] := by
      rintro rfl
      cases hcode
    obtain ⟨hentries, hpos⟩ := entries_code hne hhead
    have hle := codeLength_le t
    have hskip := skip_length (t.drop (codeLength t))
    rw [List.length_drop] at hskip
    rw [hentries] at hcode
    rw [codeAtIndex]
    by_cases hat : subIndex = index
    · rw [hat, Nat.sub_self] at hcode
      simp only [hat, ne_eq, not_true_eq_false, and_false, if_false, if_true]
      exact hcode
    · rw [show index - subIndex = index - (subIndex + 1) + 1 by omega, List.getElem?_cons_succ, ← entries_skip] at hcode
      have hmore : t.length ≠ codeLength t := by
        intro hlen
        rw [List.drop_eq_nil_iff.mpr (Nat.le_of_eq hlen)] at hcode
        cases hcode
      simp only [hat, hmore, false_and, if_false]
      exact ih _ _ (by omega) (skip_head _) (by omega) hcode

/-- In front of a first semicolon the loop sees an empty code. -/
theorem codeAtIndex_semicolon (index fuel : Nat) (t : List UInt8) :
    codeAtIndex index (fuel + 1) (semicolon :: t) 0 =
      if index = 0 then some [] else codeAtIndex index fuel (skipSemicolons t) 1 := by
  have hlen : codeLength (semicolon :: t) = 0 := rfl
  have hskip : skipSemicolons ((semicolon :: t).drop 0) = skipSemicolons t := rfl
  rw [codeAtIndex]
  simp only [hlen, hskip]
  rw [if_neg (fun h => absurd h.1 (Nat.succ_ne_zero _))]
  simp only [eq_comm (a := (0 : Nat)), List.take_zero]

/-! ## The loop that trims the tag -/

/-- The lengths that the loop comes to, from `n` on. -/
def CutLength (language : List UInt8) (n l : Nat) : Prop := 0 < l ∧ (l = n ∨ l < n ∧ language[l]? = some hyphen)

theorem trimLanguage_spec (language : List UInt8) {n : Nat} (hn : 0 < n) :
    trimLanguage language n < n ∧
    ∀ l, l ≠ n → (CutLength language n l ↔ CutLength language (trimLanguage language n) l) := by
  induction n with
  | zero => cases hn
  | succ n ih =>
    rw [trimLanguage]
    split
    · rename_i hstop
      refine ⟨Nat.lt_succ_self n, fun l hl => ?_⟩
      constructor
      · rintro ⟨hpos, h | ⟨hlt, hat⟩⟩
        · exact absurd h hl
        · refine ⟨hpos, ?_⟩
          by_cases hln : l = n
          · exact .inl hln
          · exact .inr ⟨by omega, hat⟩
      · rintro ⟨hpos, h | ⟨hlt, hat⟩⟩
        · subst h
          exact ⟨hpos, .inr ⟨Nat.lt_succ_self _, hstop.resolve_left (by omega)⟩⟩
        · exact ⟨hpos, .inr ⟨by omega, hat⟩⟩
    · rename_i hgo
      rw [not_or] at hgo
      obtain ⟨hlt, hiff⟩ := ih (by omega)
      refine ⟨by omega, fun l hl => ?_⟩
      by_cases hln : l = n
      · subst hln
        constructor
        · rintro ⟨-, h | ⟨-, hat⟩⟩
          · omega
          · exact absurd hat hgo.2
        · rintro ⟨-, h | ⟨h, -⟩⟩ <;> omega
      · rw [← hiff l hln]
        constructor
        · rintro ⟨hpos, h | ⟨h, hat⟩⟩
          · exact absurd h hl
          · exact ⟨hpos, .inr ⟨by omega, hat⟩⟩
        · rintro ⟨hpos, h | ⟨h, hat⟩⟩
          · exact absurd h hln
          · exact ⟨hpos, .inr ⟨by omega, hat⟩⟩

/-- The longest cut that a code begins with decides. -/
theorem bestLanguage_cases (supported language : List UInt8) (fuel n : Nat) (hfuel : n < fuel) (hn : n ≤ language.length) :
    (bestLanguage supported false language fuel n = none ∧
      ∀ l, CutLength language n l → (entries supported).find? (fun e => (language.take l).isPrefixOf e) = none) ∨
    ∃ l code, CutLength language n l ∧
      (∀ k, CutLength language n k → l < k →
        (entries supported).find? (fun e => (language.take k).isPrefixOf e) = none) ∧
      (entries supported).find? (fun e => (language.take l).isPrefixOf e) = some code ∧
      bestLanguage supported false language fuel n = some code := by
  induction fuel generalizing n with
  | zero => omega
  | succ fuel ih =>
    rw [bestLanguage]
    by_cases hzero : n = 0
    · rw [if_pos hzero]
      refine .inl ⟨rfl, ?_⟩
      rintro l ⟨hpos, h | ⟨h, -⟩⟩ <;> omega
    · rw [if_neg hzero, matchSupported_eq (Nat.pos_of_ne_zero hzero) hn _ _ (Nat.lt_succ_self _)]
      cases hfind : (entries supported).find? fun e => (language.take n).isPrefixOf e with
      | some code =>
        refine .inr ⟨n, code, ⟨Nat.pos_of_ne_zero hzero, .inl rfl⟩, ?_, hfind, rfl⟩
        rintro k ⟨-, h | ⟨h, -⟩⟩ hk <;> omega
      | none =>
        obtain ⟨hlt, hiff⟩ := trimLanguage_spec language (Nat.pos_of_ne_zero hzero)
        simp only [Bool.false_eq_true, if_false]
        rcases ih (trimLanguage language n) (by omega) (by omega) with ⟨hnone, hall⟩ | ⟨l, code, hl, hlonger, hsome, hbest⟩
        · refine .inl ⟨hnone, fun l hl => ?_⟩
          by_cases hln : l = n
          · rw [hln]
            exact hfind
          · exact hall l ((hiff l hln).mp hl)
        · have hln : l ≠ n := by
            obtain ⟨-, h | ⟨h, -⟩⟩ := hl <;> omega
          refine .inr ⟨l, code, (hiff l hln).mpr hl, fun k hk hlk => ?_, hsome, hbest⟩
          by_cases hkn : k = n
          · rw [hkn]
            exact hfind
          · exact hlonger k ((hiff k hkn).mp hk) hlk

/-! ## Cuts of a tag -/

theorem MatchesAt.isPrefix (h : MatchesAt p tag) : p <+: tag := by
  rcases h with rfl | h
  · exact List.prefix_rfl
  · exact (List.prefix_append p [hyphen]).trans h

theorem append_hyphen_prefix_iff : p ++ [hyphen] <+: tag ↔ p <+: tag ∧ tag[p.length]? = some hyphen := by
  constructor
  · rintro ⟨rest, rfl⟩
    simp
  · rintro ⟨⟨rest, rfl⟩, h⟩
    rw [List.getElem?_append_right (Nat.le_refl _), Nat.sub_self] at h
    cases rest with
    | nil => cases h
    | cons c rest =>
      rw [List.getElem?_cons_zero, Option.some.injEq] at h
      exact ⟨rest, by rw [h, List.append_assoc]; rfl⟩

theorem cut_iff {language : List UInt8} {n : Nat} (hn : n ≤ language.length) :
    Cut (language.take n) p ↔ ∃ l, CutLength language n l ∧ p = language.take l := by
  have hlen : (language.take n).length = n := List.length_take_of_le hn
  constructor
  · rintro ⟨hne, h | h⟩
    · have hpos := List.length_pos_of_ne_nil hne
      rw [← h, hlen] at hpos
      exact ⟨n, ⟨hpos, .inl rfl⟩, h.symm⟩
    · obtain ⟨hstarts, hat⟩ := append_hyphen_prefix_iff.mp h
      have hlt : p.length < n := by
        rw [← hlen]
        exact (List.getElem?_eq_some_iff.mp hat).1
      rw [List.getElem?_take_of_lt hlt] at hat
      refine ⟨p.length, ⟨List.length_pos_of_ne_nil hne, .inr ⟨hlt, hat⟩⟩, ?_⟩
      conv_lhs => rw [List.prefix_iff_eq_take.mp hstarts, List.take_take, Nat.min_eq_left (Nat.le_of_lt hlt)]
  · rintro ⟨l, ⟨hpos, hl⟩, rfl⟩
    have hle : l ≤ n := by omega
    have hlen' : (language.take l).length = l := List.length_take_of_le (by omega)
    refine ⟨List.ne_nil_of_length_pos (by omega), ?_⟩
    rcases hl with rfl | ⟨hlt, hat⟩
    · exact .inl rfl
    · refine .inr (append_hyphen_prefix_iff.mpr ⟨List.take_prefix_take_left hle, ?_⟩)
      rw [hlen', List.getElem?_take_of_lt hlt]
      exact hat

/-- A longer cut goes on behind a shorter one with a `-`. -/
theorem Cut.matchesAt (hp : Cut tag p) (hq : Cut tag q) (hlt : p.length < q.length) : p ++ [hyphen] <+: q := by
  have hqt := hq.2.isPrefix
  rcases hp.2 with h | h
  · have := hqt.length_le
    rw [h] at this
    omega
  · exact List.prefix_of_prefix_length_le h hqt (by rw [List.length_append]; exact hlt)

theorem Cut.eq_of_length (hp : Cut tag p) (hq : Cut tag q) (h : p.length = q.length) : p = q := by
  rw [List.prefix_iff_eq_take.mp hp.2.isPrefix, h, ← List.prefix_iff_eq_take.mp hq.2.isPrefix]

theorem exists_longest {S : List UInt8 → Prop} (h : ∃ p, Cut tag p ∧ S p) : ∃ p, Longest tag S p := by
  classical
  obtain ⟨p, hp, hS⟩ := h
  have hle (q : List UInt8) (hq : Cut tag q) : q.length ≤ tag.length := hq.2.isPrefix.length_le
  let T (n : Nat) : Prop := ∃ q, Cut tag q ∧ S q ∧ q.length = n
  obtain ⟨q, hq, hSq, hlen⟩ := Nat.findGreatest_spec (P := T) (hle p hp) ⟨p, hp, hS, rfl⟩
  refine ⟨q, hq, hSq, fun r hr hSr => ?_⟩
  rw [hlen]
  exact Nat.le_findGreatest (hle r hr) ⟨r, hr, hSr, rfl⟩

theorem Matched.begun {supported : List UInt8} (h : Matched supported p) : Begun supported p := by
  obtain ⟨e, he, hm⟩ := h
  exact ⟨e, he, hm.isPrefix⟩

/-! ## RFC 4646 lists -/

theorem find_eq_none_iff {supported p : List UInt8} :
    (entries supported).find? (fun e => p.isPrefixOf e) = none ↔ ¬Begun supported p := by
  rw [List.find?_eq_none, Begun]
  simp only [List.isPrefixOf_iff_prefix, not_exists, not_and]

/-- NULL, or the first code that begins with the longest cut that any code begins with. -/
theorem variableGetBestLanguage_rfc4646 (supportedLanguages language : List UInt8) :
    (variableGetBestLanguage supportedLanguages false language = none ∧
      ∀ p, Cut (requestedTag language) p → ¬Begun (cString supportedLanguages) p) ∨
    ∃ p code, Longest (requestedTag language) (Begun (cString supportedLanguages)) p ∧
      (entries (cString supportedLanguages)).find? (fun e => p.isPrefixOf e) = some code ∧
      variableGetBestLanguage supportedLanguages false language = some code := by
  have hle := codeLength_le (cString language)
  have hcut (p : List UInt8) : Cut (requestedTag language) p ↔ _ := cut_iff hle
  rcases bestLanguage_cases (cString supportedLanguages) (cString language) _ _ (Nat.lt_succ_of_le hle) hle with
    ⟨hnone, hall⟩ | ⟨l, code, hl, hlonger, hfind, hbest⟩
  · refine .inl ⟨hnone, fun p hp => ?_⟩
    obtain ⟨l, hl, rfl⟩ := (hcut p).mp hp
    exact find_eq_none_iff.mp (hall l hl)
  · have hlen (k : Nat) (hk : CutLength (cString language) (codeLength (cString language)) k) :
        ((cString language).take k).length = k := List.length_take_of_le (by obtain ⟨-, h | ⟨h, -⟩⟩ := hk <;> omega)
    refine .inr ⟨_, code, ⟨(hcut _).mpr ⟨l, hl, rfl⟩, ?_, fun q hq hbegun => ?_⟩, hfind, hbest⟩
    · by_contra hnot
      rw [find_eq_none_iff.mpr hnot] at hfind
      cases hfind
    · obtain ⟨k, hk, rfl⟩ := (hcut q).mp hq
      rw [hlen k hk, hlen l hl]
      by_contra hlt
      exact find_eq_none_iff.mp (hlonger k hk (by omega)) hbegun

/-- When the code that the function returns follows the boundaries of the tags. -/
theorem followsTags_iff {supported : List UInt8} (hp : Longest tag (Begun supported) p)
    (hfind : (entries supported).find? (fun e => p.isPrefixOf e) = some code) :
    FollowsTags supported tag code ↔ TagsDecide supported tag := by
  have hcode : p <+: code := List.isPrefixOf_iff_prefix.mp (List.find?_some hfind)
  constructor
  · rintro ⟨-, q, hq, hqcode⟩
    refine ⟨⟨q, hq.cut, hq.holds⟩, fun r hr hmatched e he => ?_⟩
    have hrp : r = p := hr.cut.eq_of_length hp.cut
      (Nat.le_antisymm (hp.longest r hr.cut hr.holds) (hr.longest p hp.cut hp.holds))
    subst hrp
    rw [hfind, Option.some.injEq] at he
    subst he
    have hqr : q = r := hq.cut.eq_of_length hr.cut
      (Nat.le_antisymm (hr.longest q hq.cut hq.holds.begun) (hq.longest r hr.cut hmatched))
    exact hqr ▸ hqcode
  · rintro ⟨hsome, hfirst⟩
    refine ⟨List.mem_of_find?_eq_some hfind, ?_⟩
    obtain ⟨q, hq⟩ := exists_longest hsome
    refine ⟨q, hq, ?_⟩
    have hle := hp.longest q hq.cut hq.holds.begun
    by_cases hlen : q.length = p.length
    · have hqp : q = p := hq.cut.eq_of_length hp.cut hlen
      rw [hqp]
      exact hfirst p hp (hqp ▸ hq.holds) code hfind
    · -- a longer cut that is only a prefix of the code still begins with the shorter one and a `-`
      exact .inr ((hq.cut.matchesAt hp.cut (by omega)).trans hcode)

theorem entry_ne_nil {supported : List UInt8} (h : code ∈ entries supported) : code ≠ [] := by
  have := (List.mem_filter.mp h).2
  simpa using this

theorem returnsAgain_rfc4646_iff {supportedLang : List UInt8} (hmem : code ∈ entries (cString supportedLang)) :
    ReturnsAgain false supportedLang code ↔ (cString supportedLang).head? ≠ some semicolon := by
  have hindex : getIndexFromSupportedLangCodes supportedLang code false =
      (entries (cString supportedLang)).idxOf code := by
    rw [getIndexFromSupportedLangCodes, indexOfCode_eq _ _ _ (Nat.lt_succ_self _) hmem, Nat.zero_add]
  have hfound : (entries (cString supportedLang))[(entries (cString supportedLang)).idxOf code]? = some code := by
    rw [List.getElem?_eq_getElem (List.idxOf_lt_length_of_mem hmem), List.getElem_idxOf]
  have hlang (i : Nat) : getLangFromSupportedLangCodes supportedLang i false =
      codeAtIndex i ((cString supportedLang).length + 1) (cString supportedLang) 0 := by
    rw [getLangFromSupportedLangCodes, if_neg Bool.false_ne_true]
  constructor
  · rintro ⟨-, hagain⟩ hhead
    rw [hindex, hlang] at hagain
    generalize hi : (entries (cString supportedLang)).idxOf code = i at hagain
    obtain ⟨t, ht⟩ := List.head?_eq_some_iff.mp hhead
    rw [ht, codeAtIndex_semicolon] at hagain
    split at hagain
    · rw [Option.some.injEq] at hagain
      exact entry_ne_nil hmem hagain.symm
    · rename_i hzero
      -- the loop is one code behind, and the code before the first one that is equal differs
      have hentries : entries (cString supportedLang) = entries (skipSemicolons t) := by
        rw [ht, entries_cons_semicolon, entries_skip]
      have hlt : i - 1 < (entries (skipSemicolons t)).length := by
        have := List.idxOf_lt_length_of_mem hmem
        rw [← hentries]
        omega
      have hbefore := codeAtIndex_eq (semicolon :: t).length (skipSemicolons t) 1
        (by have := skip_length t; rw [List.length_cons]; omega) (skip_head t) (Nat.pos_of_ne_zero hzero)
        (List.getElem?_eq_getElem hlt)
      rw [hagain, Option.some.injEq] at hbefore
      have hdiffers := @List.not_of_lt_findIdx _ (· == code) (entries (skipSemicolons t)) (i - 1)
        (by rw [← List.idxOf, ← hentries, hi]; omega)
      rw [← hbefore, beq_self_eq_true] at hdiffers
      cases hdiffers
  · intro hhead
    refine ⟨by rw [hindex]; exact hfound, ?_⟩
    rw [hindex, hlang]
    exact codeAtIndex_eq _ _ _ (Nat.lt_succ_self _) hhead (Nat.zero_le _) hfound

/-! ## ISO 639 lists -/

theorem triples_length {e : List UInt8} (h : e ∈ triples t) : e.length = 3 := by
  induction t using triples.induct with
  | case1 a b c t ih =>
    rw [triples, List.mem_cons] at h
    rcases h with rfl | h
    · rfl
    · exact ih h
  | case2 t hshort =>
    rw [triples] at h
    · cases h
    · exact hshort

theorem triples_get {i : Nat} (h : (triples t)[i]? = some code) :
    i * 3 + 3 ≤ t.length ∧ (t.drop (i * 3)).take 3 = code := by
  induction t using triples.induct generalizing i with
  | case1 a b c t ih =>
    rw [triples] at h
    cases i with
    | zero =>
      rw [List.getElem?_cons_zero, Option.some.injEq] at h
      exact ⟨by simp only [List.length_cons]; omega, h⟩
    | succ i =>
      rw [List.getElem?_cons_succ] at h
      obtain ⟨hle, htake⟩ := ih h
      exact ⟨by simp only [List.length_cons]; omega, by rw [Nat.add_mul]; exact htake⟩
  | case2 t hshort =>
    rw [triples] at h
    · cases h
    · exact hshort

theorem triples_turn (hmod : t.length % 3 = 0) : t = [] ∨
    triples t = t.take 3 :: triples (t.drop 3) ∧ (t.drop 3).length % 3 = 0 ∧ (t.drop 3).length < t.length := by
  rcases t with _ | ⟨a, _ | ⟨b, _ | ⟨c, t⟩⟩⟩
  · exact .inl rfl
  · simp at hmod
  · simp at hmod
  · simp only [List.length_cons] at hmod
    exact .inr ⟨rfl, by simp only [List.drop_succ_cons, List.drop_zero]; omega,
      by simp only [List.drop_succ_cons, List.drop_zero, List.length_cons]; omega⟩

theorem matchSupported_iso639 {language : List UInt8} {n : Nat} (hn : n ≤ 3) (fuel : Nat) (t : List UInt8)
    (hmod : t.length % 3 = 0) (hfuel : t.length < fuel) :
    matchSupported true language n fuel t = (triples t).find? fun e => asciiStrnEq e language n := by
  induction fuel generalizing t with
  | zero => omega
  | succ fuel ih =>
    rw [matchSupported]
    rcases triples_turn hmod with rfl | ⟨htriples, hmod', hlt⟩
    · rfl
    · have hne : t ≠ [] := by
        rintro rfl
        exact absurd hlt (Nat.lt_irrefl _)
      have hsame : asciiStrnEq (t.take 3) language n = asciiStrnEq t language n := by
        rw [asciiStrnEq, asciiStrnEq, List.take_take, Nat.min_eq_left hn]
      rw [if_neg hne, htriples, List.find?_cons, hsame]
      simp only [Bool.not_true, Bool.false_and, Bool.false_eq_true, if_true, if_false, iso6392EntrySize]
      cases asciiStrnEq t language n with
      | true => rfl
      | false => exact ih _ hmod' (by omega)

theorem mem_triples_of_best {supportedLanguages language : List UInt8}
    (hmod : (cString supportedLanguages).length % 3 = 0)
    (h : variableGetBestLanguage supportedLanguages true language = some code) :
    code ∈ triples (cString supportedLanguages) := by
  rw [variableGetBestLanguage, if_pos rfl, bestLanguage] at h
  split at h
  · cases h
  · rw [matchSupported_iso639 (Nat.min_le_left _ _) _ _ hmod (Nat.lt_succ_self _)] at h
    split at h
    · rename_i hfind
      rw [Option.some.injEq] at h
      exact h ▸ List.mem_of_find?_eq_some hfind
    · have hdone (fuel : Nat) : bestLanguage (cString supportedLanguages) true (cString language) fuel 0 = none := by
        cases fuel with
        | zero => rfl
        | succ fuel => rfl
      rw [if_pos rfl, hdone] at h
      cases h

theorem indexOfCode_iso639 (hcode : code.length = 3) (fuel : Nat) (t : List UInt8) (index : Nat)
    (hmod : t.length % 3 = 0) (hfuel : t.length < fuel) (hmem : code ∈ triples t) :
    indexOfCode true code fuel t index = index + (triples t).idxOf code := by
  induction fuel generalizing t index with
  | zero => omega
  | succ fuel ih =>
    rw [indexOfCode]
    rcases triples_turn hmod with rfl | ⟨htriples, hmod', hlt⟩
    · cases hmem
    · have hne : t ≠ [] := by
        rintro rfl
        exact absurd hlt (Nat.lt_irrefl _)
      have hsame : asciiStrnEq code t 3 = (t.take 3 == code) := by
        rw [asciiStrnEq, ← hcode, List.take_length, Bool.beq_comm]
      rw [if_neg hne, htriples, List.idxOf_cons]
      simp only [Bool.true_or, Bool.true_and, if_true, iso6392EntrySize, hsame]
      cases heq : t.take 3 == code with
      | true => rfl
      | false =>
        rw [htriples, List.mem_cons] at hmem
        have hmem' := hmem.resolve_left fun h => by rw [h, beq_self_eq_true] at heq; cases heq
        rw [if_neg Bool.false_ne_true, ih _ _ hmod' (by omega) hmem', cond_false]
        omega

theorem returnsAgain_iso639 {supportedLang : List UInt8} (hmod : (cString supportedLang).length % 3 = 0)
    (hmem : code ∈ triples (cString supportedLang)) : ReturnsAgain true supportedLang code := by
  have hindex : getIndexFromSupportedLangCodes supportedLang code true =
      (triples (cString supportedLang)).idxOf code := by
    rw [getIndexFromSupportedLangCodes, indexOfCode_iso639 (triples_length hmem) _ _ _ hmod (Nat.lt_succ_self _) hmem,
      Nat.zero_add]
  have hfound : (triples (cString supportedLang))[(triples (cString supportedLang)).idxOf code]? = some code := by
    rw [List.getElem?_eq_getElem (List.idxOf_lt_length_of_mem hmem), List.getElem_idxOf]
  refine ⟨by rw [hindex]; exact hfound, ?_⟩
  rw [hindex]
  obtain ⟨hle, htake⟩ := triples_get hfound
  generalize (triples (cString supportedLang)).idxOf code = i at hle htake ⊢
  have hstarts : cString supportedLang <+: supportedLang := List.takeWhile_prefix _
  obtain ⟨rest, hrest⟩ := hstarts
  rw [getLangFromSupportedLangCodes, if_pos rfl, iso6392EntrySize]
  conv_lhs => rw [← hrest, List.drop_append_of_le_length (by omega), List.append_assoc]
  rw [List.take_append_of_le_length (by rw [List.length_drop]; omega), htake]

/-! ## All lists -/

/-- In ISO 639 mode always, and in RFC 4646 mode if and only if no code begins with a cut of the requested tag,
or the tags decide and the list does not start with a semicolon. -/
theorem variableGetBestLanguage_boundaries_iff (supportedLanguages language : List UInt8) (iso639Language : Bool)
    (hiso : iso639Language = true → (cString supportedLanguages).length % iso6392EntrySize = 0) :
    (∀ code, variableGetBestLanguage supportedLanguages iso639Language language = some code →
      (iso639Language = false → FollowsTags (cString supportedLanguages) (requestedTag language) code) ∧
      ReturnsAgain iso639Language supportedLanguages code) ↔
    iso639Language = true ∨ (∀ p, Cut (requestedTag language) p → ¬Begun (cString supportedLanguages) p) ∨
      TagsDecide (cString supportedLanguages) (requestedTag language) ∧
        (cString supportedLanguages).head? ≠ some semicolon := by
  cases iso639Language with
  | true =>
    refine ⟨fun _ => .inl rfl, fun _ code hcode => ⟨fun h => absurd h.symm Bool.false_ne_true, ?_⟩⟩
    exact returnsAgain_iso639 (hiso rfl) (mem_triples_of_best (hiso rfl) hcode)
  | false =>
    simp only [Bool.false_eq_true, false_or, true_imp_iff]
    rcases variableGetBestLanguage_rfc4646 supportedLanguages language with ⟨hnone, hall⟩ | ⟨p, code, hp, hfind, hbest⟩
    · rw [hnone]
      exact ⟨fun _ => .inl hall, fun _ code hcode => by cases hcode⟩
    · have hmem := List.mem_of_find?_eq_some hfind
      rw [hbest]
      constructor
      · intro h
        obtain ⟨hfollows, hagain⟩ := h code rfl
        exact .inr ⟨(followsTags_iff hp hfind).mp hfollows, (returnsAgain_rfc4646_iff hmem).mp hagain⟩
      · rintro (hnone | ⟨hdecide, hhead⟩) code' hcode'
        · exact absurd hp.holds (hnone p hp.cut)
        · rw [Option.some.injEq] at hcode'
          subst hcode'
          exact ⟨(followsTags_iff hp hfind).mpr hdecide, (returnsAgain_rfc4646_iff hmem).mpr hhead⟩

end

def ascii (s : List Char) : List UInt8 := s.map fun c => UInt8.ofNat c.toNat

/-- `en` is the only shorter cut of `en-US`. -/
theorem cut_enUS {p : List UInt8} (hp : Cut (requestedTag (ascii ['e', 'n', '-', 'U', 'S'])) p) :
    p = ascii ['e', 'n', '-', 'U', 'S'] ∨ p = ascii ['e', 'n'] := by
  have hhyphen : ∀ n < 5, (requestedTag (ascii ['e', 'n', '-', 'U', 'S']))[n]? = some hyphen → n = 2 := by
    decide +kernel
  rcases hp.2 with h | h
  · exact .inl (h.symm.trans (by decide +kernel))
  · obtain ⟨hstarts, hat⟩ := append_hyphen_prefix_iff.mp h
    have hlt : p.length < 5 := (List.getElem?_eq_some_iff.mp hat).1
    rw [List.prefix_iff_eq_take.mp hstarts, hhyphen _ hlt hat]
    exact .inr (by decide +kernel)

/-- `fra` for `fr`, and `en` for `en-US`. -/
theorem variableGetBestLanguage_boundaries_sample :
    ReturnsAgain true (ascii ['e', 'n', 'g', 'f', 'r', 'a']) (ascii ['f', 'r', 'a']) ∧
      FollowsTags (cString (ascii ['f', 'r', ';', 'e', 'n'])) (requestedTag (ascii ['e', 'n', '-', 'U', 'S']))
        (ascii ['e', 'n']) ∧
      ReturnsAgain false (ascii ['f', 'r', ';', 'e', 'n']) (ascii ['e', 'n']) := by
  have hdecide : TagsDecide (cString (ascii ['f', 'r', ';', 'e', 'n']))
      (requestedTag (ascii ['e', 'n', '-', 'U', 'S'])) := by
    refine ⟨⟨ascii ['e', 'n'], ⟨by decide, .inr (by decide +kernel)⟩, ascii ['e', 'n'], by decide +kernel, .inl rfl⟩, ?_⟩
    intro p hp hmatched e he
    rcases cut_enUS hp.cut with rfl | rfl
    · obtain ⟨e', he', hbegun⟩ := hp.holds
      exact absurd hbegun ((by decide +kernel : ∀ e ∈ entries (cString (ascii ['f', 'r', ';', 'e', 'n'])),
        ¬ascii ['e', 'n', '-', 'U', 'S'] <+: e) e' he')
    · exact .inl (Option.some.inj (he.symm.trans (by decide +kernel)))
  have hfollows := (variableGetBestLanguage_boundaries_iff (ascii ['f', 'r', ';', 'e', 'n'])
    (ascii ['e', 'n', '-', 'U', 'S']) false nofun).mpr (.inr (.inr ⟨hdecide, by decide +kernel⟩)) (ascii ['e', 'n'])
    (by decide +kernel)
  exact ⟨((variableGetBestLanguage_boundaries_iff (ascii ['e', 'n', 'g', 'f', 'r', 'a']) (ascii ['f', 'r']) true
    fun _ => by decide +kernel).mpr (.inl rfl) (ascii ['f', 'r', 'a']) (by decide +kernel)).2, hfollows.1 rfl, hfollows.2⟩

theorem cut_of_no_hyphen {tag p : List UInt8} (h : hyphen ∉ tag) (hp : Cut tag p) : tag = p :=
  hp.2.resolve_right fun hstarts => h (List.mem_of_getElem? (append_hyphen_prefix_iff.mp hstarts).2)

/-- `eng` for `en`, and the code at the index of `en` in `;en`. -/
theorem boundaries_not_followed :
    (variableGetBestLanguage (ascii ['e', 'n', 'g', ';', 'f', 'r']) false (ascii ['e', 'n']) =
        some (ascii ['e', 'n', 'g']) ∧
      ¬FollowsTags (cString (ascii ['e', 'n', 'g', ';', 'f', 'r'])) (requestedTag (ascii ['e', 'n']))
        (ascii ['e', 'n', 'g'])) ∧
    variableGetBestLanguage (ascii [';', 'e', 'n']) false (ascii ['e', 'n']) = some (ascii ['e', 'n']) ∧
      ¬ReturnsAgain false (ascii [';', 'e', 'n']) (ascii ['e', 'n']) := by
  refine ⟨⟨by decide +kernel, ?_⟩, by decide +kernel, fun h => absurd h.again (by decide +kernel)⟩
  rintro ⟨-, p, hp, hmatch⟩
  obtain rfl := cut_of_no_hyphen (by decide +kernel) hp.cut
  rcases hmatch with h | h
  · exact absurd h (by decide +kernel)
  · exact absurd h (by decide +kernel)

end Udk.Variable.LanguageTags
