import Udk.Collation.MetaiMatch

/-! # The wildcard match against the language of its pattern -/

namespace Udk.Collation

section
variable {up : Char16 → Char16}

/-! ## Sets -/

/-- The characters of a set from `CharP` on, with the character before. -/
def TakesFrom (up : Char16 → Char16) (c before : Char16) (body : List Char16) : Prop :=
  ∃ l x r, body = l ++ x :: r ∧ TakenAt up c (l.getLastD before) x r

theorem not_takesFrom_nil (c before : Char16) : ¬TakesFrom up c before [] := by
  rintro ⟨l, x, r, h, -⟩
  simp at h

theorem takesFrom_cons {c before x : Char16} {body : List Char16} :
    TakesFrom up c before (x :: body) ↔ TakenAt up c before x body ∨ TakesFrom up c x body := by
  constructor
  · rintro ⟨l, y, r, h, ht⟩
    cases l with
    | nil =>
      obtain ⟨rfl, rfl⟩ := List.cons.inj h
      exact .inl ht
    | cons z l =>
      obtain ⟨rfl, rfl⟩ := List.cons.inj h
      exact .inr ⟨l, y, r, rfl, by rwa [List.getLastD_cons] at ht⟩
  · rintro (ht | ⟨l, y, r, rfl, ht⟩)
    · exact ⟨[], x, body, rfl, ht⟩
    · exact ⟨x :: l, y, r, rfl, by rwa [List.getLastD_cons]⟩

/-- The character before counts for a `-` only. -/
theorem takesFrom_before {c before before' x : Char16} {body : List Char16} (hx : x = dash → before = before') :
    TakesFrom up c before (x :: body) ↔ TakesFrom up c before' (x :: body) := by
  rw [takesFrom_cons, takesFrom_cons]
  unfold TakenAt
  by_cases h : x = dash
  · rw [hx h]
  · rw [if_neg h, if_neg h]

theorem takenAt_dash {c before : Char16} {r : List Char16} :
    TakenAt up c before dash r ↔ ∃ b, r.head? = some b ∧ (up before ≤ c ∧ c ≤ up b ∨ c = up b) := by
  rw [TakenAt, if_pos rfl]

theorem takenAt_other {c before x : Char16} {r : List Char16} (hx : x ≠ dash) :
    TakenAt up c before x r ↔ c = up x := by
  rw [TakenAt, if_neg hx]

/-- What the scan of a set says when no character of it matches. Behind the set is its closing bracket or nothing. -/
def unmatched (body tail : List Char16) : Scan :=
  if tail = [] ∧ body.getLast? ≠ some dash then .behindNull else .failed

theorem unmatched_cons {x : Char16} {body tail : List Char16} (h : body ≠ [] ∨ x ≠ dash) :
    unmatched (x :: body) tail = unmatched body tail := by
  unfold unmatched
  cases body with
  | nil =>
    have hx : x ≠ dash := by simpa using h
    simp [hx]
  | cons y body => rw [List.getLast?_cons_cons]

theorem skipSet_append {body tail : List Char16} (h : closeBracket ∉ body) : skipSet (body ++ tail) = skipSet tail := by
  induction body with
  | nil => rfl
  | cons x body ih =>
    rw [List.mem_cons, not_or] at h
    rw [List.cons_append, skipSet, if_neg (Ne.symm h.1), ih h.2]

/-- The loop over the characters of a set. -/
theorem scanSet_eq (up : Char16 → Char16) (charC before : Char16) {body tail : List Char16} (h : closeBracket ∉ body)
    (htail : tail = [] ∨ tail.head? = some closeBracket) :
    (TakesFrom up (up charC) before body ∧
        ∃ p, scanSet up charC before (body ++ tail) = .matched p ∧ skipSet p = skipSet tail) ∨
      ¬TakesFrom up (up charC) before body ∧ scanSet up charC before (body ++ tail) = unmatched body tail := by
  induction body generalizing before with
  | nil =>
    refine .inr ⟨not_takesFrom_nil _ _, ?_⟩
    cases tail with
    | nil => rfl
    | cons y tail =>
      have hy : y = closeBracket := by simpa using htail
      rw [List.nil_append, scanSet, if_pos hy]
      rfl
  | cons x body ih =>
    obtain ⟨hclose, hbody⟩ : closeBracket ≠ x ∧ closeBracket ∉ body := by rwa [List.mem_cons, not_or] at h
    have hskip : skipSet (body ++ tail) = skipSet tail := skipSet_append hbody
    rw [List.cons_append, scanSet, if_neg (Ne.symm hclose), takesFrom_cons]
    by_cases hx : x = dash
    · subst hx
      rw [if_pos rfl, takenAt_dash]
      cases body with
      | nil =>
        refine .inr ⟨by simp [not_takesFrom_nil], ?_⟩
        rcases htail with rfl | htail
        · rfl
        · rw [List.nil_append, htail]
          simp only [if_pos, unmatched]
          rw [if_neg (by simp)]
      | cons b body =>
        have hb : b ≠ closeBracket := fun hb => hbody (hb ▸ List.mem_cons_self)
        simp only [List.cons_append, List.head?_cons, Option.some.injEq, exists_eq_left']
        rw [if_neg hb]
        by_cases hrange : up before ≤ up charC ∧ up charC ≤ up b
        · exact .inl ⟨.inl (.inl hrange), _, if_pos hrange, hskip⟩
        rw [if_neg hrange]
        by_cases heq : up charC = up b
        · exact .inl ⟨.inl (.inr heq), _, if_pos heq, hskip⟩
        rw [if_neg heq, unmatched_cons (.inl (List.cons_ne_nil _ _)),
          takesFrom_before (c := up charC) (x := b) (fun hd : b = dash => hd.symm)]
        simpa [hrange, heq] using ih b hbody
    · rw [if_neg hx, takenAt_other hx]
      by_cases heq : up charC = up x
      · exact .inl ⟨.inl heq, _, if_pos heq, hskip⟩
      · rw [if_neg heq, unmatched_cons (.inr hx)]
        simpa [heq] using ih x hbody

theorem matchSet_closed (up : Char16 → Char16) (charC : Char16) {body : List Char16} (h : closeBracket ∉ body)
    (rest : List Char16) :
    (Takes up body (up charC) → matchSet up charC (body ++ closeBracket :: rest) = .behindSet rest) ∧
      (¬Takes up body (up charC) → matchSet up charC (body ++ closeBracket :: rest) = .failed) := by
  have hskip : skipSet (closeBracket :: rest) = some rest := if_pos rfl
  have hun : unmatched body (closeBracket :: rest) = .failed := if_neg (by simp)
  rcases scanSet_eq up charC 0 h (show closeBracket :: rest = [] ∨ _ from .inr rfl) with
    ⟨ht, p, hp, hps⟩ | ⟨ht, hp⟩
  · refine ⟨fun _ => ?_, fun hn => absurd ht hn⟩
    rw [matchSet, hp]
    simp only [hps, hskip]
  · refine ⟨fun hy => absurd hy ht, fun _ => ?_⟩
    rw [matchSet, hp, hun]

theorem matchSet_unclosed (up : Char16 → Char16) (charC : Char16) {body : List Char16} (h : closeBracket ∉ body) :
    ((body.getLast? = some dash → Takes up body (up charC)) → matchSet up charC body = .behindNull) ∧
      (¬(body.getLast? = some dash → Takes up body (up charC)) → matchSet up charC body = .failed) := by
  have hscan := scanSet_eq up charC 0 h (show ([] : List Char16) = [] ∨ _ from .inl rfl)
  rw [List.append_nil] at hscan
  rcases hscan with ⟨ht, p, hp, hps⟩ | ⟨ht, hp⟩
  · refine ⟨fun _ => ?_, fun hn => absurd (fun _ => ht) hn⟩
    rw [matchSet, hp]
    simp only [hps, skipSet]
  · by_cases hlast : body.getLast? = some dash
    · refine ⟨fun hy => absurd (hy hlast) ht, fun _ => ?_⟩
      rw [matchSet, hp, unmatched, if_neg fun h => h.2 hlast]
    · refine ⟨fun _ => ?_, fun hn => absurd (fun h => absurd h hlast) hn⟩
      rw [matchSet, hp, unmatched, if_pos ⟨rfl, hlast⟩]

/-! ## Items -/

def Item.chars : Item → List Char16
  | star => [Collation.star]
  | any => [questionMark]
  | char c => [c]
  | set body => openBracket :: body ++ [closeBracket]

/-- The item is what the characters of it are read as. -/
def Item.Plain : Item → Prop
  | star | any => True
  | char c => c ≠ Collation.star ∧ c ≠ questionMark ∧ c ≠ openBracket
  | set body => closeBracket ∉ body

/-- Which upper case character an item takes. -/
def Item.takes (up : Char16 → Char16) (takes : List Char16 → Char16 → Prop) : Item → Char16 → Prop
  | star, _ => False
  | any, _ => True
  | char x, c => c = up x
  | set body, c => takes body c

theorem engMetaiMatch_star (pattern string : List Char16) :
    engMetaiMatch up (star :: pattern) string = anyTail (fun tail => engMetaiMatch up pattern tail) string := by
  rw [engMetaiMatch.eq_def]
  exact if_pos rfl

theorem engMetaiMatch_set_cons (pattern : List Char16) (charC : Char16) (string : List Char16) :
    engMetaiMatch up (openBracket :: pattern) (charC :: string) =
      match matchSet up charC pattern with
      | .failed => some false
      | .behindNull => none
      | .behindSet behind => engMetaiMatch up behind string := by
  rw [engMetaiMatch, if_neg (by decide), if_neg (by decide), if_pos rfl]
  split <;> rename_i h <;> rw [h]

theorem engMetaiMatch_set_nil (pattern : List Char16) :
    engMetaiMatch up (openBracket :: pattern) [] = some false := by
  rw [engMetaiMatch, if_neg (by decide), if_neg (by decide), if_pos rfl]

/-- Only a `*` matches without a character. -/
theorem engMetaiMatch_item_nil {item : Item} (h : item.Plain) (hstar : item ≠ .star)
    (hchar : ∀ c, item = .char c → up c ≠ up 0) (pattern : List Char16) :
    engMetaiMatch up (item.chars ++ pattern) [] = some false := by
  cases item with
  | star => exact absurd rfl hstar
  | any => rw [Item.chars, List.singleton_append, engMetaiMatch, if_neg (by decide), if_pos rfl]
  | char c =>
    obtain ⟨h1, h2, h3⟩ := h
    rw [Item.chars, List.singleton_append, engMetaiMatch, if_neg h1, if_neg h2, if_neg h3]
    exact if_pos (Ne.symm (hchar c rfl))
  | set body => exact engMetaiMatch_set_nil _

theorem engMetaiMatch_item_cons (up : Char16 → Char16) {item : Item} (h : item.Plain) (hstar : item ≠ .star)
    (pattern : List Char16)
    (charC : Char16) (string : List Char16) :
    (item.takes up (Takes up) (up charC) →
        engMetaiMatch up (item.chars ++ pattern) (charC :: string) = engMetaiMatch up pattern string) ∧
      (¬item.takes up (Takes up) (up charC) →
        engMetaiMatch up (item.chars ++ pattern) (charC :: string) = some false) := by
  cases item with
  | star => exact absurd rfl hstar
  | any =>
    refine ⟨fun _ => ?_, fun hn => absurd trivial hn⟩
    rw [Item.chars, List.singleton_append, engMetaiMatch, if_neg (by decide), if_pos rfl]
  | char c =>
    obtain ⟨h1, h2, h3⟩ := h
    rw [Item.chars, List.singleton_append, engMetaiMatch, if_neg h1, if_neg h2, if_neg h3]
    exact ⟨fun ht => if_neg (not_not_intro ht), fun hn => if_pos hn⟩
  | set body =>
    have hset := matchSet_closed up charC h pattern
    rw [show (Item.set body).chars ++ pattern = openBracket :: (body ++ closeBracket :: pattern) by simp [Item.chars],
      engMetaiMatch_set_cons]
    refine ⟨fun ht => ?_, fun hn => ?_⟩
    · rw [hset.1 ht]
    · rw [hset.2 hn]

section
variable {takes : List Char16 → Char16 → Prop} {items : List Item} {item : Item} {string : List Char16}

theorem matches_nil : Matches up takes [] string ↔ string = [] := by
  constructor
  · intro h
    cases h
    rfl
  · rintro rfl
    exact .nil

theorem matches_star : Matches up takes (.star :: items) string ↔ ∃ u v, string = u ++ v ∧ Matches up takes items v := by
  constructor
  · intro h
    cases h with
    | star h => exact ⟨_, _, rfl, h⟩
  · rintro ⟨u, v, rfl, h⟩
    exact .star h

theorem matches_cons (hstar : item ≠ .star) :
    Matches up takes (item :: items) string ↔
      ∃ c v, string = c :: v ∧ item.takes up takes c ∧ Matches up takes items v := by
  constructor
  · intro h
    cases h with
    | star => exact absurd rfl hstar
    | any h => exact ⟨_, _, rfl, trivial, h⟩
    | char h => exact ⟨_, _, rfl, rfl, h⟩
    | set ht h => exact ⟨_, _, rfl, ht, h⟩
  · rintro ⟨c, v, rfl, ht, h⟩
    cases item with
    | star => exact absurd rfl hstar
    | any => exact .any h
    | char x => exact ht ▸ .char h
    | set body => exact .set ht h

end

/-! ## The search -/

/-- A part of the string fits the items, and what comes behind them has the outcome `x` on the rest of it. -/
def Reaches (up : Char16 → Char16) (items : List Item) (behind : List Char16 → Option Bool) (x : Option Bool)
    (string : List Char16) : Prop :=
  ∃ u v, string = u ++ v ∧ Matches up (Takes up) items (u.map up) ∧ behind v = x

section
variable {items : List Item} {item : Item} {behind : List Char16 → Option Bool} {x : Option Bool}

theorem reaches_nil {string : List Char16} : Reaches up [] behind x string ↔ behind string = x := by
  constructor
  · rintro ⟨u, v, rfl, hm, hv⟩
    obtain rfl := List.map_eq_nil_iff.mp (matches_nil.mp hm)
    exact hv
  · exact fun h => ⟨[], string, rfl, .nil, h⟩

theorem reaches_star {string : List Char16} :
    Reaches up (.star :: items) behind x string ↔ ∃ tail, tail <:+ string ∧ Reaches up items behind x tail := by
  constructor
  · rintro ⟨u, v, rfl, hm, hv⟩
    obtain ⟨a, b, hab, hm⟩ := matches_star.mp hm
    obtain ⟨u₁, u₂, rfl, -, rfl⟩ := List.map_eq_append_iff.mp hab
    exact ⟨u₂ ++ v, ⟨u₁, (List.append_assoc _ _ _).symm⟩, u₂, v, rfl, hm, hv⟩
  · rintro ⟨tail, ⟨a, rfl⟩, u, v, rfl, hm, hv⟩
    exact ⟨a ++ u, v, (List.append_assoc _ _ _).symm, List.map_append ▸ .star hm, hv⟩

theorem not_reaches_cons_nil (hstar : item ≠ .star) : ¬Reaches up (item :: items) behind x [] := by
  rintro ⟨u, v, huv, hm, -⟩
  obtain ⟨rfl, -⟩ := List.append_eq_nil_iff.mp huv.symm
  obtain ⟨c, v, h, -⟩ := (matches_cons hstar).mp hm
  cases h

theorem reaches_cons_cons (hstar : item ≠ .star) {charC : Char16} {string : List Char16} :
    Reaches up (item :: items) behind x (charC :: string) ↔
      item.takes up (Takes up) (up charC) ∧ Reaches up items behind x string := by
  constructor
  · rintro ⟨u, v, huv, hm, hv⟩
    obtain ⟨c, w, hcw, ht, hm⟩ := (matches_cons hstar).mp hm
    cases u with
    | nil => cases hcw
    | cons y u =>
      obtain ⟨rfl, rfl⟩ := List.cons.inj huv
      obtain ⟨rfl, rfl⟩ := List.cons.inj hcw
      exact ⟨ht, u, v, rfl, hm, hv⟩
  · rintro ⟨ht, u, v, rfl, hm, hv⟩
    exact ⟨charC :: u, v, rfl, (matches_cons hstar).mpr ⟨_, _, rfl, ht, hm⟩, hv⟩

/-- The outcome is `x` on the strings that are `Good`, and no match on the others. -/
def Decides (f : List Char16 → Option Bool) (Good : List Char16 → Prop) (x : Option Bool) : Prop :=
  ∀ string, (Good string → f string = x) ∧ (¬Good string → f string = some false)

/-- The loop of a `*` stops at the first end of the string that has another outcome than no match. -/
theorem anyTail_decides {f : List Char16 → Option Bool} {Good : List Char16 → Prop} (hx : x = none ∨ x = some true)
    (h : Decides f Good x) : Decides (anyTail f) (fun string => ∃ tail, tail <:+ string ∧ Good tail) x := by
  intro string
  induction string with
  | nil =>
    refine ⟨?_, fun hn => (h []).2 fun hg => hn ⟨[], List.suffix_refl _, hg⟩⟩
    rintro ⟨tail, htail, hg⟩
    obtain rfl := List.suffix_nil.mp htail
    exact (h []).1 hg
  | cons charC string ih =>
    simp only [anyTail]
    by_cases hg : Good (charC :: string)
    · refine ⟨fun _ => ?_, fun hn => absurd ⟨_, List.suffix_refl _, hg⟩ hn⟩
      rw [(h _).1 hg]
      rcases hx with rfl | rfl <;> rfl
    · rw [(h _).2 hg]
      refine ⟨?_, fun hn => ih.2 fun ⟨tail, htail, hg⟩ => hn ⟨tail, htail.trans (List.suffix_cons _ _), hg⟩⟩
      rintro ⟨tail, htail, hgood⟩
      rcases List.suffix_cons_iff.mp htail with rfl | htail
      · exact absurd hgood hg
      · exact ih.1 ⟨tail, htail, hgood⟩

/-- Items in front of a pattern. -/
theorem engMetaiMatch_decides {pattern : List Char16} (hx : x = none ∨ x = some true)
    (hplain : ∀ item ∈ items, item.Plain) (hchar : ∀ c, Item.char c ∈ items → up c ≠ up 0)
    (h : ∀ string, engMetaiMatch up pattern string = some false ∨ engMetaiMatch up pattern string = x) :
    Decides (engMetaiMatch up (items.flatMap Item.chars ++ pattern))
      (Reaches up items (engMetaiMatch up pattern) x) x := by
  induction items with
  | nil =>
    intro string
    rw [reaches_nil]
    exact ⟨fun hs => hs, fun hs => (h string).resolve_right hs⟩
  | cons item items ih =>
    have ih := ih (fun i hi => hplain i (List.mem_cons_of_mem _ hi)) fun c hc => hchar c (List.mem_cons_of_mem _ hc)
    have hitem := hplain item List.mem_cons_self
    rw [List.flatMap_cons, List.append_assoc]
    intro string
    by_cases hstar : item = .star
    · subst hstar
      rw [reaches_star, Item.chars, List.singleton_append, engMetaiMatch_star]
      exact anyTail_decides hx ih string
    cases string with
    | nil =>
      refine ⟨fun hr => absurd hr (not_reaches_cons_nil hstar), fun _ => ?_⟩
      exact engMetaiMatch_item_nil hitem hstar (fun c hc => hchar c (hc ▸ List.mem_cons_self)) _
    | cons charC string =>
      obtain ⟨htakes, hnot⟩ := engMetaiMatch_item_cons up hitem hstar (items.flatMap Item.chars ++ pattern)
        charC string
      rw [reaches_cons_cons hstar]
      by_cases ht : item.takes up (Takes up) (up charC)
      · rw [htakes ht]
        exact ⟨fun hr => (ih string).1 hr.2, fun hn => (ih string).2 fun hr => hn ⟨ht, hr⟩⟩
      · exact ⟨fun hr => absurd hr.1 ht, fun _ => hnot ht⟩

end

/-! ## The items of a pattern -/

/-- The set at the end of a pattern. -/
def unclosedChars : Option (List Char16) → List Char16
  | none => []
  | some body => openBracket :: body

structure Parses (p : Parsed) (pattern : List Char16) : Prop where
  chars : pattern = p.items.flatMap Item.chars ++ unclosedChars p.unclosed
  plain : ∀ item ∈ p.items, item.Plain
  unclosed : ∀ body, p.unclosed = some body → closeBracket ∉ body

theorem Parses.cons {p : Parsed} {pattern : List Char16} (h : Parses p pattern) (item : Item) (hitem : item.Plain) :
    Parses (p.cons item) (item.chars ++ pattern) :=
  ⟨by rw [Parsed.cons, List.flatMap_cons, List.append_assoc, ← h.chars], List.forall_mem_cons.mpr ⟨hitem, h.plain⟩,
    h.unclosed⟩

theorem parseFrom_parses (pattern : List Char16) :
    Parses (parseFrom none pattern) pattern ∧
      ∀ body, closeBracket ∉ body → Parses (parseFrom (some body) pattern) (openBracket :: (body ++ pattern)) := by
  induction pattern with
  | nil =>
    refine ⟨⟨rfl, nofun, nofun⟩, fun body hbody => ⟨by rw [List.append_nil]; rfl, nofun, ?_⟩⟩
    rintro _ ⟨rfl⟩
    exact hbody
  | cons c cs ih =>
    refine ⟨?_, fun body hbody => ?_⟩
    · rw [parseFrom]
      split
      · rename_i hc
        exact hc ▸ ih.1.cons .star trivial
      split
      · rename_i hc
        exact hc ▸ ih.1.cons .any trivial
      split
      · rename_i hc
        exact hc ▸ ih.2 [] List.not_mem_nil
      · rename_i h1 h2 h3
        exact ih.1.cons (.char c) ⟨h1, h2, h3⟩
    · rw [parseFrom]
      split
      · rename_i hc
        have h := ih.1.cons (.set body) hbody
        simpa [Item.chars, hc] using h
      · rename_i hc
        have h := ih.2 (body ++ [c]) (by simp [hbody, Ne.symm hc])
        simpa using h

theorem parse_parses (pattern : List Char16) : Parses (parse pattern) pattern := (parseFrom_parses pattern).1

/-! ## Well formed sets -/

theorem takes_iff_member {body : List Char16} (h : SetOk body) (c : Char16) : Takes up body c ↔ Member up body c := by
  constructor
  · rintro ⟨l, x, r, hbody, ht⟩
    by_cases hx : x = dash
    · subst hx
      obtain ⟨⟨a, ha, hadash⟩, b, hb, hbdash⟩ := h.2 l r hbody
      obtain ⟨b', hb', hrange | heq⟩ := takenAt_dash.mp ht
      · right
        obtain rfl := Option.some.inj (hb.symm.trans hb')
        obtain ⟨l, rfl⟩ := List.getLast?_eq_some_iff.mp ha
        obtain ⟨r, rfl⟩ := List.head?_eq_some_iff.mp hb
        exact ⟨l, a, b, r, by simpa using hbody, hadash, hbdash, by simpa using hrange.1, hrange.2⟩
      · obtain rfl := Option.some.inj (hb.symm.trans hb')
        obtain ⟨r, rfl⟩ := List.head?_eq_some_iff.mp hb
        exact .inl ⟨b, by simp [hbody], hbdash, heq⟩
    · exact .inl ⟨x, by simp [hbody], hx, (takenAt_other hx).mp ht⟩
  · rintro (⟨x, hmem, hx, hc⟩ | ⟨l, a, b, r, hbody, -, -, h1, h2⟩)
    · obtain ⟨l, r, rfl⟩ := List.append_of_mem hmem
      exact ⟨l, x, r, rfl, (takenAt_other hx).mpr hc⟩
    · exact ⟨l ++ [a], dash, b :: r, by simpa using hbody, takenAt_dash.mpr ⟨b, rfl, .inl ⟨by simpa using h1, h2⟩⟩⟩

theorem Matches.mono {takes takes' : List Char16 → Char16 → Prop} {items : List Item} {string : List Char16}
    (h : Matches up takes items string) (hset : ∀ body c, Item.set body ∈ items → takes body c → takes' body c) :
    Matches up takes' items string := by
  induction h with
  | nil => exact .nil
  | star _ ih => exact .star (ih fun body c hb => hset body c (List.mem_cons_of_mem _ hb))
  | any _ ih => exact .any (ih fun body c hb => hset body c (List.mem_cons_of_mem _ hb))
  | char _ ih => exact .char (ih fun body c hb => hset body c (List.mem_cons_of_mem _ hb))
  | set ht _ ih =>
    exact .set (hset _ _ List.mem_cons_self ht) (ih fun body c hb => hset body c (List.mem_cons_of_mem _ hb))

theorem Matches.sets {takes : List Char16 → Char16 → Prop} {items : List Item} {string : List Char16}
    (h : Matches up takes items string) {body : List Char16} (hb : Item.set body ∈ items) : ∃ c, takes body c := by
  induction h with
  | nil => cases hb
  | star _ ih | any _ ih | char _ ih => exact ih (by simpa using hb)
  | set ht _ ih =>
    rcases List.mem_cons.mp hb with heq | hb
    · cases heq
      exact ⟨_, ht⟩
    · exact ih hb

theorem PatternOk.inLanguage {pattern : List Char16} (h : PatternOk pattern) (string : List Char16) :
    InLanguage up pattern string ↔ Matches up (Takes up) (parse pattern).items string := by
  constructor
  · rintro ⟨-, hm⟩
    exact hm.mono fun body c hb hc => (takes_iff_member (h.2 body hb) c).mpr hc.2
  · intro hm
    exact ⟨h.1, hm.mono fun body c hb hc => ⟨h.2 body hb, (takes_iff_member (h.2 body hb) c).mp hc⟩⟩

theorem InLanguage.patternOk {pattern string : List Char16} (h : InLanguage up pattern string) : PatternOk pattern := by
  refine ⟨h.1, fun body hb => ?_⟩
  obtain ⟨c, hok, -⟩ := h.2.sets hb
  exact hok

/-! ## The whole match -/

/-- What the match is promised to do. -/
def Correct (up : Char16 → Char16) (pattern string : List Char16) : Prop :=
  ∃ r, engMetaiMatch up pattern string = some r ∧ (r = true ↔ InLanguage up pattern (string.map up))

theorem correct_closed {pattern string : List Char16} (h : Decides (engMetaiMatch up pattern)
    (fun string => Matches up (Takes up) (parse pattern).items (string.map up)) (some true)) :
    Correct up pattern string ↔
      PatternOk pattern ∨ ¬Matches up (Takes up) (parse pattern).items (string.map up) := by
  by_cases hm : Matches up (Takes up) (parse pattern).items (string.map up)
  · have hr := (h string).1 hm
    constructor
    · rintro ⟨r, hr', hiff⟩
      rw [hr] at hr'
      exact .inl (hiff.mp (Option.some.inj hr').symm).patternOk
    · rintro (hok | hn)
      · exact ⟨true, hr, fun _ => (hok.inLanguage _).mpr hm, fun _ => rfl⟩
      · exact absurd hm hn
  · refine ⟨fun _ => .inr hm, fun _ => ⟨false, (h string).2 hm, nofun, fun hl => ?_⟩⟩
    exact absurd ((hl.patternOk.inLanguage _).mp hl) hm

theorem correct_unclosed {pattern string : List Char16} {Good : List Char16 → Prop}
    (hclosed : (parse pattern).unclosed ≠ none) (h : Decides (engMetaiMatch up pattern) Good none) :
    Correct up pattern string ↔ PatternOk pattern ∨ ¬Good string := by
  by_cases hg : Good string
  · constructor
    · rintro ⟨r, hr, -⟩
      rw [(h string).1 hg] at hr
      cases hr
    · rintro (hok | hn)
      · exact absurd hok.1 hclosed
      · exact absurd hg hn
  · exact ⟨fun _ => .inr hg, fun _ => ⟨false, (h string).2 hg, nofun, fun hl => absurd hl.1 hclosed⟩⟩

theorem engMetaiMatch_nil (string : List Char16) : engMetaiMatch up [] string = some string.isEmpty := by
  rw [engMetaiMatch]

/-- The outcome of a set that is not closed. -/
theorem engMetaiMatch_unclosed {body : List Char16} (h : closeBracket ∉ body) (string : List Char16) :
    (engMetaiMatch up (openBracket :: body) string = some false ∨ engMetaiMatch up (openBracket :: body) string = none) ∧
      (engMetaiMatch up (openBracket :: body) string = none ↔
        ∃ c v, string = c :: v ∧ (body.getLast? = some dash → Takes up body (up c))) := by
  cases string with
  | nil =>
    rw [engMetaiMatch_set_nil]
    exact ⟨.inl rfl, nofun, by rintro ⟨c, v, h, -⟩; cases h⟩
  | cons c v =>
    obtain ⟨hbehind, hfailed⟩ := matchSet_unclosed up c h
    rw [engMetaiMatch_set_cons]
    by_cases hc : body.getLast? = some dash → Takes up body (up c)
    · rw [hbehind hc]
      exact ⟨.inr rfl, fun _ => ⟨c, v, rfl, hc⟩, fun _ => rfl⟩
    · rw [hfailed hc]
      refine ⟨.inl rfl, nofun, ?_⟩
      rintro ⟨c', v', heq, hc'⟩
      obtain ⟨rfl, rfl⟩ := List.cons.inj heq
      exact absurd hc' hc

theorem reaches_end {items : List Item} {string : List Char16} :
    Reaches up items (engMetaiMatch up []) (some true) string ↔ Matches up (Takes up) items (string.map up) := by
  constructor
  · rintro ⟨u, v, rfl, hm, hv⟩
    rw [engMetaiMatch_nil, Option.some.injEq, List.isEmpty_iff] at hv
    rwa [hv, List.append_nil]
  · exact fun hm => ⟨string, [], (List.append_nil _).symm, hm, engMetaiMatch_nil []⟩

theorem reaches_unclosed {items : List Item} {body string : List Char16} (h : closeBracket ∉ body) :
    Reaches up items (engMetaiMatch up (openBracket :: body)) none string ↔
      ∃ u c v, string.map up = u ++ c :: v ∧ Matches up (Takes up) items u ∧
        (body.getLast? = some dash → Takes up body c) := by
  constructor
  · rintro ⟨u, w, rfl, hm, hw⟩
    obtain ⟨c, v, rfl, ht⟩ := (engMetaiMatch_unclosed h w).2.mp hw
    exact ⟨u.map up, up c, v.map up, by rw [List.map_append, List.map_cons], hm, ht⟩
  · rintro ⟨u, c, v, hstring, hm, ht⟩
    obtain ⟨u, w, rfl, rfl, hw⟩ := List.map_eq_append_iff.mp hstring
    obtain ⟨c, v, rfl, rfl, -⟩ := List.map_eq_cons_iff.mp hw
    exact ⟨u, c :: v, rfl, hm, (engMetaiMatch_unclosed h _).2.mpr ⟨c, v, rfl, ht⟩⟩

/-- The match is right if the pattern is well formed, and where it is not, on the strings that it is not misread on. -/
theorem correct_iff {pattern : List Char16} (hzero : ∀ c ∈ pattern, up c ≠ up 0) (string : List Char16) :
    Correct up pattern string ↔ PatternOk pattern ∨ ¬Misread up pattern (string.map up) := by
  have hp := parse_parses pattern
  have hchar : ∀ c, Item.char c ∈ (parse pattern).items → up c ≠ up 0 := fun c hc => by
    refine hzero c ?_
    rw [hp.chars]
    exact List.mem_append_left _ (List.mem_flatMap.mpr ⟨_, hc, List.mem_singleton_self c⟩)
  unfold Misread
  cases hu : (parse pattern).unclosed with
  | none =>
    have hd := engMetaiMatch_decides (.inr rfl) hp.plain hchar fun string => by
      rw [engMetaiMatch_nil]
      cases string.isEmpty
      · exact .inl rfl
      · exact .inr rfl
    have hchars := hp.chars
    rw [hu, unclosedChars] at hchars
    rw [← hchars] at hd
    exact correct_closed fun s =>
      ⟨fun hm => (hd s).1 (reaches_end.mpr hm), fun hn => (hd s).2 (mt reaches_end.mp hn)⟩
  | some body =>
    have hbody := hp.unclosed body hu
    have hd := engMetaiMatch_decides (.inl rfl) hp.plain hchar fun string => (engMetaiMatch_unclosed hbody string).1
    have hchars := hp.chars
    rw [hu, unclosedChars] at hchars
    rw [← hchars] at hd
    simp only
    rw [← reaches_unclosed hbody]
    exact correct_unclosed (by rw [hu]; nofun) hd

end

/-! ## Upper case -/

theorem extend_upper_ne_zero (charSigned : Bool) : ∀ n < 256, n ≠ 0 →
    extend charSigned (mEngUpperMap (UInt8.ofNat n)) ≠ 0 := by
  cases charSigned <;> decide +kernel

theorem toUpper_ne_zero {charSigned : Bool} {c : Char16} (h : c ≠ 0) :
    toUpper charSigned c ≠ toUpper charSigned 0 := by
  have h0 : toUpper charSigned 0 = 0 := by cases charSigned <;> rfl
  rw [h0, toUpper]
  split
  · rename_i hle
    have hlt : c.toNat < 256 := Nat.lt_succ_of_le (UInt16.le_iff_toNat_le.mp hle)
    have hc : c.toUInt8 = UInt8.ofNat c.toNat := rfl
    rw [hc]
    exact extend_upper_ne_zero charSigned c.toNat hlt fun hz => h (UInt16.toNat_inj.mp hz)
  · exact h

/-- The match is right exactly on the well formed patterns and on the strings that no malformed set is misread on. -/
theorem engMetaiMatch_correct_iff (charSigned : Bool) {pattern : List Char16} (hnull : 0 ∉ pattern)
    (string : List Char16) :
    (∃ r, engMetaiMatch (toUpper charSigned) pattern string = some r ∧
      (r = true ↔ InLanguage (toUpper charSigned) pattern (string.map (toUpper charSigned)))) ↔
    PatternOk pattern ∨ ¬Misread (toUpper charSigned) pattern (string.map (toUpper charSigned)) :=
  @correct_iff (toUpper charSigned) pattern (fun _ hc => toUpper_ne_zero fun h0 => hnull (h0 ▸ hc)) string

/-- `*[a-c]?`. -/
def samplePattern : List Char16 := [star, openBracket, 0x61, dash, 0x63, closeBracket, questionMark]

theorem samplePattern_ok : PatternOk samplePattern := by
  have hparse : parse samplePattern = ⟨[.star, .set [0x61, dash, 0x63], .any], none⟩ := rfl
  rw [PatternOk, hparse]
  refine ⟨rfl, fun body hb => ?_⟩
  obtain rfl : body = [0x61, dash, 0x63] := by simpa using hb
  refine ⟨by decide, fun l r h => ?_⟩
  match l, h with
  | [], h => exact absurd (List.cons.inj h).1 (by decide)
  | [x], h =>
    obtain ⟨rfl, hr⟩ := List.cons.inj h
    obtain ⟨-, rfl⟩ := List.cons.inj hr
    exact ⟨⟨_, rfl, by decide⟩, _, rfl, by decide⟩
  | [x, y], h => exact absurd (List.cons.inj (List.cons.inj (List.cons.inj h).2).2).1 (by decide)
  | x :: y :: z :: l, h => simp at h

theorem engMetaiMatch_correct_sample :
    ∃ r, engMetaiMatch (toUpper true) samplePattern [0x78, 0x62, 0x79] = some r ∧
      (r = true ↔ InLanguage (toUpper true) samplePattern ([0x78, 0x62, 0x79].map (toUpper true))) :=
  (engMetaiMatch_correct_iff true (by decide) _).mpr (.inl samplePattern_ok)

/-- `[A` against `A`. The pattern is read behind its null. -/
theorem unclosed_set_overread :
    ¬∃ r, engMetaiMatch (toUpper false) [openBracket, 0x41] [0x41] = some r ∧
      (r = true ↔ InLanguage (toUpper false) [openBracket, 0x41] ([0x41].map (toUpper false))) := by
  have h : engMetaiMatch (toUpper false) [openBracket, 0x41] [0x41] = none := by
    rw [engMetaiMatch_set_cons]
    rfl
  rintro ⟨r, hr, -⟩
  rw [h] at hr
  cases hr

end Udk.Collation
