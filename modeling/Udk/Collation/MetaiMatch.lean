import Mathlib.Algebra.GroupWithZero.Nat
import Mathlib.Data.List.Basic

/-! # The wildcard match of the English collation

A string is the characters before its null. A read behind the null is a fault.
-/

namespace Udk.Collation

abbrev Char16 := UInt16

/-! ## Upper case -/

/-- `mEngUpperMap`. -/
def mEngUpperMap (index : UInt8) : UInt8 :=
  if (0x61 ≤ index ∧ index ≤ 0x7a) ∨ (0xe0 ≤ index ∧ index ≤ 0xf6) ∨ (0xf8 ≤ index ∧ index ≤ 0xfe) then index - 0x20
  else index

/-- A `CHAR8` as a `CHAR16`, for compilers with and without a sign in `char`. -/
def extend (charSigned : Bool) (c : UInt8) : Char16 :=
  if charSigned = true ∧ 0x80 ≤ c then c.toUInt16 + 0xff00 else c.toUInt16

/-- `TO_UPPER`. -/
def toUpper (charSigned : Bool) (a : Char16) : Char16 :=
  if a ≤ 0xff then extend charSigned (mEngUpperMap a.toUInt8) else a

/-! ## `EngMetaiMatch` -/

def star : Char16 := 0x2a
def dash : Char16 := 0x2d
def questionMark : Char16 := 0x3f
def openBracket : Char16 := 0x5b
def closeBracket : Char16 := 0x5d

/-- How the loop over the characters of a set ends: no match, a match with `Pattern` at what comes next, or `Pattern`
behind its null. -/
inductive Scan
  | failed
  | matched (pattern : List Char16)
  | behindNull

/-- The loop, from a `CharP = *Pattern++` on. At a `-` it looks at the next character without going there. -/
def scanSet (up : Char16 → Char16) (charC : Char16) : Char16 → List Char16 → Scan
  | _, [] => .behindNull
  | index3, charP :: pattern =>
    if charP = closeBracket then .failed
    else if charP = dash then
      match pattern.head? with
      | none => .failed
      | some high =>
        if high = closeBracket then .failed
        else if up index3 ≤ up charC ∧ up charC ≤ up high then .matched pattern
        else if up charC = up high then .matched pattern
        else scanSet up charC high pattern
    else if up charC = up charP then .matched pattern
    else scanSet up charC charP pattern

/-- Behind the closing bracket, or behind the null. -/
def skipSet : List Char16 → Option (List Char16)
  | [] => none
  | charP :: pattern => if charP = closeBracket then some pattern else skipSet pattern

theorem skipSet_length {pattern rest : List Char16} (h : skipSet pattern = some rest) :
    rest.length < pattern.length := by
  induction pattern with
  | nil => cases h
  | cons charP pattern ih =>
    rw [skipSet] at h
    split at h
    · cases h
      exact Nat.lt_succ_self _
    · exact Nat.lt_succ_of_lt (ih h)

theorem scanSet_length {up : Char16 → Char16} {charC index3 : Char16} {pattern rest : List Char16}
    (h : scanSet up charC index3 pattern = .matched rest) : rest.length ≤ pattern.length := by
  induction pattern generalizing index3 with
  | nil => cases h
  | cons charP pattern ih =>
    have hrec {i : Char16} (h : scanSet up charC i pattern = .matched rest) : rest.length ≤ pattern.length + 1 :=
      Nat.le_succ_of_le (ih h)
    rw [List.length_cons]
    rw [scanSet] at h
    split at h
    · cases h
    split at h
    · split at h
      · cases h
      · split at h
        · cases h
        split at h
        · cases h
          exact Nat.le_succ _
        split at h
        · cases h
          exact Nat.le_succ _
        · exact hrec h
    split at h
    · cases h
      exact Nat.le_succ _
    · exact hrec h

/-- One character against a set, with `Pattern` behind the opening bracket: whether it matches, and then what comes
behind the set. -/
inductive SetMatch
  | failed
  | behindNull
  | behindSet (pattern : List Char16)

def matchSet (up : Char16 → Char16) (charC : Char16) (pattern : List Char16) : SetMatch :=
  match scanSet up charC 0 pattern with
  | .failed => .failed
  | .behindNull => .behindNull
  | .matched pattern =>
    match skipSet pattern with
    | none => .behindNull
    | some pattern => .behindSet pattern

theorem matchSet_length {up : Char16 → Char16} {charC : Char16} {pattern rest : List Char16}
    (h : matchSet up charC pattern = .behindSet rest) : rest.length < pattern.length := by
  rw [matchSet] at h
  split at h
  · cases h
  · cases h
  · rename_i hscan
    split at h
    · cases h
    · rename_i hskip
      cases h
      exact Nat.lt_of_lt_of_le (skipSet_length hskip) (scanSet_length hscan)

/-- The loop of a `*`: the rest of the pattern against every end of the string. -/
def anyTail (rest : List Char16 → Option Bool) : List Char16 → Option Bool
  | [] => rest []
  | charC :: string => do
    if ← rest (charC :: string) then return true
    anyTail rest string

def engMetaiMatch (up : Char16 → Char16) (pattern string : List Char16) : Option Bool :=
  match pattern with
  | [] => some string.isEmpty
  | charP :: pattern =>
    if charP = star then anyTail (fun string => engMetaiMatch up pattern string) string
    else if charP = questionMark then
      match string with
      | [] => some false
      | _ :: string => engMetaiMatch up pattern string
    else if charP = openBracket then
      match string with
      | [] => some false
      | charC :: string =>
        match _hset : matchSet up charC pattern with
        | .failed => some false
        | .behindNull => none
        | .behindSet behind => engMetaiMatch up behind string
    else
      match string with
      | [] => if up 0 ≠ up charP then some false else none
      | charC :: string => if up charC ≠ up charP then some false else engMetaiMatch up pattern string
termination_by pattern.length
decreasing_by
  all_goals simp only [List.length_cons]
  · exact Nat.lt_succ_self _
  · exact Nat.lt_succ_self _
  · exact Nat.lt_succ_of_lt (matchSet_length _hset)
  · exact Nat.lt_succ_self _

/-! ## The language of a pattern -/

inductive Item
  | star
  | any
  | char (c : Char16)
  | set (body : List Char16)

/-- The items of a pattern, and the characters of a set at its end that is never closed. -/
structure Parsed where
  items : List Item
  unclosed : Option (List Char16)

def Parsed.cons (item : Item) (p : Parsed) : Parsed := { p with items := item :: p.items }

/-- With the characters of the set that is open. -/
def parseFrom : Option (List Char16) → List Char16 → Parsed
  | unclosed, [] => ⟨[], unclosed⟩
  | some body, c :: cs =>
    if c = closeBracket then (parseFrom none cs).cons (.set body) else parseFrom (some (body ++ [c])) cs
  | none, c :: cs =>
    if c = star then (parseFrom none cs).cons .star
    else if c = questionMark then (parseFrom none cs).cons .any
    else if c = openBracket then parseFrom (some []) cs
    else (parseFrom none cs).cons (.char c)

def parse (pattern : List Char16) : Parsed := parseFrom none pattern

/-- The upper case strings of the items, where `takes` says which upper case characters a set takes. -/
inductive Matches (up : Char16 → Char16) (takes : List Char16 → Char16 → Prop) : List Item → List Char16 → Prop
  | nil : Matches up takes [] []
  | star {items u v} (h : Matches up takes items v) : Matches up takes (.star :: items) (u ++ v)
  | any {items c v} (h : Matches up takes items v) : Matches up takes (.any :: items) (c :: v)
  | char {items c v} (h : Matches up takes items v) : Matches up takes (.char c :: items) (up c :: v)
  | set {items body c v} (ht : takes body c) (h : Matches up takes items v) :
      Matches up takes (.set body :: items) (c :: v)

/-- Not empty, and every `-` is between two other characters. -/
def SetOk (body : List Char16) : Prop :=
  body ≠ [] ∧ ∀ l r, body = l ++ dash :: r → (∃ a, l.getLast? = some a ∧ a ≠ dash) ∧ ∃ b, r.head? = some b ∧ b ≠ dash

/-- A character is listed, or it is in the range between the two characters around a `-`. -/
def Member (up : Char16 → Char16) (body : List Char16) (c : Char16) : Prop :=
  (∃ x ∈ body, x ≠ dash ∧ c = up x) ∨
    ∃ l a b r, body = l ++ a :: dash :: b :: r ∧ a ≠ dash ∧ b ≠ dash ∧ up a ≤ c ∧ c ≤ up b

/-- A set that is not well formed has no member. -/
def StrictMember (up : Char16 → Char16) (body : List Char16) (c : Char16) : Prop := SetOk body ∧ Member up body c

/-- The pattern as it is meant. A pattern with a set that is not closed has no string. -/
def InLanguage (up : Char16 → Char16) (pattern string : List Char16) : Prop :=
  (parse pattern).unclosed = none ∧ Matches up (StrictMember up) (parse pattern).items string

/-- No set of the pattern is malformed. -/
def PatternOk (pattern : List Char16) : Prop :=
  (parse pattern).unclosed = none ∧ ∀ body, Item.set body ∈ (parse pattern).items → SetOk body

/-! ## The pattern as it is read -/

/-- At a `-` the next character is listed, and it ends a range that begins at the character before, or at 0. -/
def TakenAt (up : Char16 → Char16) (c before x : Char16) (r : List Char16) : Prop :=
  if x = dash then ∃ b, r.head? = some b ∧ (up before ≤ c ∧ c ≤ up b ∨ c = up b) else c = up x

/-- What the loop over the characters of a set finds, in malformed sets too. -/
def Takes (up : Char16 → Char16) (body : List Char16) (c : Char16) : Prop :=
  ∃ l x r, body = l ++ x :: r ∧ TakenAt up c (l.getLastD 0) x r

/-- The string is one that a pattern with malformed sets is misread on: all of it fits the sets as they are read, or
some of it does and a character is left for the set that is not closed. Only if there is no match in this set and a `-`
ends it does the code stop in front of the null. -/
def Misread (up : Char16 → Char16) (pattern string : List Char16) : Prop :=
  match (parse pattern).unclosed with
  | none => Matches up (Takes up) (parse pattern).items string
  | some body => ∃ u c v, string = u ++ c :: v ∧ Matches up (Takes up) (parse pattern).items u ∧
      (body.getLast? = some dash → Takes up body c)

end Udk.Collation
