import Udk.Bytes

/-! # The options of an IP4 header

The options are `OptionLen` bytes from the address `option` on, and more memory lies behind them.
-/

namespace Udk.Ip4

open Bytes

def ip4OptionEop : UInt8 := 0
def ip4OptionNop : UInt8 := 1
def ip4OptionLsrr : UInt8 := 131
def ip4OptionSsrr : UInt8 := 137
def ip4OptionRr : UInt8 := 7
def ip4OptionCopyMask : UInt8 := 0x80

/-! ## `Ip4OptionIsValid` -/

/-- The checks of a source route or a recorded route, with `OptionLen - Cur` bytes of room. -/
def routeIsValid (type : UInt8) (room len point : Nat) (rcvd : Bool) : Bool :=
  if room < len ∨ len < 3 ∨ (len - 3) % 4 ≠ 0 then false
  else if len + 1 < point ∨ point % 4 ≠ 0 then false
  else if type ≠ ip4OptionRr ∧ ((rcvd = true ∧ point ≠ len + 1) ∨ (rcvd = false ∧ point ≠ 4)) then false
  else true

/-- The loop, with fuel for so many rounds. -/
def optionIsValidLoop (m : Memory) (option optionLen : Nat) (rcvd : Bool) : Nat → Nat → Option Bool
  | 0, _ => none
  | fuel + 1, cur =>
    if cur < optionLen then
      let type := m (option + cur)
      let len := (m (option + cur + 1)).toNat
      if type = ip4OptionNop then optionIsValidLoop m option optionLen rcvd fuel (cur + 1)
      else if type = ip4OptionEop then optionIsValidLoop m option optionLen rcvd fuel optionLen
      else if type = ip4OptionLsrr ∨ type = ip4OptionSsrr ∨ type = ip4OptionRr then
        if routeIsValid type (optionLen - cur) len (m (option + cur + 2)).toNat rcvd then
          optionIsValidLoop m option optionLen rcvd fuel (cur + len)
        else some false
      else if optionLen - cur < len ∨ len < 2 then some false
      else optionIsValidLoop m option optionLen rcvd fuel (cur + len)
    else some true

def ip4OptionIsValid (m : Memory) (option optionLen : Nat) (rcvd : Bool) : Option Bool :=
  optionIsValidLoop m option optionLen rcvd (optionLen + 1) 0

/-! ## `Ip4CopyOption` -/

/-- `sizeof (OptBuf)`. -/
def optBufSize : Nat := 40

/-- Bytes into a buffer. A write outside it is a fault. -/
def storeAt (buf : List UInt8) (i : Nat) (bs : List UInt8) : Option (List UInt8) :=
  if i + bs.length ≤ buf.length then some (buf.take i ++ bs ++ buf.drop (i + bs.length)) else none

/-- The loop over the options, with `Next` and `OptBuf`. -/
def copyOptionLoop (m : Memory) (option optionLen : Nat) (firstFragment : Bool) :
    Nat → Nat → Nat → List UInt8 → Option (Nat × List UInt8)
  | 0, _, _, _ => none
  | fuel + 1, cur, next, optBuf =>
    if cur < optionLen then
      let type := m (option + cur)
      let len := (m (option + cur + 1)).toNat
      if type = ip4OptionNop then
        (storeAt optBuf next [ip4OptionNop]).bind fun optBuf =>
          copyOptionLoop m option optionLen firstFragment fuel (cur + 1) (next + 1) optBuf
      else if type = ip4OptionEop then some (next, optBuf)
      else if firstFragment = true ∨ type &&& ip4OptionCopyMask ≠ 0 then
        (storeAt optBuf next (read m (option + cur) len)).bind fun optBuf =>
          copyOptionLoop m option optionLen firstFragment fuel (cur + len) (next + len) optBuf
      else copyOptionLoop m option optionLen firstFragment fuel (cur + len) next optBuf
    else some (next, optBuf)

inductive CopyStatus
  | success
  | bufferTooSmall
  deriving DecidableEq

/-- The status, `*BufLen` and the contents of `Buf`. -/
structure CopyResult where
  status : CopyStatus
  bufLen : Nat
  buf : Option (List UInt8)
  deriving DecidableEq

/-- `(n + 3) & ~0x03`. -/
def roundUp4 (n : Nat) : Nat := (n + 3) / 4 * 4

/-- An `EOP` behind options that do not end at a multiple of 4. -/
def appendEop (next : Nat) (optBuf : List UInt8) : Option (Nat × List UInt8) :=
  if next % 4 ≠ 0 then (storeAt optBuf next [ip4OptionEop]).map fun optBuf => (next + 1, optBuf)
  else some (next, optBuf)

def storeOptions (len next : Nat) (optBuf : List UInt8) (buf : Option (List UInt8)) (bufLen : Nat) :
    Option CopyResult :=
  match buf with
  | none => some ⟨.bufferTooSmall, len, none⟩
  | some buf =>
    if bufLen < len then some ⟨.bufferTooSmall, len, some buf⟩
    else
      (storeAt buf 0 (List.replicate len 0)).bind fun buf =>
        (storeAt buf 0 (optBuf.take next)).map fun buf => ⟨.success, len, some buf⟩

/-- What comes after the loop. -/
def finishCopy (next : Nat) (optBuf : List UInt8) (buf : Option (List UInt8)) (bufLen : Nat) : Option CopyResult :=
  if next = 0 then some ⟨.success, 0, buf⟩
  else
    (appendEop next optBuf).bind fun (next, optBuf) => storeOptions (roundUp4 next) next optBuf buf bufLen

/-- `OptBuf` is not initialized. A null `Buf` is none. -/
def ip4CopyOption (m : Memory) (option optionLen : Nat) (firstFragment : Bool) (optBuf : List UInt8)
    (buf : Option (List UInt8)) (bufLen : Nat) : Option CopyResult :=
  (copyOptionLoop m option optionLen firstFragment (optionLen + 1) 0 0 optBuf).bind fun (next, optBuf) =>
    finishCopy next optBuf buf bufLen

/-! ## What the options are -/

inductive Item
  | nop
  | option (type : UInt8) (data : List UInt8)

/-- The length byte counts the type and itself. -/
def Item.bytes : Item → List UInt8
  | nop => [ip4OptionNop]
  | option type data => type :: UInt8.ofNat (data.length + 2) :: data

/-- Whether the item is in this fragment. -/
def Item.copied (firstFragment : Bool) : Item → Bool
  | nop => true
  | option type _ => firstFragment || decide (type &&& ip4OptionCopyMask ≠ 0)

/-- The data of a route are a pointer and addresses. A source route that comes in is used up, and one that goes out
has not begun. -/
def RouteData (type : UInt8) (rcvd : Bool) (data : List UInt8) : Prop :=
  ∃ point addresses, data = point :: addresses ∧ addresses.length % 4 = 0 ∧ point.toNat ≤ data.length + 3 ∧
    point.toNat % 4 = 0 ∧ (type ≠ ip4OptionRr → point.toNat = if rcvd then data.length + 3 else 4)

def Item.Valid (rcvd : Bool) : Item → Prop
  | nop => True
  | option type data => type ≠ ip4OptionNop ∧ type ≠ ip4OptionEop ∧ data.length + 2 < 256 ∧
      (type = ip4OptionLsrr ∨ type = ip4OptionSsrr ∨ type = ip4OptionRr → RouteData type rcvd data)

/-- The items up to the first `EOP`, and what is left from it on. -/
structure Splits (rcvd : Bool) (bs : List UInt8) (items : List Item) (rest : List UInt8) : Prop where
  bytes : bs = items.flatMap Item.bytes ++ rest
  valid : ∀ item ∈ items, item.Valid rcvd
  rest : rest = [] ∨ rest.head? = some ip4OptionEop

theorem routeIsValid_iff {type : UInt8} {room len point : Nat} {rcvd : Bool} :
    routeIsValid type room len point rcvd = true ↔ len ≤ room ∧ 3 ≤ len ∧ (len - 3) % 4 = 0 ∧ point ≤ len + 1 ∧
      point % 4 = 0 ∧ (type ≠ ip4OptionRr → point = if rcvd then len + 1 else 4) := by
  rw [routeIsValid]
  by_cases h1 : room < len ∨ len < 3 ∨ (len - 3) % 4 ≠ 0
  · rw [if_pos h1]
    exact ⟨nofun, fun h => by omega⟩
  by_cases h2 : len + 1 < point ∨ point % 4 ≠ 0
  · rw [if_neg h1, if_pos h2]
    exact ⟨nofun, fun h => by omega⟩
  rw [if_neg h1, if_neg h2]
  have h3 : len ≤ room ∧ 3 ≤ len ∧ (len - 3) % 4 = 0 ∧ point ≤ len + 1 ∧ point % 4 = 0 := by omega
  cases rcvd <;> simp [h3, or_iff_not_imp_left]

section
variable {m : Memory} {a optionLen cur fuel : Nat} {rcvd first : Bool} {bs rest : List UInt8} {items : List Item}

theorem Item.bytes_length (type : UInt8) (data : List UInt8) : (Item.option type data).bytes.length = data.length + 2 := rfl

theorem Splits.nil (hrest : rest = [] ∨ rest.head? = some ip4OptionEop) : Splits rcvd rest [] rest :=
  ⟨rfl, by simp, hrest⟩

theorem Splits.cons (item : Item) (hv : item.Valid rcvd) (h : Splits rcvd bs items rest) :
    Splits rcvd (item.bytes ++ bs) (item :: items) rest :=
  ⟨by rw [List.flatMap_cons, List.append_assoc, h.bytes], List.forall_mem_cons.mpr ⟨hv, h.valid⟩, h.rest⟩

theorem Splits.tail (item : Item) (h : Splits rcvd (item.bytes ++ bs) (item :: items) rest) :
    Splits rcvd bs items rest := by
  refine ⟨?_, (List.forall_mem_cons.mp h.valid).2, h.rest⟩
  have hbytes := h.bytes
  rw [List.flatMap_cons, List.append_assoc] at hbytes
  exact List.append_cancel_left hbytes

/-! ## What is left of the options -/

/-- The bytes from `Cur` on. -/
def left (m : Memory) (a optionLen cur : Nat) : List UInt8 := read m (a + cur) (optionLen - cur)

theorem left_length : (left m a optionLen cur).length = optionLen - cur := read_length _ _ _

theorem left_none (h : ¬cur < optionLen) : left m a optionLen cur = [] := by
  rw [left, show optionLen - cur = 0 by omega, Bytes.read]

theorem left_append {n : Nat} (h : cur + n ≤ optionLen) :
    left m a optionLen cur = read m (a + cur) n ++ left m a optionLen (cur + n) := by
  rw [left, left, show optionLen - cur = n + (optionLen - (cur + n)) by omega, read_add, Nat.add_assoc]

theorem left_cons (h : cur < optionLen) :
    left m a optionLen cur = m (a + cur) :: left m a optionLen (cur + 1) :=
  left_append (n := 1) h

/-- The option at `Cur`, when its length byte counts at least the two bytes and no more than there are. -/
theorem left_option {len : Nat} (hlen : (m (a + cur + 1)).toNat = len) (h2 : 2 ≤ len)
    (hroom : len ≤ optionLen - cur) :
    read m (a + cur) len = (Item.option (m (a + cur)) (read m (a + cur + 2) (len - 2))).bytes ∧
      left m a optionLen cur = read m (a + cur) len ++ left m a optionLen (cur + len) := by
  refine ⟨?_, left_append (by omega)⟩
  obtain ⟨k, rfl⟩ : ∃ k, len = k + 2 := ⟨len - 2, by omega⟩
  have hbyte : UInt8.ofNat (k + 2) = m (a + cur + 1) := by rw [← hlen, UInt8.ofNat_toNat]
  simp only [Bytes.read, Item.bytes, read_length, Nat.add_sub_cancel, hbyte]

/-! ## What is accepted is a list of items -/

/-- Whether the bytes are items up to their end or an `EOP`. -/
def Accepted (rcvd : Bool) (bs : List UInt8) : Prop := ∃ items rest, Splits rcvd bs items rest

theorem Accepted.option {len : Nat} (hlen : (m (a + cur + 1)).toNat = len) (h2 : 2 ≤ len)
    (hroom : len ≤ optionLen - cur) (hnop : m (a + cur) ≠ ip4OptionNop) (heop : m (a + cur) ≠ ip4OptionEop)
    (hroute : m (a + cur) = ip4OptionLsrr ∨ m (a + cur) = ip4OptionSsrr ∨ m (a + cur) = ip4OptionRr →
      RouteData (m (a + cur)) rcvd (read m (a + cur + 2) (len - 2)))
    (h : Accepted rcvd (left m a optionLen (cur + len))) : Accepted rcvd (left m a optionLen cur) := by
  obtain ⟨items, rest, hs⟩ := h
  obtain ⟨hread, hleft⟩ := left_option hlen h2 hroom
  have hlt := (m (a + cur + 1)).toNat_lt
  have hvalid : (Item.option (m (a + cur)) (read m (a + cur + 2) (len - 2))).Valid rcvd :=
    ⟨hnop, heop, by rw [read_length]; omega, hroute⟩
  exact ⟨_, rest, hleft ▸ hread ▸ hs.cons _ hvalid⟩

/-- The checks of the code are those of the data of a route. -/
theorem routeIsValid_data {type : UInt8} {room len : Nat} (m : Memory) (a : Nat) :
    routeIsValid type room len (m (a + 2)).toNat rcvd = true ↔
      len ≤ room ∧ 3 ≤ len ∧ RouteData type rcvd (read m (a + 2) (len - 2)) := by
  rw [routeIsValid_iff]
  refine and_congr_right fun hroom => and_congr_right fun h3 => ?_
  obtain ⟨k, rfl⟩ : ∃ k, len = k + 3 := ⟨len - 3, by omega⟩
  rw [show k + 3 - 3 = k from rfl, show k + 3 - 2 = k + 1 from rfl, Bytes.read]
  constructor
  · rintro ⟨h1, h2, h3, h4⟩
    refine ⟨_, _, rfl, ?_, ?_, h3, ?_⟩
    · rw [read_length, h1]
    · rw [List.length_cons, read_length]
      exact h2
    · rw [List.length_cons, read_length]
      exact h4
  · rintro ⟨point, addresses, hcons, h1, h2, h3, h4⟩
    obtain ⟨rfl, rfl⟩ := List.cons.inj hcons
    rw [read_length] at h1
    rw [List.length_cons, read_length] at h2 h4
    exact ⟨h1, h2, h3, h4⟩

theorem optionIsValidLoop_sound (m : Memory) (a optionLen : Nat) (rcvd : Bool) (fuel cur : Nat)
    (hfuel : optionLen - cur < fuel) :
    ∃ r, optionIsValidLoop m a optionLen rcvd fuel cur = some r ∧
      (r = true → Accepted rcvd (left m a optionLen cur)) := by
  induction fuel generalizing cur with
  | zero => omega
  | succ fuel ih =>
    rw [optionIsValidLoop]
    split
    case isFalse hcur => exact ⟨true, rfl, fun _ => ⟨[], [], by rw [left_none hcur]; exact .nil (.inl rfl)⟩⟩
    rename_i hcur
    simp only
    split
    · rename_i hnop
      obtain ⟨r, hr, hacc⟩ := ih _ (show optionLen - (cur + 1) < fuel by omega)
      refine ⟨r, hr, fun h => ?_⟩
      obtain ⟨items, rest, hs⟩ := hacc h
      refine ⟨.nop :: items, rest, ?_⟩
      rw [left_cons hcur, hnop]
      exact hs.cons .nop trivial
    rename_i hnop
    split
    · rename_i heop
      obtain ⟨r, hr, -⟩ := ih _ (show optionLen - optionLen < fuel by omega)
      refine ⟨r, hr, fun _ => ⟨[], _, .nil (.inr ?_)⟩⟩
      rw [left_cons hcur, heop]
      rfl
    rename_i heop
    split
    · rename_i htype
      split
      · rename_i hroute
        obtain ⟨hroom, h3, hdata⟩ := (routeIsValid_data m (a + cur)).mp hroute
        obtain ⟨r, hr, hacc⟩ := ih _ (show optionLen - (cur + (m (a + cur + 1)).toNat) < fuel by omega)
        exact ⟨r, hr, fun h => .option rfl (by omega) hroom hnop heop (fun _ => hdata) (hacc h)⟩
      · exact ⟨false, rfl, nofun⟩
    · rename_i htype
      split
      · exact ⟨false, rfl, nofun⟩
      · rename_i hlen
        obtain ⟨r, hr, hacc⟩ := ih _ (show optionLen - (cur + (m (a + cur + 1)).toNat) < fuel by omega)
        exact ⟨r, hr, fun h => .option rfl (by omega) (by omega) hnop heop (fun h => absurd h htype) (hacc h)⟩

/-! ## A list of items is accepted -/

/-- What the two loops see of the next item. -/
structure Front (m : Memory) (a optionLen cur : Nat) (type : UInt8) (data : List UInt8) : Prop where
  typeByte : m (a + cur) = type
  lengthByte : (m (a + cur + 1)).toNat = data.length + 2
  room : cur + (data.length + 2) ≤ optionLen
  dataBytes : read m (a + cur + 2) data.length = data
  bytes : read m (a + cur) (data.length + 2) = (Item.option type data).bytes

theorem Splits.front {type : UInt8} {data : List UInt8}
    (h : Splits rcvd (left m a optionLen cur) (.option type data :: items) rest) :
    Front m a optionLen cur type data ∧ Splits rcvd (left m a optionLen (cur + (data.length + 2))) items rest := by
  have hv : (Item.option type data).Valid rcvd := h.valid _ List.mem_cons_self
  have hbytes := h.bytes
  rw [List.flatMap_cons, List.append_assoc] at hbytes
  have hroom : data.length + 2 ≤ optionLen - cur := by
    rw [← left_length (m := m) (a := a), hbytes, List.length_append, Item.bytes_length]
    omega
  have hleft := left_append (m := m) (a := a) (show cur + (data.length + 2) ≤ optionLen by omega)
  obtain ⟨hread, hrest⟩ := List.append_inj (hleft.symm.trans hbytes) (by rw [read_length, Item.bytes_length])
  have hcons : m (a + cur) :: m (a + cur + 1) :: read m (a + cur + 2) data.length =
      type :: UInt8.ofNat (data.length + 2) :: data := hread
  obtain ⟨htype, hcons⟩ := List.cons.inj hcons
  obtain ⟨hlen, hdata⟩ := List.cons.inj hcons
  refine ⟨⟨htype, ?_, by omega, hdata, hread⟩, ?_⟩
  · rw [hlen, UInt8.toNat_ofNat']
    exact Nat.mod_eq_of_lt hv.2.2.1
  · rw [hleft, hread] at h
    exact h.tail _

theorem Splits.nop (h : Splits rcvd (left m a optionLen cur) (.nop :: items) rest) :
    cur < optionLen ∧ m (a + cur) = ip4OptionNop ∧ Splits rcvd (left m a optionLen (cur + 1)) items rest := by
  have hlt : cur < optionLen := by
    by_contra hn
    have hbytes := h.bytes
    rw [left_none hn] at hbytes
    cases hbytes
  have hbytes := h.bytes
  rw [left_cons hlt] at hbytes
  have hnop := (List.cons.inj hbytes).1
  refine ⟨hlt, hnop, ?_⟩
  rw [left_cons hlt, hnop] at h
  exact h.tail .nop

/-- Without items the options are over, or an `EOP` comes. -/
theorem Splits.over (h : Splits rcvd (left m a optionLen cur) [] rest) :
    ¬cur < optionLen ∨ cur < optionLen ∧ m (a + cur) = ip4OptionEop := by
  by_cases hlt : cur < optionLen
  · have hbytes : left m a optionLen cur = rest := h.bytes
    rw [left_cons hlt] at hbytes
    rcases h.rest with hnil | heop
    · rw [hnil] at hbytes
      cases hbytes
    · rw [← hbytes] at heop
      exact .inr ⟨hlt, Option.some.inj heop⟩
  · exact .inl hlt

theorem optionIsValidLoop_of_splits (h : Splits rcvd (left m a optionLen cur) items rest)
    (hfuel : optionLen - cur < fuel) : optionIsValidLoop m a optionLen rcvd fuel cur = some true := by
  induction items generalizing cur fuel with
  | nil =>
    obtain ⟨fuel, rfl⟩ : ∃ k, fuel = k + 1 := ⟨fuel - 1, by omega⟩
    rcases h.over with hlt | ⟨hlt, heop⟩
    · rw [optionIsValidLoop, if_neg hlt]
    · obtain ⟨fuel, rfl⟩ : ∃ k, fuel = k + 1 := ⟨fuel - 1, by omega⟩
      rw [optionIsValidLoop, if_pos hlt]
      simp only [heop]
      rw [if_neg (by decide), if_pos trivial, optionIsValidLoop, if_neg (Nat.lt_irrefl _)]
  | cons item items ih =>
    obtain ⟨fuel, rfl⟩ : ∃ k, fuel = k + 1 := ⟨fuel - 1, by omega⟩
    cases item with
    | nop =>
      obtain ⟨hlt, hnop, hs⟩ := h.nop
      rw [optionIsValidLoop, if_pos hlt]
      simp only [hnop]
      rw [if_pos trivial]
      exact ih hs (by omega)
    | option type data =>
      obtain ⟨hnop, heop, hlen, hroute⟩ : (Item.option type data).Valid rcvd := h.valid _ List.mem_cons_self
      obtain ⟨front, hs⟩ := h.front
      have hroom := front.room
      rw [optionIsValidLoop, if_pos (by omega)]
      simp only [front.typeByte, front.lengthByte]
      rw [if_neg hnop, if_neg heop]
      have hgo := ih hs (show optionLen - (cur + (data.length + 2)) < fuel by omega)
      split
      · rename_i htype
        rw [if_pos, hgo]
        refine (routeIsValid_data m (a + cur)).mpr ⟨by omega, ?_, ?_⟩
        · obtain ⟨point, addresses, hdata, -⟩ := hroute htype
          rw [hdata, List.length_cons]
          omega
        · rw [Nat.add_sub_cancel, front.dataBytes]
          exact hroute htype
      · rw [if_neg (by omega), hgo]

theorem ip4OptionIsValid_iff :
    ip4OptionIsValid m a optionLen rcvd = some true ↔ Accepted rcvd (read m a optionLen) := by
  obtain ⟨r, hr, hacc⟩ := optionIsValidLoop_sound m a optionLen rcvd (optionLen + 1) 0 (by omega)
  refine ⟨fun h => ?_, fun ⟨items, rest, hs⟩ => ?_⟩
  · rw [ip4OptionIsValid, hr] at h
    exact hacc (Option.some.inj h)
  · exact optionIsValidLoop_of_splits (show Splits _ (left m a optionLen 0) _ _ from hs) (by omega)

theorem ip4OptionIsValid_total (m : Memory) (a optionLen : Nat) (rcvd : Bool) :
    ∃ r, ip4OptionIsValid m a optionLen rcvd = some r := by
  obtain ⟨r, hr, -⟩ := optionIsValidLoop_sound m a optionLen rcvd (optionLen + 1) 0 (by omega)
  exact ⟨r, hr⟩

/-! ## Copying -/

/-- The bytes of the items that go into a fragment. -/
def copiedBytes (first : Bool) (items : List Item) : List UInt8 :=
  (items.filter (Item.copied first)).flatMap Item.bytes

theorem copiedBytes_cons_of_copied {item : Item} (h : item.copied first = true) (items : List Item) :
    copiedBytes first (item :: items) = item.bytes ++ copiedBytes first items := by
  rw [copiedBytes, List.filter_cons_of_pos h, List.flatMap_cons, copiedBytes]

theorem copiedBytes_cons_of_not {item : Item} (h : ¬item.copied first = true) (items : List Item) :
    copiedBytes first (item :: items) = copiedBytes first items := by
  rw [copiedBytes, List.filter_cons_of_neg h, copiedBytes]

theorem copiedBytes_length_le (first : Bool) (items : List Item) :
    (copiedBytes first items).length ≤ (items.flatMap Item.bytes).length := by
  induction items with
  | nil => exact Nat.le_refl _
  | cons item items ih =>
    rw [List.flatMap_cons, List.length_append]
    by_cases h : item.copied first = true
    · rw [copiedBytes_cons_of_copied h, List.length_append]
      omega
    · rw [copiedBytes_cons_of_not h]
      omega

theorem storeAt_eq {buf : List UInt8} {i : Nat} {bs : List UInt8} (h : i + bs.length ≤ buf.length) :
    ∃ buf', storeAt buf i bs = some buf' ∧ buf'.length = buf.length ∧
      buf'.take (i + bs.length) = buf.take i ++ bs ∧ buf'.drop (i + bs.length) = buf.drop (i + bs.length) := by
  have hlen : (buf.take i ++ bs).length = i + bs.length := by
    rw [List.length_append, List.length_take]
    omega
  refine ⟨_, if_pos h, ?_, ?_, ?_⟩
  · rw [List.length_append, hlen, List.length_drop]
    omega
  · rw [← hlen, List.take_left]
  · rw [← hlen, List.drop_left]

/-- The loop puts the items behind what is in `OptBuf`. -/
theorem copyOptionLoop_of_splits {next : Nat} {optBuf : List UInt8} (first : Bool)
    (h : Splits rcvd (left m a optionLen cur) items rest) (hfuel : optionLen - cur < fuel)
    (hroom : next + (optionLen - cur) ≤ optBuf.length) :
    ∃ optBuf', copyOptionLoop m a optionLen first fuel cur next optBuf =
        some (next + (copiedBytes first items).length, optBuf') ∧ optBuf'.length = optBuf.length ∧
      optBuf'.take (next + (copiedBytes first items).length) = optBuf.take next ++ copiedBytes first items := by
  induction items generalizing cur fuel next optBuf with
  | nil =>
    obtain ⟨fuel, rfl⟩ : ∃ k, fuel = k + 1 := ⟨fuel - 1, by omega⟩
    refine ⟨optBuf, ?_, rfl, (List.append_nil _).symm⟩
    rcases h.over with hlt | ⟨hlt, heop⟩
    · rw [copyOptionLoop, if_neg hlt]
      rfl
    · rw [copyOptionLoop, if_pos hlt]
      simp only [heop]
      rw [if_neg (by decide), if_pos trivial]
      rfl
  | cons item items ih =>
    obtain ⟨fuel, rfl⟩ : ∃ k, fuel = k + 1 := ⟨fuel - 1, by omega⟩
    cases item with
    | nop =>
      obtain ⟨hlt, hnop, hs⟩ := h.nop
      obtain ⟨optBuf₁, hstore, hlen₁, htake₁, -⟩ := storeAt_eq (show next + [ip4OptionNop].length ≤ optBuf.length by
        rw [List.length_singleton]; omega)
      obtain ⟨optBuf', hloop, hlen, htake⟩ := ih hs (show optionLen - (cur + 1) < fuel by omega)
        (show next + 1 + (optionLen - (cur + 1)) ≤ optBuf₁.length by omega)
      have hadd : next + (ip4OptionNop :: copiedBytes first items).length =
          next + 1 + (copiedBytes first items).length := by rw [List.length_cons]; omega
      rw [show copiedBytes first (.nop :: items) = ip4OptionNop :: copiedBytes first items from rfl, hadd]
      refine ⟨optBuf', ?_, hlen.trans hlen₁, ?_⟩
      · rw [copyOptionLoop, if_pos hlt]
        simp only [hnop]
        rw [if_pos trivial, hstore, Option.bind_some, hloop]
      · rw [htake, show next + 1 = next + [ip4OptionNop].length from rfl, htake₁, List.append_assoc]
        rfl
    | option type data =>
      obtain ⟨hnop, heop, -, -⟩ : (Item.option type data).Valid rcvd := h.valid _ List.mem_cons_self
      obtain ⟨front, hs⟩ := h.front
      have hend := front.room
      rw [copyOptionLoop, if_pos (by omega)]
      simp only [front.typeByte, front.lengthByte]
      rw [if_neg hnop, if_neg heop, front.bytes]
      by_cases hcopied : (Item.option type data).copied first = true
      · rw [if_pos (by simpa [Item.copied] using hcopied), copiedBytes_cons_of_copied hcopied]
        obtain ⟨optBuf₁, hstore, hlen₁, htake₁, -⟩ :=
          storeAt_eq (show next + (Item.option type data).bytes.length ≤ optBuf.length by
            rw [Item.bytes_length]; omega)
        obtain ⟨optBuf', hloop, hlen, htake⟩ := ih hs (show optionLen - (cur + (data.length + 2)) < fuel by omega)
          (show next + (data.length + 2) + (optionLen - (cur + (data.length + 2))) ≤ optBuf₁.length by omega)
        refine ⟨optBuf', ?_, hlen.trans hlen₁, ?_⟩
        · rw [hstore, Option.bind_some, hloop, List.length_append, Item.bytes_length, Nat.add_assoc]
        · rw [List.length_append, ← Nat.add_assoc, Item.bytes_length, htake, ← Item.bytes_length type data, htake₁,
            List.append_assoc]
      · rw [if_neg (by simpa [Item.copied] using hcopied), copiedBytes_cons_of_not hcopied]
        exact ih hs (by omega) (by omega)

/-- What a caller finds in its buffer. -/
def padded (bs : List UInt8) : List UInt8 := bs ++ List.replicate (roundUp4 bs.length - bs.length) ip4OptionEop

theorem le_roundUp4 (n : Nat) : n ≤ roundUp4 n := by
  unfold roundUp4; omega

theorem padded_length (bs : List UInt8) : (padded bs).length = roundUp4 bs.length := by
  have h := le_roundUp4 bs.length
  rw [padded, List.length_append, List.length_replicate]
  omega

/-- The result of a call, for the bytes that are copied. -/
def copyResult (bs : List UInt8) (buf : Option (List UInt8)) (bufLen : Nat) : CopyResult :=
  match buf with
  | none => ⟨if bs = [] then .success else .bufferTooSmall, roundUp4 bs.length, none⟩
  | some buf =>
    if roundUp4 bs.length ≤ bufLen then
      ⟨.success, roundUp4 bs.length, some (padded bs ++ buf.drop (roundUp4 bs.length))⟩
    else ⟨.bufferTooSmall, roundUp4 bs.length, some buf⟩

theorem storeAt_zero {buf bs : List UInt8} (h : bs.length ≤ buf.length) :
    storeAt buf 0 bs = some (bs ++ buf.drop bs.length) := by
  rw [storeAt, if_pos (by omega), List.take_zero, List.nil_append, Nat.zero_add]

theorem appendEop_eq {optBuf : List UInt8} (hlen : optBuf.length = optBufSize) (hbs : bs.length ≤ optBufSize)
    (htake : optBuf.take bs.length = bs) :
    ∃ k optBuf', appendEop bs.length optBuf = some (bs.length + k, optBuf') ∧
      roundUp4 (bs.length + k) = roundUp4 bs.length ∧ optBuf'.take (bs.length + k) = bs ++ List.replicate k 0 := by
  by_cases h : bs.length % 4 ≠ 0
  · obtain ⟨optBuf', hstore, -, htake', -⟩ := storeAt_eq (show bs.length + [ip4OptionEop].length ≤ optBuf.length by
      rw [hlen, List.length_singleton]
      simp only [optBufSize] at hbs ⊢
      omega)
    refine ⟨1, optBuf', ?_, by unfold roundUp4; omega, ?_⟩
    · rw [appendEop, if_pos h, hstore, Option.map_some]
    · rw [show bs.length + 1 = bs.length + [ip4OptionEop].length from rfl, htake', htake]
      rfl
  · exact ⟨0, optBuf, if_neg h, rfl, by rw [Nat.add_zero, htake, List.replicate_zero, List.append_nil]⟩

theorem storeOptions_eq {next : Nat} {optBuf : List UInt8} {buf : Option (List UInt8)} {bufLen k : Nat} (hbs : bs ≠ [])
    (hround : roundUp4 next = roundUp4 bs.length) (hnext : next = bs.length + k)
    (htake : optBuf.take next = bs ++ List.replicate k 0) (hbuf : ∀ b, buf = some b → bufLen ≤ b.length) :
    storeOptions (roundUp4 next) next optBuf buf bufLen = some (copyResult bs buf bufLen) := by
  have hle := le_roundUp4 next
  cases buf with
  | none => rw [storeOptions, copyResult, if_neg hbs, hround]
  | some buf =>
    by_cases hsmall : bufLen < roundUp4 bs.length
    · simp only [storeOptions, copyResult, hround]
      rw [if_pos hsmall, if_neg (by omega)]
    · have hroom := hbuf buf rfl
      have hlen : (optBuf.take next).length = next := by rw [htake, List.length_append, List.length_replicate, hnext]
      simp only [storeOptions, copyResult, hround]
      rw [if_neg hsmall, if_pos (by omega), storeAt_zero (by rw [List.length_replicate]; omega), Option.bind_some,
        storeAt_zero (by rw [hlen, List.length_append, List.length_replicate]; omega), Option.map_some, hlen,
        List.length_replicate, List.drop_append_of_le_length (by rw [List.length_replicate]; omega),
        List.drop_replicate, htake, padded, ← List.append_assoc]
      congr 4
      rw [List.append_assoc, ← List.replicate_add, show k + (roundUp4 bs.length - next) =
        roundUp4 bs.length - bs.length by omega]
      rfl

theorem finishCopy_eq {optBuf : List UInt8} {buf : Option (List UInt8)} {bufLen : Nat}
    (hlen : optBuf.length = optBufSize) (hbs : bs.length ≤ optBufSize) (htake : optBuf.take bs.length = bs)
    (hbuf : ∀ b, buf = some b → bufLen ≤ b.length) :
    finishCopy bs.length optBuf buf bufLen = some (copyResult bs buf bufLen) := by
  by_cases hnil : bs = []
  · subst hnil
    rw [finishCopy, if_pos List.length_nil]
    cases buf with
    | none => rfl
    | some buf =>
      have hle : roundUp4 ([] : List UInt8).length ≤ bufLen := Nat.zero_le _
      simp only [copyResult]
      rw [if_pos hle]
      rfl
  · obtain ⟨k, optBuf', happend, hround, htake'⟩ := appendEop_eq hlen hbs htake
    rw [finishCopy, if_neg (by rwa [List.length_eq_zero_iff]), happend, Option.bind_some]
    exact storeOptions_eq hnil hround rfl htake' hbuf

theorem Splits.copied_length (h : Splits rcvd (read m a optionLen) items rest) (first : Bool) :
    (copiedBytes first items).length ≤ optionLen := by
  refine Nat.le_trans (copiedBytes_length_le first items) ?_
  rw [← read_length m a optionLen, h.bytes, List.length_append]
  omega

theorem ip4CopyOption_of_splits {optBuf : List UInt8} {buf : Option (List UInt8)} {bufLen : Nat}
    (h : Splits rcvd (read m a optionLen) items rest) (h40 : optionLen ≤ optBufSize)
    (hlen : optBuf.length = optBufSize) (hbuf : ∀ b, buf = some b → bufLen ≤ b.length) :
    ip4CopyOption m a optionLen first optBuf buf bufLen = some (copyResult (copiedBytes first items) buf bufLen) := by
  obtain ⟨optBuf', hloop, hlen', htake⟩ := copyOptionLoop_of_splits first
    (show Splits _ (left m a optionLen 0) _ _ from h) (show optionLen - 0 < optionLen + 1 by omega)
    (show 0 + (optionLen - 0) ≤ optBuf.length by omega)
  rw [Nat.zero_add] at hloop htake
  rw [ip4CopyOption, hloop, Option.bind_some]
  exact finishCopy_eq (hlen'.trans hlen) (Nat.le_trans (h.copied_length first) h40) htake hbuf

/-- What is copied is accepted. -/
theorem Splits.copied (h : Splits rcvd bs items rest) (first : Bool) : Accepted rcvd (padded (copiedBytes first items)) := by
  refine ⟨items.filter (Item.copied first), _, rfl, fun item hi => h.valid item (List.mem_of_mem_filter hi), ?_⟩
  cases hk : roundUp4 (copiedBytes first items).length - (copiedBytes first items).length with
  | zero => exact .inl rfl
  | succ k => exact .inr rfl

end

/-- Two memories have the same options. -/
def SameOptions (m m' : Memory) (option optionLen : Nat) : Prop := ∀ i, i < optionLen → m' (option + i) = m (option + i)

/-- Options that are accepted are copied item by item, and the copy is accepted. -/
theorem ip4CopyOption_of_valid {m : Memory} {option optionLen : Nat} {rcvd : Bool} (h40 : optionLen ≤ 40)
    (hvalid : ip4OptionIsValid m option optionLen rcvd = some true) (first : Bool) :
    ∃ items rest, Splits rcvd (read m option optionLen) items rest ∧
      roundUp4 (copiedBytes first items).length % 4 = 0 ∧
      roundUp4 (copiedBytes first items).length ≤ roundUp4 optionLen ∧
      (∀ optBuf buf bufLen, optBuf.length = optBufSize → (∀ b, buf = some b → bufLen ≤ b.length) →
        ip4CopyOption m option optionLen first optBuf buf bufLen =
          some (copyResult (copiedBytes first items) buf bufLen)) ∧
      (∀ m' a, At m' a (padded (copiedBytes first items)) →
        ip4OptionIsValid m' a (roundUp4 (copiedBytes first items).length) rcvd = some true) ∧
      ∀ m', SameOptions m m' option optionLen →
        ip4OptionIsValid m' option optionLen rcvd = some true ∧
        ∀ optBuf optBuf' buf bufLen, optBuf.length = optBufSize → optBuf'.length = optBufSize →
          (∀ b, buf = some b → bufLen ≤ b.length) →
          ip4CopyOption m' option optionLen first optBuf' buf bufLen =
            ip4CopyOption m option optionLen first optBuf buf bufLen := by
  obtain ⟨items, rest, hs⟩ := ip4OptionIsValid_iff.mp hvalid
  refine ⟨items, rest, hs, Nat.mul_mod_left _ _, ?_,
    fun optBuf buf bufLen hlen hbuf => ip4CopyOption_of_splits hs h40 hlen hbuf, ?_, ?_⟩
  · exact Nat.mul_le_mul_right 4 (Nat.div_le_div_right (Nat.add_le_add_right (hs.copied_length first) 3))
  · intro m' a hat
    rw [ip4OptionIsValid_iff, ← padded_length, show read m' a (padded (copiedBytes first items)).length = _ from hat]
    exact hs.copied first
  · intro m' hsame
    have hread : read m' option optionLen = read m option optionLen := read_eq_of_forall fun j hj => hsame j hj
    have hs' : Splits rcvd (read m' option optionLen) items rest := hread ▸ hs
    refine ⟨ip4OptionIsValid_iff.mpr ⟨items, rest, hs'⟩, fun optBuf optBuf' buf bufLen hlen hlen' hbuf => ?_⟩
    rw [ip4CopyOption_of_splits hs h40 hlen hbuf, ip4CopyOption_of_splits hs' h40 hlen' hbuf]

/-- A `NOP`, a router alert, a recorded route with one empty place, and an `EOP`. -/
def sampleOptions : Memory := fun i =>
  [0xee, 0xee, 0xee, 1, 148, 4, 0, 0, 7, 7, 4, 0, 0, 0, 0, 0, 0xee].getD i 0xff

theorem ip4CopyOption_sample : ∃ items rest, Splits false (read sampleOptions 3 13) items rest ∧
    ip4CopyOption sampleOptions 3 13 false (List.replicate 40 0xff) none 0 =
      some (copyResult (copiedBytes false items) none 0) := by
  obtain ⟨items, rest, hs, -, -, hcopy, -⟩ := @ip4CopyOption_of_valid sampleOptions 3 13 false (by decide)
    (by decide +kernel) false
  exact ⟨items, rest, hs, hcopy _ none 0 (by decide +kernel) nofun⟩

example : ip4CopyOption sampleOptions 3 13 false (List.replicate 40 0xff) (some (List.replicate 10 0xee)) 10 =
    some ⟨.success, 8, some [1, 148, 4, 0, 0, 0, 0, 0, 0xee, 0xee]⟩ := by decide +kernel

end Udk.Ip4
