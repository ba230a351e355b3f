import Udk.Hii.Number

/-! # Blocks and configuration strings

`HiiBlockToConfig` and `HiiConfigToBlock`. A call is `none` once it leaves a buffer. Assertions are
not checked.
-/

namespace Udk.Hii.Routing

open Separated Merge

inductive EfiStatus
  | success
  | invalidParameter
  | outOfResources
  | deviceError
  | notFound
  deriving DecidableEq

/-- A sum or product of `UINTN`s. -/
def uintn (n : Nat) : Nat := n % 2 ^ 64

abbrev Block := List UInt8

def offsetEq : EfiString := wide ['O', 'F', 'F', 'S', 'E', 'T', '=']

def widthEq : EfiString := wide ['W', 'I', 'D', 'T', 'H', '=']

def valueEq : EfiString := wide ['V', 'A', 'L', 'U', 'E', '=']

def guidEq : EfiString := wide ['G', 'U', 'I', 'D', '=']

def pathEq : EfiString := wide ['P', 'A', 'T', 'H', '=']

/-- What the `StrnCmp` loops see of a `<ConfigHdr>`. -/
inductive Scan
  | noGuid
  | noPath
  | element (stringPtr : EfiString)

/-- Both functions jump over the `<ConfigHdr>` and the `&` behind it. -/
def scanConfigHdr (string : EfiString) : Scan :=
  if ¬guidEq.isPrefixOf string then .noGuid
  else
    match (skipTo pathEq string).dropWhile (· ≠ char '&') with
    | [] => .noPath
    | _ :: stringPtr => .element stringPtr

/-! ## From a string to a block -/

structure ToBlock where
  status : EfiStatus
  /-- The index of `*Progress`, when it was set. -/
  progress : Option Nat
  block : Block
  blockSize : Nat
  heap : Heap
  deriving DecidableEq

/-- `CopyMem (Block + Offset, Value, Width)`. -/
def copyToBlock (block : Block) (offset : Nat) (value : List UInt8) (width : Nat) : Option Block :=
  if width = 0 then some block
  else if value.length < width ∨ block.length < offset + width then none
  else some (block.take offset ++ value.take width ++ block.drop (offset + width))

/-- What is behind the last element. -/
def configEnd (configResp stringPtr : EfiString) (block : Block) (blockSize : Nat) (heap : Heap) : ToBlock :=
  if stringPtr ≠ [] ∧ ¬(char '&' :: guidEq).isPrefixOf stringPtr then
    ⟨.invalidParameter, some (configResp.length - stringPtr.length - 1), block, blockSize, heap⟩
  else ⟨.success, some configResp.length, block, blockSize, heap⟩

def configToBlockLoop (allocates : Nat → Bool) (configResp : EfiString) (bufferSize : Nat) :
    Nat → EfiString → Block → Nat → Heap → Option ToBlock
  | 0, _, _, _, _ => none
  | fuel + 1, stringPtr, block, blockSize, heap =>
    if ¬offsetEq.isPrefixOf stringPtr then some (configEnd configResp stringPtr block blockSize heap)
    else
      let stringPtr := stringPtr.drop 7
      match getValueOfNumber allocates heap stringPtr with
      | none => none
      | some (none, _, heap) => some ⟨.outOfResources, some 0, block, blockSize, heap⟩
      | some (some (tmpBuffer, number), length, heap) =>
        let offset := uintnOfNumber number length
        let heap := freePool heap tmpBuffer
        let stringPtr := stringPtr.drop length
        if ¬(char '&' :: widthEq).isPrefixOf stringPtr then
          some ⟨.invalidParameter, some (configResp.length - stringPtr.length - length - 7 - 1), block, blockSize, heap⟩
        else
          let stringPtr := stringPtr.drop 7
          match getValueOfNumber allocates heap stringPtr with
          | none => none
          | some (none, _, heap) => some ⟨.outOfResources, some 0, block, blockSize, heap⟩
          | some (some (tmpBuffer, number), length, heap) =>
            let width := uintnOfNumber number length
            let heap := freePool heap tmpBuffer
            let stringPtr := stringPtr.drop length
            if ¬(char '&' :: valueEq).isPrefixOf stringPtr then
              some ⟨.invalidParameter, some (configResp.length - stringPtr.length - length - 7), block, blockSize, heap⟩
            else
              let stringPtr := stringPtr.drop 7
              match getValueOfNumber allocates heap stringPtr with
              | none => none
              | some (none, _, heap) => some ⟨.outOfResources, some 0, block, blockSize, heap⟩
              | some (some (buffer, value), length, heap) =>
                let stringPtr := stringPtr.drop length
                if stringPtr ≠ [] ∧ stringPtr.head? ≠ some (char '&') then
                  some ⟨.invalidParameter, some (configResp.length - stringPtr.length - length - 7), block, blockSize,
                    freePool heap buffer⟩
                -- it returns without Exit, so the value is not freed
                else if bufferSize < uintn (offset + width) then some ⟨.deviceError, none, block, blockSize, heap⟩
                else
                  match copyToBlock block offset value width with
                  | none => none
                  | some block =>
                    let blockSize := uintn (uintn (offset + width) + (2 ^ 64 - 1))
                    let heap := freePool heap buffer
                    match stringPtr with
                    | [] => some (configEnd configResp [] block blockSize heap)
                    | _ :: stringPtr =>
                      configToBlockLoop allocates configResp bufferSize fuel stringPtr block blockSize heap

/-- `*BlockSize` is the length of the block on input. -/
def hiiConfigToBlock (allocates : Nat → Bool) (configResp : EfiString) (block : Block) : Option ToBlock :=
  match scanConfigHdr configResp with
  | .noGuid => some ⟨.invalidParameter, some 0, block, block.length, ⟨0, []⟩⟩
  | .noPath => some ⟨.invalidParameter, some configResp.length, block, block.length, ⟨0, []⟩⟩
  | .element stringPtr =>
    configToBlockLoop allocates configResp block.length (configResp.length + 1) stringPtr block block.length ⟨0, []⟩

/-! ## From a block to a string -/

/-- An allocated string, with the size of its buffer in bytes. -/
structure StringBuffer where
  buffer : Nat
  size : Nat
  string : EfiString
  deriving DecidableEq

/-- The string, with `n` more characters and the null character, is inside of its buffer. -/
def StringBuffer.Room (b : StringBuffer) (n : Nat) : Prop := 2 * (b.string.length + n + 1) ≤ b.size

instance (b : StringBuffer) (n : Nat) : Decidable (b.Room n) :=
  inferInstanceAs (Decidable (2 * (b.string.length + n + 1) ≤ b.size))

/-- `AppendToMultiString`. It goes on with `NULL` when the string is not reallocated. -/
def appendToMultiString (allocates : Nat → Bool) (heap : Heap) (multiString : StringBuffer) (appendString : EfiString) :
    Option (StringBuffer × Heap) :=
  -- the size is taken from the string, which ends in its buffer
  if ¬multiString.Room 0 then none
  else
    let appendStringSize := 2 * (appendString.length + 1)
    let multiStringSize := 2 * (multiString.string.length + 1)
    if 1024 < uintn (multiStringSize + appendStringSize) ∨ 1024 < multiStringSize then
      match allocateZeroPool allocates heap with
      | (none, _) => none
      | (some buffer, heap) =>
        let reallocated : StringBuffer := ⟨buffer, uintn (multiStringSize + appendStringSize), multiString.string⟩
        if ¬reallocated.Room appendString.length then none
        else some ({ reallocated with string := multiString.string ++ appendString }, freePool heap multiString.buffer)
    else if ¬multiString.Room appendString.length then none
    else some ({ multiString with string := multiString.string ++ appendString }, heap)

def lowerFrom : Bool → EfiString → EfiString
  | _, [] => []
  | lower, c :: string =>
    if c = char '=' then c :: lowerFrom true string
    else if c = char '&' then c :: lowerFrom false string
    else if lower = true ∧ char 'A' ≤ c ∧ c ≤ char 'F' then (c - char 'A' + char 'a') :: lowerFrom lower string
    else c :: lowerFrom lower string

def hiiToLower (configString : EfiString) : EfiString := lowerFrom false configString

def mHexStr : List Char := ['0', '1', '2', '3', '4', '5', '6', '7', '8', '9', 'A', 'B', 'C', 'D', 'E', 'F']

/-- `BasePrintLibValueToString` in radix 16, the last digit first. A number of 64 bits has at most 16 of them. -/
def valueToString : Nat → Nat → EfiString
  | 0, _ => []
  | fuel + 1, value =>
    char (mHexStr.getD (value % 16) '0') :: if value / 16 = 0 then [] else valueToString fuel (value / 16)

/-- `UnicodeValueToString` with `PREFIX_ZERO | RADIX_HEX`. -/
def unicodeValueToString (value width : Nat) : EfiString :=
  let digits := valueToString 16 value
  (List.replicate (width - digits.length) (char '0') ++ digits.reverse).take width

structure ToConfig where
  status : EfiStatus
  /-- The index of `*Progress`, when it was set. -/
  progress : Option Nat
  config : Option StringBuffer
  heap : Heap
  deriving DecidableEq

/-- `Exit`, with the other buffers that are still there. -/
def configExit (status : EfiStatus) (progress : Option Nat) (config : StringBuffer) (buffers : List Nat) (heap : Heap) :
    Option ToConfig :=
  some ⟨status, progress, none, (config.buffer :: buffers).foldl freePool heap⟩

/-- The end of the loop, on the characters of the request that are left. -/
def requestEnd (configRequest stringPtr : EfiString) (config : StringBuffer) (heap : Heap) : Option ToConfig :=
  if stringPtr ≠ [] then
    configExit .invalidParameter (some (configRequest.length - stringPtr.length - 1)) config [] heap
  else if ¬config.Room 0 then none
  else some ⟨.success, some configRequest.length, some { config with string := hiiToLower config.string }, heap⟩

/-- The bytes of the block from `offset` on, as digits. `none` when one is not in the block. -/
def copyFromBlock (block : Block) (offset width : Nat) : Option (List UInt8) :=
  if width = 0 then some [] else if block.length < offset + width then none else some ((block.drop offset).take width)

def valueString (value : List UInt8) : EfiString := value.reverse.flatMap fun byte => unicodeValueToString byte.toNat 2

/-- One element is appended, `&` and all that is behind its width included. -/
def appendElement (allocates : Nat → Bool) (block : Block) (name : EfiString) (offset width : Nat) (config : StringBuffer)
    (heap : Heap) : Option (Option ToConfig × StringBuffer × Heap) :=
  match allocateZeroPool allocates heap with
  | (none, heap) => (configExit .outOfResources (some 0) config [] heap).map fun r => (some r, config, heap)
  | (some value, heap) =>
    match copyFromBlock block offset width with
    | none => none
    | some bytes =>
      let length := uintn (width * 2 + 1)
      match allocateZeroPool allocates heap with
      | (none, heap) => (configExit .outOfResources (some 0) config [value] heap).map fun r => (some r, config, heap)
      | (some valueStr, heap) =>
        if width ≠ 0 ∧ uintn (length * 2) < 2 * (2 * width + 1) then none
        else
          let heap := freePool heap value
          let length := uintn (length + (name.length + 1 + 6))
          match allocateZeroPool allocates heap with
          | (none, heap) => (configExit .outOfResources none config [valueStr] heap).map fun r => (some r, config, heap)
          | (some configElement, heap) =>
            let element := name ++ char '&' :: valueEq ++ valueString bytes
            if uintn (length * 2) < 2 * (element.length + 1) then none
            else
              match appendToMultiString allocates heap config element with
              | none => none
              | some (config, heap) => some (none, config, freePool (freePool heap configElement) valueStr)

def blockToConfigLoop (allocates : Nat → Bool) (configRequest : EfiString) (block : Block) :
    Nat → EfiString → StringBuffer → Heap → Option ToConfig
  | 0, _, _, _ => none
  | fuel + 1, stringPtr, config, heap =>
    if ¬offsetEq.isPrefixOf stringPtr then requestEnd configRequest stringPtr config heap
    else
      let tmpPtr := stringPtr
      let stringPtr := stringPtr.drop 7
      match getValueOfNumber allocates heap stringPtr with
      | none => none
      | some (none, _, heap) => configExit .outOfResources (some 0) config [] heap
      | some (some (tmpBuffer, number), length, heap) =>
        let offset := uintnOfNumber number length
        let heap := freePool heap tmpBuffer
        let stringPtr := stringPtr.drop length
        if ¬(char '&' :: widthEq).isPrefixOf stringPtr then
          configExit .invalidParameter (some (configRequest.length - stringPtr.length - length - 7 - 1)) config [] heap
        else
          let stringPtr := stringPtr.drop 7
          match getValueOfNumber allocates heap stringPtr with
          | none => none
          | some (none, _, heap) => configExit .outOfResources (some 0) config [] heap
          | some (some (tmpBuffer, number), length, heap) =>
            let width := uintnOfNumber number length
            let heap := freePool heap tmpBuffer
            let stringPtr := stringPtr.drop length
            if stringPtr ≠ [] ∧ stringPtr.head? ≠ some (char '&') then
              configExit .invalidParameter (some (configRequest.length - stringPtr.length - length - 7)) config [] heap
            else if block.length < uintn (offset + width) then
              configExit .deviceError (some (configRequest.length - stringPtr.length)) config [] heap
            else
              match appendElement allocates block
                (tmpPtr.take (tmpPtr.length - stringPtr.length)) offset width config heap with
              | none => none
              | some (some result, _) => some result
              | some (none, config, heap) =>
                match stringPtr with
                | [] => requestEnd configRequest [] config heap
                | _ :: stringPtr =>
                  match appendToMultiString allocates heap config [char '&'] with
                  | none => none
                  | some (config, heap) => blockToConfigLoop allocates configRequest block fuel stringPtr config heap

/-- `BlockSize` is the length of the block. -/
def hiiBlockToConfig (allocates : Nat → Bool) (configRequest : EfiString) (block : Block) : Option ToConfig :=
  match allocateZeroPool allocates ⟨0, []⟩ with
  | (none, heap) => some ⟨.outOfResources, none, none, heap⟩
  | (some buffer, heap) =>
    let config : StringBuffer := ⟨buffer, 1024, []⟩
    match scanConfigHdr configRequest with
    | .noGuid => configExit .invalidParameter (some 0) config [] heap
    | .noPath => configExit .invalidParameter (some (configRequest.length - 1)) config [] heap
    | .element stringPtr =>
      let header := configRequest.take (configRequest.length - stringPtr.length)
      if 1024 < 2 * header.length then none
      else
        blockToConfigLoop allocates configRequest block (configRequest.length + 1) stringPtr
          { config with string := header } heap

end Udk.Hii.Routing
