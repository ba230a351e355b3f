import Udk.Separated

/-! # Default strings are merged

`MergeDefaultString` appends the alternatives of the default string that a configuration string does not have. It
looks for an alternative by the separator before its header, so it does not see one at the start of a string.
-/

namespace Udk.Hii

open Separated

/-- A string of `CHAR16`, without the null character at its end. -/
abbrev EfiString := List UInt16

def char (c : Char) : UInt16 := UInt16.ofNat c.toNat

def wide (s : List Char) : EfiString := s.map char

def strStr (string searchString : EfiString) : Option EfiString := search searchString string

/-- What a pointer into a buffer points at, up to the first null character. -/
def cString (buffer : EfiString) : EfiString := buffer.takeWhile (· ≠ 0)

namespace Merge

inductive EfiStatus
  | success
  | invalidParameter
  | outOfResources
  deriving DecidableEq

/-- A loop that goes on to the first place of a string. -/
def skipTo (s : EfiString) (string : EfiString) : EfiString := (strStr string s).getD []

/-- The characters of `string` before `rest`. -/
def before (string rest : EfiString) : EfiString := string.take (string.length - rest.length)

/-- The `<ConfigHdr>` at the start of a string, as the scan finds it. -/
def configHdr (string : EfiString) : Option EfiString :=
  if ¬(wide ['G', 'U', 'I', 'D', '=']).isPrefixOf string then none
  else
    let string₁ := skipTo (wide ['&', 'N', 'A', 'M', 'E', '=']) string
    let string₂ := skipTo (wide ['&', 'P', 'A', 'T', 'H', '=']) string₁
    if string₂ = [] then none
    else some (before string ((string₂.drop 6).dropWhile (· ≠ char '&')))

/-- `StringPtrDefault` and `StringPtrEnd` are indexes. The `n`-th allocation may fail. Both strings are returned. -/
def mergeLoop (allocates : Nat → Bool) (altConfigHdr : EfiString) :
    Nat → Nat → EfiString → EfiString → Nat → Option (EfiStatus × Option EfiString × EfiString)
  | 0, _, _, _, _ => none
  | fuel + 1, n, altCfgResp, defaultAltCfgResp, stringPtrDefault =>
    let following := cString (defaultAltCfgResp.drop (stringPtrDefault + 1))
    -- the next alternative
    let findNext := fun (n : Nat) (altCfgResp defaultAltCfgResp : EfiString) =>
      match strStr (cString (defaultAltCfgResp.drop (stringPtrDefault + 1))) altConfigHdr with
      | some found =>
        mergeLoop allocates altConfigHdr fuel n altCfgResp defaultAltCfgResp (defaultAltCfgResp.length - found.length)
      | none => some (.success, some altCfgResp, defaultAltCfgResp)
    let name := ((cString (defaultAltCfgResp.drop stringPtrDefault)).drop altConfigHdr.length).take 4
    match strStr altCfgResp (altConfigHdr ++ name) with
    | some _ => findNext n altCfgResp defaultAltCfgResp
    | none =>
      match strStr following (wide ['&', 'G', 'U', 'I', 'D']) with
      | none =>
        if ¬allocates n then some (.outOfResources, none, defaultAltCfgResp)
        else some (.success, some (altCfgResp ++ cString (defaultAltCfgResp.drop stringPtrDefault)), defaultAltCfgResp)
      | some found =>
        let stringPtrEnd := defaultAltCfgResp.length - found.length
        let tempChar := defaultAltCfgResp.getD stringPtrEnd 0
        let cut := defaultAltCfgResp.set stringPtrEnd 0
        if ¬allocates n then some (.outOfResources, none, cut)
        else findNext (n + 1) (altCfgResp ++ cString (cut.drop stringPtrDefault)) (cut.set stringPtrEnd tempChar)

/-- `none` when the loop does not end. -/
def mergeDefaultString (allocates : Nat → Bool) (altCfgResp : Option EfiString) (defaultAltCfgResp : EfiString) :
    Option (EfiStatus × Option EfiString × EfiString) :=
  match altCfgResp with
  | none => some (.invalidParameter, none, defaultAltCfgResp)
  | some altCfgResp =>
    match configHdr altCfgResp with
    | none => some (.invalidParameter, some altCfgResp, defaultAltCfgResp)
    | some hdr =>
      if ¬allocates 0 then some (.outOfResources, some altCfgResp, defaultAltCfgResp)
      else
        let altConfigHdr := char '&' :: hdr ++ wide ['&', 'A', 'L', 'T', 'C', 'F', 'G', '=']
        match strStr defaultAltCfgResp altConfigHdr with
        | none => some (.success, some altCfgResp, defaultAltCfgResp)
        | some found =>
          mergeLoop allocates altConfigHdr (defaultAltCfgResp.length + 1) 1 altCfgResp defaultAltCfgResp
            (defaultAltCfgResp.length - found.length)

end Merge

end Udk.Hii
