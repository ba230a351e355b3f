import Udk.Variable.Update

/-! # Language codes and `AutoUpdateLangVariable` -/

open Udk.Bytes

namespace Udk.Variable

/-- The characters before the null character. A buffer without one ends the string. -/
def cString (bs : List UInt8) : List UInt8 := bs.takeWhile (· != 0)

/-- `ISO_639_2_ENTRY_SIZE`. -/
def iso6392EntrySize : Nat := 3

def semicolon : UInt8 := 0x3b
def hyphen : UInt8 := 0x2d

/-- `AsciiStrnCmp (a, b, n) == 0`, for strings without their terminators. -/
def asciiStrnEq (a b : List UInt8) (n : Nat) : Bool := a.take n == b.take n

def skipSemicolons (bs : List UInt8) : List UInt8 := bs.dropWhile (· == semicolon)

/-- The length of the language code that `bs` starts with. -/
def codeLength (bs : List UInt8) : Nat := (bs.takeWhile (· != semicolon)).length

/-! ## `VariableGetBestLanguage` -/

/-- The loop over `SupportedLanguages`. The first argument bounds the turns. -/
def matchSupported (iso639Language : Bool) (language : List UInt8) (languageLength : Nat) :
    Nat → List UInt8 → Option (List UInt8)
  | 0, _ => none
  | fuel + 1, supported =>
    if supported = [] then none
    else
      let s := if iso639Language then supported else skipSemicolons supported
      let compareLength := if iso639Language then iso6392EntrySize else codeLength s
      if !iso639Language && compareLength < languageLength then
        matchSupported iso639Language language languageLength fuel (s.drop compareLength)
      else if asciiStrnEq s language languageLength then some (s.take compareLength)
      else matchSupported iso639Language language languageLength fuel (s.drop compareLength)

/-- `for (LanguageLength--; LanguageLength > 0 && Language[LanguageLength] != '-'; LanguageLength--)`. -/
def trimLanguage (language : List UInt8) : Nat → Nat
  | 0 => 0
  | n + 1 => if n = 0 ∨ language[n]? = some hyphen then n else trimLanguage language n

/-- The loop that trims the language. -/
def bestLanguage (supported : List UInt8) (iso639Language : Bool) (language : List UInt8) :
    Nat → Nat → Option (List UInt8)
  | 0, _ => none
  | fuel + 1, languageLength =>
    if languageLength = 0 then none
    else
      match matchSupported iso639Language language languageLength (supported.length + 1) supported with
      | some code => some code
      | none =>
        bestLanguage supported iso639Language language fuel
          (if iso639Language then 0 else trimLanguage language languageLength)

/-- With one language argument, as the driver calls it. -/
def variableGetBestLanguage (supportedLanguages : List UInt8) (iso639Language : Bool)
    (language : List UInt8) : Option (List UInt8) :=
  let supported := cString supportedLanguages
  let lang := cString language
  bestLanguage supported iso639Language lang (lang.length + 1)
    (if iso639Language then min 3 lang.length else codeLength lang)

/-! ## Codes by index -/

/-- The loops of `GetIndexFromSupportedLangCodes`. The last argument is `Index` in codes. -/
def indexOfCode (iso639Language : Bool) (lang : List UInt8) : Nat → List UInt8 → Nat → Nat
  | 0, _, _ => 0
  | fuel + 1, supported, index =>
    if supported = [] then 0
    else
      let s := if iso639Language then supported else skipSemicolons supported
      let compareLength := if iso639Language then iso6392EntrySize else codeLength s
      if (iso639Language || compareLength == lang.length) && asciiStrnEq lang s compareLength then index
      else indexOfCode iso639Language lang fuel (s.drop compareLength) (index + 1)

def getIndexFromSupportedLangCodes (supportedLang lang : List UInt8) (iso639Language : Bool) : Nat :=
  indexOfCode iso639Language lang ((cString supportedLang).length + 1) (cString supportedLang) 0

/-- The `while (TRUE)` loop of `GetLangFromSupportedLangCodes`: NULL once the string ends. -/
def codeAtIndex (index : Nat) : Nat → List UInt8 → Nat → Option (List UInt8)
  | 0, _, _ => none
  | fuel + 1, supported, subIndex =>
    let compareLength := codeLength supported
    if supported.length = compareLength ∧ subIndex ≠ index then none
    else if subIndex = index then some (supported.take compareLength)
    else codeAtIndex index fuel (skipSemicolons (supported.drop compareLength)) (subIndex + 1)

/-- Three bytes at the index, or the code at the index. What lies behind the codes counts as 0. -/
def getLangFromSupportedLangCodes (supportedLang : List UInt8) (index : Nat) (iso639Language : Bool) :
    Option (List UInt8) :=
  if iso639Language then
    some (((supportedLang.drop (index * iso6392EntrySize)) ++ [0, 0, 0]).take iso6392EntrySize)
  else
    codeAtIndex index ((cString supportedLang).length + 1) (cString supportedLang) 0

/-! ## `AutoUpdateLangVariable` -/

/-- `Attributes` of the language variables that the driver writes itself. -/
def langAttributes : Nat :=
  efiVariableNonVolatile ||| efiVariableBootserviceAccess ||| efiVariableRuntimeAccess

/-- Keeps `PlatformLangCodes` and `LangCodes`. The Boolean is `SetLanguageCodes`, `none` a return. -/
def storeLangCodes (variableName : Name) (data : List UInt8) (s : State) : Option (Bool × State) :=
  if variableName = platformLangCodesName then
    if s.atRuntime then none else some (true, { s with platformLangCodes := some data })
  else if variableName = langCodesName then
    if s.atRuntime then none else some (true, { s with langCodes := some data })
  else some (false, s)

/-- The variable that decides what to write: the one that is set, or the language variable that is
already there when the codes are set. -/
def langSource (P : Platform) (setLanguageCodes : Bool) (variableName : Name) (data : List UInt8)
    (s : State) : Option (Name × List UInt8) :=
  if setLanguageCodes && s.platformLangCodes.isSome && s.langCodes.isSome then
    match findVariable P platformLangName gEfiGlobalVariableGuid s with
    | (.success, v) => some (platformLangName, dataOf s.mem v.currPtr)
    | _ =>
      match findVariable P langName gEfiGlobalVariableGuid s with
      | (.success, v) => some (langName, dataOf s.mem v.currPtr)
      | _ => none
  else some (variableName, data)

/-- The language variable that goes with the one that is set, and its value. -/
def companion (variableName : Name) (data : List UInt8) (s : State) : Option (Name × List UInt8) :=
  match s.platformLangCodes, s.langCodes with
  | some platformLangCodes, some langCodes =>
    if variableName = platformLangName then do
      let bestPlatformLang ← variableGetBestLanguage platformLangCodes false data
      let index := getIndexFromSupportedLangCodes platformLangCodes bestPlatformLang false
      let bestLang ← getLangFromSupportedLangCodes langCodes index true
      some (langName, bestLang ++ [0])
    else if variableName = langName then do
      let bestLang ← variableGetBestLanguage langCodes true data
      let index := getIndexFromSupportedLangCodes langCodes (cString bestLang) true
      let bestPlatformLang ← getLangFromSupportedLangCodes platformLangCodes index false
      some (platformLangName, bestPlatformLang ++ [0])
    else none
  | _, _ => none

/-- What `AutoUpdateLangVariable` writes, and the state it writes it in. -/
def companionUpdate (P : Platform) (variableName : Name) (data : List UInt8) (s : State) :
    Option (Name × List UInt8) × State :=
  if data.length = 0 then (none, s)
  else
    match storeLangCodes variableName data s with
    | none => (none, s)
    | some (setLanguageCodes, s1) =>
      ((langSource P setLanguageCodes variableName data s1).bind fun (n, d) => companion n d s1, s1)

def autoUpdateLangVariable (P : Platform) (env : Environment) (variableName : Name) (data : List UInt8)
    (s : State) : State :=
  match companionUpdate P variableName data s with
  | (none, s1) => s1
  | (some (n, d), s1) =>
    (updateVariable P env n gEfiGlobalVariableGuid d langAttributes
      (findVariable P n gEfiGlobalVariableGuid s1).2 s1).2

end Udk.Variable
