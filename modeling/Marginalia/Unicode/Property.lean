/-
# Properties of characters

The properties by which texts are searched and put into lower case. A
property is known by the names that the Unicode standard gives it; case,
blanks, hyphens and underscores do not count in such a name.

Key definitions: `isDigit`, `isWord`, `isCased`, `Property`, `Property.ofName?`.
-/
import Marginalia.Text.Blank
import Marginalia.Unicode.Category
import Marginalia.Unicode.Script

namespace Marginalia
namespace Unicode

/-- The character is a decimal digit. -/
def isDigit (c : Char) : Bool :=
  if c.toNat < 0x80 then c.isDigit else Category.decimalNumber.contains c

/-- The categories of letters. -/
def letters : List Category := [.uppercaseLetter, .lowercaseLetter, .titlecaseLetter, .modifierLetter,
  .otherLetter]

/-- The categories of marks. -/
def marks : List Category := [.nonspacingMark, .spacingMark, .enclosingMark]

/-- Letters in circles and squares, which are counted as signs. -/
def enclosedLetterTable : Table := .ofLines ["24B6-24E9 1F130-1F149 1F150-1F169 1F170-1F189"]

/-- Vowel signs and the like, which belong to words of their script. -/
def dependentSignTable : Table := .ofLines [
  "345 5B0-5BD 5BF:5C1 5C2:5C4 5C5:5C7 610-61A 64B-657 659-65F 670 6D6-6DC 6E1-6E4 6E7-6E8 6ED",
  "711 730-73F 7A6-7B0 816-817 81B-823 825-827 829-82C 8D4-8DF 8E3-8E9 8F0-903 93A-93B 93E-94C",
  "94E-94F 955-957 962-963 981-983 9BE-9C4 9C7-9C8 9CB-9CC 9D7 9E2-9E3 A01-A03 A3E-A42 A47-A48",
  "A4B-A4C A51 A70-A71 A75 A81-A83 ABE-AC5 AC7-AC9 ACB-ACC AE2-AE3 AFA-AFC B01-B03 B3E-B44",
  "B47-B48 B4B-B4C B56-B57 B62-B63 B82 BBE-BC2 BC6-BC8 BCA-BCC BD7 C00-C04 C3E-C44 C46-C48",
  "C4A-C4C C55-C56 C62-C63 C81-C83 CBE-CC4 CC6-CC8 CCA-CCC CD5-CD6 CE2-CE3 CF3 D00-D03 D3E-D44",
  "D46-D48 D4A-D4C D57 D62-D63 D81-D83 DCF-DD4 DD6:DD8 DD9-DDF DF2-DF3 E31 E34-E3A E4D EB1",
  "EB4-EB9 EBB-EBC ECD F71-F83 F8D-F97 F99-FBC 102B-1036 1038 103B-103E 1056-1059 105E-1060",
  "1062-1064 1067-106D 1071-1074 1082-108D 108F 109A-109D 1712-1713 1732-1733 1752-1753",
  "1772-1773 17B6-17C8 1885-1886 18A9 1920-192B 1930-1938 1A17-1A1B 1A55-1A5E 1A61-1A74",
  "1ABF-1AC0 1ACC-1ACE 1B00-1B04 1B35-1B43 1B80-1B82 1BA1-1BA9 1BAC-1BAD 1BE7-1BF1 1C24-1C36",
  "1DE7-1DF4 2DE0-2DFF A674-A67B A69E-A69F A802 A80B A823-A827 A880-A881 A8B4-A8C3 A8C5 A8FF",
  "A926-A92A A947-A952 A980-A983 A9B4-A9BF A9E5 AA29-AA36 AA43 AA4C-AA4D AA7B-AA7D AAB0:AAB2",
  "AAB3-AAB4 AAB7-AAB8 AABE AAEB-AAEF AAF5 ABE3-ABEA FB1E 10376-1037A 10A01-10A03 10A05-10A06",
  "10A0C-10A0F 10D24-10D27 10EAB-10EAC 11000-11002 11038-11045 11073-11074 11080-11082",
  "110B0-110B8 110C2 11100-11102 11127-11132 11145-11146 11180-11182 111B3-111BF 111CE-111CF",
  "1122C-11234 11237 1123E 11241 112DF-112E8 11300-11303 1133E-11344 11347-11348 1134B-1134C",
  "11357 11362-11363 11435-11441 11443-11445 114B0-114C1 115AF-115B5 115B8-115BE 115DC-115DD",
  "11630-1163E 11640 116AB-116B5 1171D-1172A 1182C-11838 11930-11935 11937-11938 1193B-1193C",
  "11940:11942 119D1-119D7 119DA-119DF 119E4 11A01-11A0A 11A35-11A39 11A3B-11A3E 11A51-11A5B",
  "11A8A-11A97 11C2F-11C36 11C38-11C3E 11C92-11CA7 11CA9-11CB6 11D31-11D36 11D3A:11D3C",
  "11D3D:11D3F 11D40-11D41 11D43 11D47 11D8A-11D8E 11D90-11D91 11D93-11D96 11EF3-11EF6",
  "11F00-11F01 11F03 11F34-11F3A 11F3E-11F40 16F4F:16F51 16F52-16F87 16F8F-16F92 16FF0-16FF1",
  "1BC9E 1E000-1E006 1E008-1E018 1E01B-1E021 1E023-1E024 1E026-1E02A 1E08F 1E947"]

/-- The character is alphabetic. -/
def isAlphabetic (c : Char) : Bool :=
  if c.toNat < 0x80 then c.isAlpha
  else letters.any (·.contains c) || Category.letterNumber.contains c || dependentSignTable.contains c ||
    enclosedLetterTable.contains c

/-- The character is part of a word. -/
def isWord (c : Char) : Bool :=
  if c.toNat < 0x80 then c.isAlphanum || c == '_'
  else letters.any (·.contains c) || marks.any (·.contains c) || Category.letterNumber.contains c ||
    Category.decimalNumber.contains c || Category.connectorPunctuation.contains c ||
    enclosedLetterTable.contains c || c == '\u200C' || c == '\u200D'

/-- Characters of lower case that are no lowercase letters. -/
def otherLowercaseTable : Table := .ofLines [
  "AA BA 2B0-2B8 2C0-2C1 2E0-2E4 345 37A 10FC 1D2C-1D6A 1D78 1D9B-1DBF 2071 207F 2090-209C",
  "2170-217F 24D0-24E9 2C7C-2C7D A69C-A69D A770 A7F2-A7F4 A7F8-A7F9 AB5C-AB5F AB69 10780",
  "10783-10785 10787-107B0 107B2-107BA 1E030-1E06D"]

/-- Characters of upper case that are no uppercase letters. -/
def otherUppercaseTable : Table := .ofLines ["2160-216F 24B6-24CF 1F130-1F149 1F150-1F169 1F170-1F189"]

/-- The character is of lower case. -/
def isLowercase (c : Char) : Bool :=
  if c.toNat < 0x80 then c.isLower
  else Category.lowercaseLetter.contains c || otherLowercaseTable.contains c

/-- The character is of upper case. -/
def isUppercase (c : Char) : Bool :=
  if c.toNat < 0x80 then c.isUpper
  else Category.uppercaseLetter.contains c || otherUppercaseTable.contains c

/-- The character is a letter with case. -/
def isCased (c : Char) : Bool :=
  isLowercase c || isUppercase c || Category.titlecaseLetter.contains c

/-- Punctuation that does not end a word as far as letter case goes. -/
def innerPunctuationTable : Table := .ofLines [
  "27 2E 3A B7 387 55F 5F4 2018-2019 2024 2027 FE13 FE52 FE55 FF07 FF0E FF1A"]

/-- The character has no say in letter case. -/
def isCaseIgnorable (c : Char) : Bool :=
  [Category.nonspacingMark, .enclosingMark, .format, .modifierLetter, .modifierSymbol].any
    (·.contains c) || innerPunctuationTable.contains c

/-- A property of characters that has a name. -/
inductive Property where
  /-- Every character has it. -/
  | any
  /-- The character is in the ASCII range. -/
  | ascii
  /-- The character is assigned. -/
  | assigned
  /-- The character is unassigned. -/
  | unassigned
  /-- The character is alphabetic. -/
  | alphabetic
  /-- The character is of upper case. -/
  | uppercase
  /-- The character is of lower case. -/
  | lowercase
  /-- The character is a letter with case. -/
  | cased
  /-- The character is white space. -/
  | whiteSpace
  /-- The character is part of a word. -/
  | word
  /-- The character is of one of the categories. -/
  | category (ks : List Category)
  /-- The character is of one of the categories, or unassigned. -/
  | other (ks : List Category)
  /-- The character is of the script. -/
  | script (s : Script)
deriving DecidableEq, Repr

namespace Property

/-- Whether the character is of some category. -/
def isAssigned (c : Char) : Bool := Category.all.any (·.contains c)

/-- Whether the character has the property. -/
def contains : Property → Char → Bool
  | any, _ => true
  | ascii, c => c.toNat < 0x80
  | assigned, c => isAssigned c
  | unassigned, c => !isAssigned c
  | alphabetic, c => isAlphabetic c
  | uppercase, c => isUppercase c
  | lowercase, c => isLowercase c
  | cased, c => isCased c
  | whiteSpace, c => Text.isBlank c
  | word, c => isWord c
  | category ks, c => ks.any (·.contains c)
  | other ks, c => ks.any (·.contains c) || !isAssigned c
  | script s, c => s.table.contains c

/-- A name as it is compared: lower case, without blanks, hyphens, underscores and a leading
`is`. -/
def normalName (t : Text) : String :=
  let t := (t.filter fun c => c.toNat < 0x80 && c != ' ' && c != '-' && c != '_').map Char.toLower
  String.ofList (match t with
    | 'i' :: 's' :: 'c' :: [] => ['i', 's', 'c']
    | 'i' :: 's' :: r => r
    | _ => t)

/-- The properties that are sets of categories, with their names. -/
def categories : List (List String × List Category) := [
  (["l", "letter"], letters),
  (["lc", "casedletter"], [.uppercaseLetter, .lowercaseLetter, .titlecaseLetter]),
  (["lu", "uppercaseletter"], [.uppercaseLetter]),
  (["ll", "lowercaseletter"], [.lowercaseLetter]),
  (["lt", "titlecaseletter"], [.titlecaseLetter]),
  (["lm", "modifierletter"], [.modifierLetter]),
  (["lo", "otherletter"], [.otherLetter]),
  (["m", "mark", "combiningmark"], marks),
  (["mn", "nonspacingmark"], [.nonspacingMark]),
  (["mc", "spacingmark"], [.spacingMark]),
  (["me", "enclosingmark"], [.enclosingMark]),
  (["n", "number"], [.decimalNumber, .letterNumber, .otherNumber]),
  (["nd", "decimalnumber", "digit"], [.decimalNumber]),
  (["nl", "letternumber"], [.letterNumber]),
  (["no", "othernumber"], [.otherNumber]),
  (["p", "punctuation", "punct"], [.connectorPunctuation, .dashPunctuation, .openPunctuation,
    .closePunctuation, .initialPunctuation, .finalPunctuation, .otherPunctuation]),
  (["pc", "connectorpunctuation"], [.connectorPunctuation]),
  (["pd", "dashpunctuation"], [.dashPunctuation]),
  (["ps", "openpunctuation"], [.openPunctuation]),
  (["pe", "closepunctuation"], [.closePunctuation]),
  (["pi", "initialpunctuation"], [.initialPunctuation]),
  (["pf", "finalpunctuation"], [.finalPunctuation]),
  (["po", "otherpunctuation"], [.otherPunctuation]),
  (["s", "symbol"], [.mathSymbol, .currencySymbol, .modifierSymbol, .otherSymbol]),
  (["sm", "mathsymbol"], [.mathSymbol]),
  (["sc", "currencysymbol"], [.currencySymbol]),
  (["sk", "modifiersymbol"], [.modifierSymbol]),
  (["so", "othersymbol"], [.otherSymbol]),
  (["z", "separator"], [.spaceSeparator, .lineSeparator, .paragraphSeparator]),
  (["zs", "spaceseparator"], [.spaceSeparator]),
  (["zl", "lineseparator"], [.lineSeparator]),
  (["zp", "paragraphseparator"], [.paragraphSeparator]),
  (["cc", "control", "cntrl"], [.control]),
  (["cf", "format"], [.format]),
  (["cs", "surrogate"], []),
  (["co", "privateuse"], [.privateUse])]

/-- The other properties, with their names. -/
def others : List (List String × Property) := [
  (["any"], any), (["ascii"], ascii), (["assigned"], assigned), (["cn", "unassigned"], unassigned),
  (["c", "other"], other [.control, .format, .privateUse]),
  (["alphabetic", "alpha"], alphabetic), (["uppercase", "upper"], uppercase),
  (["lowercase", "lower"], lowercase), (["cased"], cased), (["whitespace", "wspace", "space"], whiteSpace)]

/-- The entry under one of whose names the given name stands. -/
def lookup (name : String) (l : List (List String × α)) : Option α :=
  (l.find? (·.1.contains name)).map (·.2)

/-- The general category of a name. -/
def ofCategoryName? (name : String) : Option Property :=
  ((lookup name categories).map category).orElse fun _ =>
    lookup name (others.take 5)

/-- The script of a name. -/
def ofScriptName? (name : String) : Option Property := (lookup name Script.names).map script

/-- The property of a name: alone, or as a kind of property and one of its values. -/
def ofName? (t : Text) : Option Property :=
  let name := normalName t
  match t.dropWhile (fun c => c != '=' && c != ':') with
  | [] => ((ofCategoryName? name).orElse fun _ => lookup name others).orElse fun _ => ofScriptName? name
  | _ :: value =>
    let kind := normalName (t.takeWhile fun c => c != '=' && c != ':')
    if ["gc", "generalcategory", "category"].contains kind then ofCategoryName? (normalName value)
    else if ["sc", "script", "scx", "scriptextensions"].contains kind then ofScriptName? (normalName value)
    else none

end Property
end Unicode
end Marginalia
