/-
# Scripts

The characters of the more common scripts, as of version 15 of the Unicode
standard. Characters that several scripts share are in none of them.

Key definitions: `Script`, `Script.table`.
-/
import Marginalia.Unicode.Table

namespace Marginalia
namespace Unicode

/-- A script. -/
inductive Script where
  /-- The Arabic script. -/
  | arabic
  /-- The Armenian script. -/
  | armenian
  /-- The Bengali script. -/
  | bengali
  /-- The Cherokee script. -/
  | cherokee
  /-- The Cyrillic script. -/
  | cyrillic
  /-- The Devanagari script. -/
  | devanagari
  /-- The Ethiopic script. -/
  | ethiopic
  /-- The Georgian script. -/
  | georgian
  /-- The Greek script. -/
  | greek
  /-- The Gujarati script. -/
  | gujarati
  /-- The Han script. -/
  | han
  /-- The Hangul script. -/
  | hangul
  /-- The Hebrew script. -/
  | hebrew
  /-- The Hiragana script. -/
  | hiragana
  /-- The Katakana script. -/
  | katakana
  /-- The Khmer script. -/
  | khmer
  /-- The Latin script. -/
  | latin
  /-- The Mongolian script. -/
  | mongolian
  /-- The Tamil script. -/
  | tamil
  /-- The Telugu script. -/
  | telugu
  /-- The Thai script. -/
  | thai
  /-- The Tibetan script. -/
  | tibetan
deriving DecidableEq, Repr

namespace Script

/-- The characters of the Arabic script. -/
def arabicTable : Table := .ofLines [
  "600-604 606-60B 60D-61A 61C-61E 620-63F 641-64A 656-66F 671-6DC 6DE-6FF 750-77F 870-88E",
  "890-891 898-8E1 8E3-8FF FB50-FBC2 FBD3-FD3D FD40-FD8F FD92-FDC7 FDCF FDF0-FDFF FE70-FE74",
  "FE76-FEFC 10E60-10E7E 10EFD-10EFF 1EE00-1EE03 1EE05-1EE1F 1EE21-1EE22 1EE24 1EE27:1EE29",
  "1EE2A-1EE32 1EE34-1EE37 1EE39:1EE3B 1EE42 1EE47:1EE4D 1EE4E-1EE4F 1EE51-1EE52 1EE54",
  "1EE57:1EE61 1EE62:1EE64 1EE67-1EE6A 1EE6C-1EE72 1EE74-1EE77 1EE79-1EE7C 1EE7E:1EE80",
  "1EE81-1EE89 1EE8B-1EE9B 1EEA1-1EEA3 1EEA5-1EEA9 1EEAB-1EEBB 1EEF0-1EEF1"]

/-- The characters of the Armenian script. -/
def armenianTable : Table := .ofLines [
  "531-556 559-58A 58D-58F FB13-FB17"]

/-- The characters of the Bengali script. -/
def bengaliTable : Table := .ofLines [
  "980-983 985-98C 98F-990 993-9A8 9AA-9B0 9B2 9B6-9B9 9BC-9C4 9C7-9C8 9CB-9CE 9D7 9DC-9DD",
  "9DF-9E3 9E6-9FE"]

/-- The characters of the Cherokee script. -/
def cherokeeTable : Table := .ofLines [
  "13A0-13F5 13F8-13FD AB70-ABBF"]

/-- The characters of the Cyrillic script. -/
def cyrillicTable : Table := .ofLines [
  "400-484 487-52F 1C80-1C88 1D2B 1D78 2DE0-2DFF A640-A69F FE2E-FE2F 1E030-1E06D 1E08F"]

/-- The characters of the Devanagari script. -/
def devanagariTable : Table := .ofLines [
  "900-950 955-963 966-97F A8E0-A8FF 11B00-11B09"]

/-- The characters of the Ethiopic script. -/
def ethiopicTable : Table := .ofLines [
  "1200-1248 124A-124D 1250-1256 1258:125A 125B-125D 1260-1288 128A-128D 1290-12B0 12B2-12B5",
  "12B8-12BE 12C0:12C2 12C3-12C5 12C8-12D6 12D8-1310 1312-1315 1318-135A 135D-137C 1380-1399",
  "2D80-2D96 2DA0-2DA6 2DA8-2DAE 2DB0-2DB6 2DB8-2DBE 2DC0-2DC6 2DC8-2DCE 2DD0-2DD6 2DD8-2DDE",
  "AB01-AB06 AB09-AB0E AB11-AB16 AB20-AB26 AB28-AB2E 1E7E0-1E7E6 1E7E8-1E7EB 1E7ED-1E7EE",
  "1E7F0-1E7FE"]

/-- The characters of the Georgian script. -/
def georgianTable : Table := .ofLines [
  "10A0-10C5 10C7 10CD 10D0-10FA 10FC-10FF 1C90-1CBA 1CBD-1CBF 2D00-2D25 2D27 2D2D"]

/-- The characters of the Greek script. -/
def greekTable : Table := .ofLines [
  "370-373 375-377 37A-37D 37F 384:388 389-38A 38C:38E 38F-3A1 3A3-3E1 3F0-3FF 1D26-1D2A",
  "1D5D-1D61 1D66-1D6A 1DBF 1F00-1F15 1F18-1F1D 1F20-1F45 1F48-1F4D 1F50-1F57 1F59:1F5F",
  "1F60-1F7D 1F80-1FB4 1FB6-1FC4 1FC6-1FD3 1FD6-1FDB 1FDD-1FEF 1FF2-1FF4 1FF6-1FFE 2126 AB65",
  "10140-1018E 101A0 1D200-1D245"]

/-- The characters of the Gujarati script. -/
def gujaratiTable : Table := .ofLines [
  "A81-A83 A85-A8D A8F-A91 A93-AA8 AAA-AB0 AB2-AB3 AB5-AB9 ABC-AC5 AC7-AC9 ACB-ACD AD0 AE0-AE3",
  "AE6-AF1 AF9-AFF"]

/-- The characters of the Han script. -/
def hanTable : Table := .ofLines [
  "2E80-2E99 2E9B-2EF3 2F00-2FD5 3005:3007 3021-3029 3038-303B 3400-4DBF 4E00-9FFF F900-FA6D",
  "FA70-FAD9 16FE2-16FE3 16FF0-16FF1 20000-2A6DF 2A700-2B739 2B740-2B81D 2B820-2CEA1",
  "2CEB0-2EBE0 2F800-2FA1D 30000-3134A 31350-323AF"]

/-- The characters of the Hangul script. -/
def hangulTable : Table := .ofLines [
  "1100-11FF 302E-302F 3131-318E 3200-321E 3260-327E A960-A97C AC00-D7A3 D7B0-D7C6 D7CB-D7FB",
  "FFA0-FFBE FFC2-FFC7 FFCA-FFCF FFD2-FFD7 FFDA-FFDC"]

/-- The characters of the Hebrew script. -/
def hebrewTable : Table := .ofLines [
  "591-5C7 5D0-5EA 5EF-5F4 FB1D-FB36 FB38-FB3C FB3E:FB40 FB41:FB43 FB44:FB46 FB47-FB4F"]

/-- The characters of the Hiragana script. -/
def hiraganaTable : Table := .ofLines [
  "3041-3096 309D-309F 1B001-1B11F 1B132 1B150-1B152 1F200"]

/-- The characters of the Katakana script. -/
def katakanaTable : Table := .ofLines [
  "30A1-30FA 30FD-30FF 31F0-31FF 32D0-32FE 3300-3357 FF66-FF6F FF71-FF9D 1AFF0-1AFF3",
  "1AFF5-1AFFB 1AFFD-1AFFE 1B000 1B120-1B122 1B155 1B164-1B167"]

/-- The characters of the Khmer script. -/
def khmerTable : Table := .ofLines [
  "1780-17DD 17E0-17E9 17F0-17F9 19E0-19FF"]

/-- The characters of the Latin script. -/
def latinTable : Table := .ofLines [
  "41-5A 61-7A AA BA C0-D6 D8-F6 F8-2B8 2E0-2E4 1D00-1D25 1D2C-1D5C 1D62-1D65 1D6B-1D77",
  "1D79-1DBE 1E00-1EFF 2071 207F 2090-209C 212A-212B 2132 214E 2160-2188 2C60-2C7F A722-A787",
  "A78B-A7CA A7D0-A7D1 A7D3:A7D5 A7D6-A7D9 A7F2-A7FF AB30-AB5A AB5C-AB64 AB66-AB69 FB00-FB06",
  "FF21-FF3A FF41-FF5A 10780-10785 10787-107B0 107B2-107BA 1DF00-1DF1E 1DF25-1DF2A"]

/-- The characters of the Mongolian script. -/
def mongolianTable : Table := .ofLines [
  "1800-1801 1804:1806 1807-1819 1820-1878 1880-18AA 11660-1166C"]

/-- The characters of the Tamil script. -/
def tamilTable : Table := .ofLines [
  "B82-B83 B85-B8A B8E-B90 B92-B95 B99-B9A B9C:B9E B9F BA3-BA4 BA8-BAA BAE-BB9 BBE-BC2 BC6-BC8",
  "BCA-BCD BD0 BD7 BE6-BFA 11FC0-11FF1 11FFF"]

/-- The characters of the Telugu script. -/
def teluguTable : Table := .ofLines [
  "C00-C0C C0E-C10 C12-C28 C2A-C39 C3C-C44 C46-C48 C4A-C4D C55-C56 C58-C5A C5D C60-C63 C66-C6F",
  "C77-C7F"]

/-- The characters of the Thai script. -/
def thaiTable : Table := .ofLines [
  "E01-E3A E40-E5B"]

/-- The characters of the Tibetan script. -/
def tibetanTable : Table := .ofLines [
  "F00-F47 F49-F6C F71-F97 F99-FBC FBE-FCC FCE-FD4 FD9-FDA"]

/-- The characters of a script. -/
def table : Script → Table
  | arabic => arabicTable
  | armenian => armenianTable
  | bengali => bengaliTable
  | cherokee => cherokeeTable
  | cyrillic => cyrillicTable
  | devanagari => devanagariTable
  | ethiopic => ethiopicTable
  | georgian => georgianTable
  | greek => greekTable
  | gujarati => gujaratiTable
  | han => hanTable
  | hangul => hangulTable
  | hebrew => hebrewTable
  | hiragana => hiraganaTable
  | katakana => katakanaTable
  | khmer => khmerTable
  | latin => latinTable
  | mongolian => mongolianTable
  | tamil => tamilTable
  | telugu => teluguTable
  | thai => thaiTable
  | tibetan => tibetanTable

/-- The scripts with their names and codes. -/
def names : List (List String × Script) := [
  (["arabic", "arab"], arabic),
  (["armenian", "armn"], armenian),
  (["bengali", "beng"], bengali),
  (["cherokee", "cher"], cherokee),
  (["cyrillic", "cyrl"], cyrillic),
  (["devanagari", "deva"], devanagari),
  (["ethiopic", "ethi"], ethiopic),
  (["georgian", "geor"], georgian),
  (["greek", "grek"], greek),
  (["gujarati", "gujr"], gujarati),
  (["han", "hani"], han),
  (["hangul", "hang"], hangul),
  (["hebrew", "hebr"], hebrew),
  (["hiragana", "hira"], hiragana),
  (["katakana", "kana"], katakana),
  (["khmer", "khmr"], khmer),
  (["latin", "latn"], latin),
  (["mongolian", "mong"], mongolian),
  (["tamil", "taml"], tamil),
  (["telugu", "telu"], telugu),
  (["thai", "thai"], thai),
  (["tibetan", "tibt"], tibetan)]

end Script
end Unicode
end Marginalia
