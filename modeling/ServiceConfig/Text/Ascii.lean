/-! # ASCII classes and case

Blanks, letter case and the delimiters of the configuration language are all ASCII. Scanning works
on bytes, so a byte above 127 is never blank, never a delimiter and never changes with case.
-/

namespace ServiceConfig.Ascii

def tab : UInt8 := 9
def newline : UInt8 := 10
def formFeed : UInt8 := 12
def carriageReturn : UInt8 := 13
def space : UInt8 := 32
def quote : UInt8 := 34
def hash : UInt8 := 35
def star : UInt8 := 42
def slash : UInt8 := 47
def semicolon : UInt8 := 59
def backslash : UInt8 := 92
def openBrace : UInt8 := 123
def closeBrace : UInt8 := 125

/-- Five bytes separate words; the vertical tab is not one of them. -/
def isBlank (byte : UInt8) : Bool :=
  byte == space || byte == tab || byte == newline || byte == formFeed || byte == carriageReturn

/-- The number of line ends in a run of bytes. -/
def newlines (bytes : List UInt8) : Nat := bytes.count newline

def lowerByte (byte : UInt8) : UInt8 := if 65 ≤ byte && byte ≤ 90 then byte + 32 else byte

/-- Equality up to ASCII case, of keys as bytes. -/
def bytesEqualFold (first second : List UInt8) : Bool :=
  first.map lowerByte == second.map lowerByte

/-- Equality up to ASCII case, of texts. -/
def equalFold (first second : String) : Bool :=
  first.toList.map Char.toLower == second.toList.map Char.toLower

/-- Whether a text begins with `start`, up to ASCII case. -/
def startsWithFold (text start : String) : Bool :=
  (start.toList.map Char.toLower).isPrefixOf (text.toList.map Char.toLower)

end ServiceConfig.Ascii
