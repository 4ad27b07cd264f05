import ServiceConfig.Text.Visible

/-! # Quoted text

A value is reported in double quotes, so that its ends and its invisible characters can be seen.
-/

namespace ServiceConfig.Text

def hexDigits (code : Nat) : List Char := Nat.toDigits 16 code

/-- The written form of one character: short escapes for the most common control characters, the
code point in hexadecimal for all others that do not show. -/
def quotedChar (char : Char) : List Char :=
  match char with
  | '\x00' => ['\\', '0']
  | '\t' => ['\\', 't']
  | '\n' => ['\\', 'n']
  | '\r' => ['\\', 'r']
  | '"' => ['\\', '"']
  | '\\' => ['\\', '\\']
  | char =>
    if shows char then [char] else ['\\', 'u', '\x7b'] ++ hexDigits char.toNat ++ ['\x7d']

def quoted (text : String) : String :=
  String.ofList ('"' :: text.toList.flatMap quotedChar ++ ['"'])

end ServiceConfig.Text
