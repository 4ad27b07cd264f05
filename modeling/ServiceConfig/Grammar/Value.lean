import ServiceConfig.Text.Ascii

/-! # Values

The raw text of a value runs to the first `;`, `{` or `}` outside double quotes. What it stands for
is `expand`: quoted parts verbatim with their escapes resolved, and a run of blanks outside quotes
as one space, or as nothing at the end.
-/

namespace ServiceConfig.Grammar

open Ascii

def isDelimiter (byte : UInt8) : Bool :=
  byte == semicolon || byte == openBrace || byte == closeBrace

/-- Whether a scan of a value stands inside double quotes, and there after a backslash. -/
inductive Quoting
  | outside
  | inside
  | escaped
  deriving DecidableEq, Repr

def Quoting.step (quoting : Quoting) (byte : UInt8) : Quoting :=
  match quoting with
  | .outside => if byte = quote then .inside else .outside
  | .inside => if byte = quote then .outside else if byte = backslash then .escaped else .inside
  | .escaped => .inside

/-- The raw value and what follows it, from the delimiter on. Without a delimiter, all of the text
is taken and nothing follows. -/
def splitValueFrom (quoting : Quoting) : List UInt8 → List UInt8 × List UInt8
  | [] => ([], [])
  | byte :: rest =>
    if quoting = .outside ∧ isDelimiter byte then ([], byte :: rest)
    else
      let (raw, after) := splitValueFrom (quoting.step byte) rest
      (byte :: raw, after)

def splitValue (text : List UInt8) : List UInt8 × List UInt8 := splitValueFrom .outside text

/-- The control characters with a letter of their own; any other escaped byte stands for itself. -/
def unescape (byte : UInt8) : UInt8 :=
  if byte = 97 then 7        -- a
  else if byte = 98 then 8   -- b
  else if byte = 102 then 12 -- f
  else if byte = 110 then 10 -- n
  else if byte = 114 then 13 -- r
  else if byte = 116 then 9  -- t
  else if byte = 118 then 11 -- v
  else byte

/-- The bytes that one byte of a raw value contributes; `rest` tells where a run of blanks ends. -/
def contribution (quoting : Quoting) (byte : UInt8) (rest : List UInt8) : List UInt8 :=
  match quoting with
  | .outside =>
    if byte = quote then []
    else if isBlank byte then
      match rest with
      | [] => []
      | next :: _ => if isBlank next then [] else [space]
    else [byte]
  | .inside =>
    if byte = quote then []
    else if byte = backslash then (if rest.isEmpty then [backslash] else [])
    else [byte]
  | .escaped => [unescape byte]

def expandFrom (quoting : Quoting) : List UInt8 → List UInt8
  | [] => []
  | byte :: rest => contribution quoting byte rest ++ expandFrom (quoting.step byte) rest

/-- The text that a raw value stands for. -/
def expand (raw : List UInt8) : List UInt8 := expandFrom .outside raw

end ServiceConfig.Grammar
