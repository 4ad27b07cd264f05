/-! # Files

All that is known of a file system is what reading a path gives: the bytes of a file, or the reason
why there are none.
-/

namespace ServiceConfig

/-- Why a file could not be read. -/
inductive FileFault
  | notFound
  | notADirectory
  | isADirectory
  | nameTooLong
  | notUtf8
  | nulInName
  | denied
  | unreadable
  deriving DecidableEq, Repr

def FileFault.message : FileFault → String
  | .notFound => "No such file or directory (os error 2)"
  | .notADirectory => "Not a directory (os error 20)"
  | .isADirectory => "Is a directory (os error 21)"
  | .nameTooLong => "File name too long (os error 36)"
  | .notUtf8 => "stream did not contain valid UTF-8"
  | .nulInName => "file name contained an unexpected NUL byte"
  | .denied => "Permission denied (os error 13)"
  | .unreadable => "Input/output error (os error 5)"

/-- Reading a path gives the bytes of a file. -/
abbrev Files := String → Except FileFault (List UInt8)

end ServiceConfig
