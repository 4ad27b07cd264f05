import ServiceConfig.Document
import ServiceConfig.Tree.Basic

/-! # Trees of documents

A document is read whole before its tree is built, so a text with a fault yields no tree at all.
-/

namespace ServiceConfig.Tree

/-- The tree of a text; `origin` names the text in error messages. -/
def parse (files : Files) (origin : String) (text : List UInt8) : Except ConfigError Tree :=
  (Document.parse files origin text).map ofEvents

/-- The tree of a file. -/
def read (files : Files) (path : String) : Except ConfigError Tree :=
  (Document.read files path).map ofEvents

end ServiceConfig.Tree
