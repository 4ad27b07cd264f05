import ServiceConfig.Text.Ascii
import ServiceConfig.Tree.Basic

/-! # Queries

A query asks for a name and, if it says so, a value; both are compared up to ASCII case unless it is
case-sensitive. A recursive query looks at all depths below a list, any other only at its entries.
-/

namespace ServiceConfig

structure Query where
  name : String
  value? : Option String := none
  caseSensitive : Bool := false
  recursive : Bool := false
  kind? : Option Kind := none
  deriving DecidableEq, Repr

namespace Query

def same (query : Query) (text wanted : String) : Bool :=
  if query.caseSensitive then text == wanted else Ascii.equalFold text wanted

/-- Whether an entry is one that the query asks for. A value can only be asked for where there is
one. -/
def matchesEntry (query : Query) (entry : Entry) : Bool :=
  query.same entry.name query.name
    && query.kind?.all (· = entry.kind)
    && query.value?.all fun wanted => entry.value?.any (query.same · wanted)

def ofKind (query : Query) (kind : Kind) : Query := { query with kind? := some kind }

end Query

end ServiceConfig
