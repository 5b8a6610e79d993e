import CodeAtlas.Syntax.GoGrammar
import CodeAtlas.Syntax.JavaGrammar
import CodeAtlas.Syntax.Parse

/-!
# Known languages

The languages whose trees can be read. A language is worked out from its grammar when the first text
is parsed.
-/

namespace CodeAtlas.Syntax

/-- A language that is worked out when it is needed. -/
@[noinline]
def Language.later (grammar : Unit → Grammar) : Thunk Language :=
  .mk fun u => .ofGrammar (grammar u)

namespace Java

def language : Thunk Language := Language.later fun _ => grammar

def tree (source : Source) : Node := language.get.parse source

end Java

namespace Go

def language : Thunk Language := Language.later fun _ => grammar

def tree (source : Source) : Node := language.get.parse source

end Go

end CodeAtlas.Syntax
