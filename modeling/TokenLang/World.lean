import TokenLang.Generator
import TokenLang.Host

/-!
The world of an evaluation: all scopes, what has been printed, the generator of
random numbers, the supply of reference numbers, the code of the host and what it
remembers.
-/

set_option autoImplicit false
set_option relaxedAutoImplicit false

namespace TokenLang

structure World where
  scopes : Array Scope
  output : String
  generator : Generator
  nextRef : Ref
  host : Host := .usual
  memory : Nat := 0
deriving Inhabited

namespace World

def scope (w : World) (id : ScopeId) : Scope := (w.scopes[id]?).getD default

def modifyScope (w : World) (id : ScopeId) (f : Scope → Scope) : World :=
  let ⟨scopes, output, generator, nextRef, host, memory⟩ := w
  ⟨scopes.modify id f, output, generator, nextRef, host, memory⟩

/-- Adds a copy of a scope, which from then on changes on its own. -/
def derive (w : World) (id : ScopeId) : ScopeId × World :=
  (w.scopes.size, { w with scopes := w.scopes.push (w.scope id) })

end World

end TokenLang
