import Chomsky.Grammar.Basic
import Chomsky.Text.Decimal

/-!
# Fresh names

A fresh name is one that no declared symbol has. A suffix is appended to a name
until it is fresh, or a number behind a stem is raised until the numbered name is.
Each name tried is different from those before it, and a declared symbol has a
name only if the table knows it. So there are no more names to be tried in vain
than the table has names.
-/

namespace Chomsky

/-- The suffix in use: an empty one could never make a name fresh and is read as an
apostrophe. -/
def usableSuffix (suffix : String) : String := if suffix.isEmpty then "'" else suffix

/-- Appends the suffix to a name until it is not taken, at most the given number of times. -/
def extendUntilFree (isTaken : String → Bool) (suffix : String) : Nat → String → String
  | 0, name => name
  | tries + 1, name =>
    if isTaken name then extendUntilFree isTaken suffix tries (name ++ suffix) else name

/-- The name that consists of a stem and a number. -/
def numberedName (stem : String) (n : Nat) : String := stem ++ Text.decimal n

/-- Raises a number until the numbered name is not taken, at most the given number of times. -/
def raiseUntilFree (isTaken : String → Bool) (stem : String) : Nat → Nat → Nat
  | 0, n => n
  | tries + 1, n =>
    if isTaken (numberedName stem n) then raiseUntilFree isTaken stem tries (n + 1) else n

namespace Grammar

/-- A name that no declared symbol has: the given one with the least number of suffixes. -/
def freshName (g : Grammar) (t : SymbolTable) (name suffix : String) : String :=
  extendUntilFree (g.isTaken t) (usableSuffix suffix) t.size name

/-- The symbol of a fresh name. It joins the table if it is new, and is not declared. -/
def freshSymbol (g : Grammar) (t : SymbolTable) (name suffix : String) : Symbol × SymbolTable :=
  t.intern (g.freshName t name suffix)

/-- The least number from `n` on whose numbered name no declared symbol has. -/
def freshNumber (g : Grammar) (t : SymbolTable) (stem : String) (n : Nat) : Nat :=
  raiseUntilFree (g.isTaken t) stem t.size n

end Grammar

end Chomsky
