import Chomsky.Symbol.Set

/-!
# Stores of symbol sets

A store holds a set of symbols at every place, at first the empty one, and is
changed by commands that name the places they work on.
-/

namespace Chomsky

/-- A set of symbols at every place. -/
def SetStore : Type := Nat → SymbolSet

/-- What can be done to the set at place `i`. -/
inductive SetCommand where
  | insert (i : Nat) (s : Symbol)
  | erase (i : Nat) (s : Symbol)
  | set (i : Nat) (s : Symbol) (present : Bool)
  | reserve (i : Nat) (n : Nat)
  /-- Adds the members of the set at place `j`. -/
  | union (i j : Nat)
  /-- Keeps the members of the set at place `j`. -/
  | inter (i j : Nat)
  | insertMany (i : Nat) (symbols : List Symbol)
  /-- Puts the set of the listed symbols in place of the old one. -/
  | collect (i : Nat) (symbols : List Symbol)

namespace SetCommand

/-- The place that a command changes. -/
def target : SetCommand → Nat
  | insert i _ | erase i _ | set i _ _ | reserve i _ | union i _ | inter i _ | insertMany i _
  | collect i _ => i

/-- The set that a command puts at its place. -/
def result (store : SetStore) : SetCommand → SymbolSet
  | insert i s => (store i).insert s
  | erase i s => (store i).erase s
  | set i s present => (store i).set s present
  | reserve i n => (store i).reserve n
  | union i j => (store i).union (store j)
  | inter i j => (store i).inter (store j)
  | insertMany i symbols => (store i).insertMany symbols
  | collect _ symbols => SymbolSet.ofList symbols

end SetCommand

namespace SetStore

/-- The store of empty sets. -/
def empty : SetStore := fun _ => ∅

/-- The store after a command. -/
def apply (store : SetStore) (command : SetCommand) : SetStore :=
  let result := command.result store
  fun i => if i = command.target then result else store i

/-- The store after commands from left to right. -/
def run (store : SetStore) (commands : List SetCommand) : SetStore := commands.foldl apply store

end SetStore

end Chomsky
