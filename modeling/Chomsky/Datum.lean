import Chomsky.Description
import Chomsky.NormalForm.Naming

/-!
# Structured data

Symbols, rules, descriptions and namings can be written as structured data and
read back. A record is written with named fields. It is read from named fields,
of which all must be there and others are ignored, or from a list of its fields
in order. A set of names is written in ascending order and read from any list.
-/

namespace Chomsky

/-- A piece of structured data. -/
inductive Datum where
  | null
  | bool (b : Bool)
  | int (n : Int)
  /-- A number that is not an integer. -/
  | fraction
  | string (text : String)
  | list (items : List Datum)
  | record (fields : List (String × Datum))
deriving Inhabited

namespace Datum

/-- Reads a text. -/
def toText? : Datum → Option String
  | string text => some text
  | _ => none

/-- Reads a list, each item by the same rule. -/
def toList? {α : Type} (read : Datum → Option α) : Datum → Option (List α)
  | list items => items.mapM read
  | _ => none

/-- Reads the fields of a record in the given order. -/
def fields? (keys : List String) : Datum → Option (List Datum)
  | record fields => keys.mapM fun key => fields.lookup key
  | list items => if items.length = keys.length then some items else none
  | _ => none

end Datum

namespace Symbol

/-- A symbol is written as its number. -/
def toDatum (s : Symbol) : Datum := .int s.index

/-- Reads a number of 32 bits. -/
def ofDatum? : Datum → Option Symbol
  | .int (.ofNat n) => if n < UInt32.size then some (ofIndex n) else none
  | _ => none

end Symbol

namespace Rule

def toDatum (rule : Rule) : Datum :=
  .record [("lhs", rule.lhs.toDatum), ("rhs", .list (rule.rhs.map Symbol.toDatum))]

def ofDatum? (datum : Datum) : Option Rule :=
  match datum.fields? ["lhs", "rhs"] with
  | some [lhs, rhs] => do
    return { lhs := ← Symbol.ofDatum? lhs, rhs := ← rhs.toList? Symbol.ofDatum? }
  | _ => none

end Rule

namespace RuleDescription

def toDatum (rule : RuleDescription) : Datum :=
  .record [("lhs", .string rule.lhs), ("rhs", .string rule.rhs)]

def ofDatum? (datum : Datum) : Option RuleDescription :=
  match datum.fields? ["lhs", "rhs"] with
  | some [lhs, rhs] => do return { lhs := ← lhs.toText?, rhs := ← rhs.toText? }
  | _ => none

end RuleDescription

namespace NameSet

def toDatum (set : NameSet) : Datum := .list (set.names.map .string)

def ofDatum? (datum : Datum) : Option NameSet := (datum.toList? Datum.toText?).map ofList

end NameSet

namespace Description

def toDatum (d : Description) : Datum :=
  .record
    [("start", .string d.start), ("nonterminals", d.nonterminals.toDatum),
     ("terminals", d.terminals.toDatum), ("rules", .list (d.rules.map RuleDescription.toDatum))]

def ofDatum? (datum : Datum) : Option Description :=
  match datum.fields? ["start", "nonterminals", "terminals", "rules"] with
  | some [start, nonterminals, terminals, rules] => do
    return {
      start := ← start.toText?
      nonterminals := ← NameSet.ofDatum? nonterminals
      terminals := ← NameSet.ofDatum? terminals
      rules := ← rules.toList? RuleDescription.ofDatum? }
  | _ => none

end Description

namespace Naming

def toDatum (naming : Naming) : Datum :=
  .record
    [("start_suffix", .string naming.startSuffix), ("wrapper_prefix", .string naming.wrapperStem),
     ("helper_prefix", .string naming.helperStem)]

def ofDatum? (datum : Datum) : Option Naming :=
  match datum.fields? ["start_suffix", "wrapper_prefix", "helper_prefix"] with
  | some [startSuffix, wrapperStem, helperStem] => do
    return {
      startSuffix := ← startSuffix.toText?
      wrapperStem := ← wrapperStem.toText?
      helperStem := ← helperStem.toText? }
  | _ => none

end Naming

end Chomsky
