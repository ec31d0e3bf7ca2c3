import Chomsky.Symbol.Set

/-!
# Relations between symbols

A relation on the symbols below `size` is a matrix of bits. A row has `stride`
positions, which is `size` rounded up to a multiple of 32, and the rows follow
each other without gaps. A pair is addressed by the single position
`row * stride + column`, so a column beyond `size` names a spare position of its
row or a position of a later row. Positions beyond the last row do not exist.
-/

namespace Chomsky

/-- An access to a position or row that a relation does not have. -/
structure RangeError where
  row : Symbol
  column : Option Symbol := none
deriving DecidableEq

/-- A relation on the symbols below `size`. Row `i` holds its bits as a binary number. -/
structure SymbolRelation where
  rows : List Nat
deriving DecidableEq

namespace SymbolRelation

/-- The empty relation on the symbols below a number. -/
def empty (size : Nat) : SymbolRelation := ⟨List.replicate size 0⟩

/-- The number of symbols. -/
def size (r : SymbolRelation) : Nat := r.rows.length

/-- The length of a row: the size rounded up to a multiple of 32. -/
def stride (r : SymbolRelation) : Nat := (r.size + 31) / 32 * 32

/-- The position of a pair in the sequence of all bits. -/
def position (r : SymbolRelation) (row column : Symbol) : Nat :=
  row.index * r.stride + column.index

/-- Includes a pair in the relation or excludes it. -/
def set (r : SymbolRelation) (row column : Symbol) (included : Bool) :
    Except RangeError SymbolRelation :=
  let position := r.position row column
  if position < r.size * r.stride then
    let bit := 1 <<< (position % r.stride)
    .ok ⟨r.rows.modify (position / r.stride) fun bits =>
      if included then bits ||| bit else bits ^^^ (bits &&& bit)⟩
  else .error { row, column := some column }

/-- Tests a pair. -/
def get (r : SymbolRelation) (row column : Symbol) : Except RangeError Bool :=
  let position := r.position row column
  if position < r.size * r.stride then
    .ok ((r.rows.getD (position / r.stride) 0).testBit (position % r.stride))
  else .error { row, column := some column }

/-- Includes pairs one after the other. -/
def insertMany (r : SymbolRelation) : List (Symbol × Symbol) → Except RangeError SymbolRelation
  | [] => .ok r
  | (row, column) :: rest =>
    match r.set row column true with
    | .ok r => r.insertMany rest
    | .error e => .error e

/-- The relation of the listed pairs. -/
def ofPairs (size : Nat) (pairs : List (Symbol × Symbol)) : Except RangeError SymbolRelation :=
  (empty size).insertMany pairs

/-- The symbols below `size` that a row relates to, in the order of their numbers.
The relation without symbols has only empty rows. -/
def row (r : SymbolRelation) (s : Symbol) : Except RangeError (List Symbol) :=
  if r.size = 0 then .ok []
  else if s.index < r.size then
    let bits := r.rows.getD s.index 0
    .ok (((List.range r.size).filter bits.testBit).map Symbol.ofIndex)
  else .error { row := s }

/-- The symbols that a row relates to, as a set. -/
def rowSet (r : SymbolRelation) (s : Symbol) : Except RangeError SymbolSet :=
  (r.row s).map SymbolSet.ofList

/-- Joins the row of `pivot` to every row that contains it. -/
def joinThrough (r : SymbolRelation) (pivot : Nat) : SymbolRelation :=
  let joined := r.rows.getD pivot 0
  ⟨r.rows.map fun bits => if bits.testBit pivot then bits ||| joined else bits⟩

/-- The transitive closure, by one pass over all pivots. -/
def transitiveClosure (r : SymbolRelation) : SymbolRelation :=
  (List.range r.size).foldl joinThrough r

/-- Relates every symbol below `size` to itself. -/
def reflexiveClosure (r : SymbolRelation) : SymbolRelation :=
  ⟨r.rows.mapIdx fun i bits => bits ||| 1 <<< i⟩

end SymbolRelation

end Chomsky
