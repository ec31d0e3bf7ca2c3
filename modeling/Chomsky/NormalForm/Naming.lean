/-!
# Names of introduced nonterminals
-/

namespace Chomsky

/-- How nonterminals are named that a transformation introduces. -/
structure Naming where
  /-- Appended to the name of the start symbol to name a new one. -/
  startSuffix : String := "'"
  /-- Put before the name of a terminal to name its wrapper. -/
  wrapperStem : String := "T_"
  /-- Put before a number to name the helper of a pair of symbols. -/
  helperStem : String := "H"
deriving DecidableEq, Inhabited

end Chomsky
