import Chomsky.Proofs.BinarySteps
import Chomsky.Proofs.Names
import Chomsky.Proofs.WellFormed
import Mathlib.Data.Nat.SuccPred
import Mathlib.Logic.Function.Iterate
import Mathlib.Order.Bounds.Defs

/-!
# Fresh names are the first free ones

A fresh name is found by a loop without a bound: a suffix is appended as long as the name
is taken, or a number is raised as long as the numbered name is. Each loop ends, because
there are only as many names to meet as the table has, and it ends at the first candidate
that no declared symbol has. The numbers of helpers start above the last number of the
memo, so within the life of a memo they only rise.
-/

namespace Chomsky

/-! ### Loops -/

/-- A loop that applies its body as long as the test holds, started at the first value, ends at
the second. -/
inductive LoopEnds {α : Type} (test : α → Bool) (body : α → α) : α → α → Prop where
  | stop {a : α} (htest : test a = false) : LoopEnds test body a a
  | next {a b : α} (htest : test a = true) (hrest : LoopEnds test body (body a) b) :
      LoopEnds test body a b

/-- A loop ends where its test fails for the first time. -/
theorem loopEnds_iterate {α : Type} {test : α → Bool} {body : α → α} {a : α} {k : Nat}
    (hstop : test (body^[k] a) = false) (hgoes : ∀ j < k, test (body^[j] a) = true) :
    LoopEnds test body a (body^[k] a) := by
  induction k generalizing a with
  | zero => exact LoopEnds.stop hstop
  | succ k ih =>
    have hfirst : test a = true := hgoes 0 (by omega)
    have hrest : ∀ j < k, test (body^[j] (body a)) = true :=
      fun j hj => hgoes (j + 1) (by omega)
    exact LoopEnds.next hfirst (ih hstop hrest)

private theorem withSuffixes_eq_iterate (suffix name : String) (k : Nat) :
    withSuffixes suffix name k = (· ++ suffix)^[k] name := by
  induction k generalizing name with
  | zero => rfl
  | succ k ih => exact ih (name ++ suffix)

private theorem withSuffixes_eq_append (suffix name : String) (k : Nat) :
    withSuffixes suffix name k = name ++ String.join (List.replicate k suffix) := by
  induction k generalizing name with
  | zero => simp [withSuffixes]
  | succ k ih => rw [withSuffixes, ih, List.replicate_succ, String.join_cons, String.append_assoc]

namespace Grammar

variable {g : Grammar} {t t' : SymbolTable} {name suffix : String} {s : Symbol}

private theorem loopEnds_freshName (g : Grammar) (t : SymbolTable) (name suffix : String) :
    LoopEnds (g.isTaken t) (· ++ usableSuffix suffix) name (g.freshName t name suffix) := by
  obtain ⟨k, heq, hfree, htaken⟩ := g.freshName_eq t name suffix
  simp only [withSuffixes_eq_iterate] at heq hfree htaken
  rw [heq]
  exact loopEnds_iterate hfree htaken

private theorem loopEnds_freshNumber (g : Grammar) (t : SymbolTable) (stem : String) (n : Nat) :
    LoopEnds (fun n => g.isTaken t (numberedName stem n)) (· + 1) n (g.freshNumber t stem n) := by
  obtain ⟨hle, hfree, htaken⟩ := g.freshNumber_eq t stem n
  obtain ⟨k, hk⟩ := Nat.exists_eq_add_of_le hle
  have hiterate : ∀ j, (· + 1)^[j] n = n + j := Nat.succ_iterate n
  rw [hk, ← hiterate]
  apply loopEnds_iterate
  · rwa [hiterate, ← hk]
  · intro j hj
    rw [hiterate]
    exact htaken (n + j) (by omega) (by omega)

/-- A declared symbol has the name. -/
def DeclaresName (g : Grammar) (t : SymbolTable) (name : String) : Prop :=
  ∃ s, g.isDeclared s = true ∧ t.nameOf s = name

/-- The first candidate that is not taken is the first that no declared symbol has. -/
theorem isLeast_of_isTaken (hdeclared : ∀ s, g.isDeclared s = true → t.Covers s)
    (hsize : t.size ≤ UInt32.size) {candidate : Nat → String} {first k : Nat} (hfirst : first ≤ k)
    (hfree : g.isTaken t (candidate k) = false)
    (htaken : ∀ j, first ≤ j → j < k → g.isTaken t (candidate j) = true) :
    IsLeast {k | first ≤ k ∧ ¬g.DeclaresName t (candidate k)} k := by
  refine ⟨⟨hfirst, fun hname => ?_⟩, ?_⟩
  · rw [(isTaken_iff_of_declared hdeclared hsize).mpr hname] at hfree
    cases hfree
  · rintro j ⟨hle, hj⟩
    by_contra hlt
    exact hj ((isTaken_iff_of_declared hdeclared hsize).mp (htaken j hle (Nat.lt_of_not_le hlt)))

/-- A symbol has the name that the loop over suffixes ends with. It is the given name with the least
number of suffixes that no declared symbol has, and the symbol itself is new to the grammar. -/
structure FreshlyNamed (g : Grammar) (t : SymbolTable) (name suffix : String) (s : Symbol)
    (t' : SymbolTable) : Prop where
  ends : LoopEnds (g.isTaken t) (· ++ usableSuffix suffix) name (t'.nameOf s)
  least : ∃ k, t'.nameOf s = name ++ String.join (List.replicate k (usableSuffix suffix)) ∧
    IsLeast {k | ¬g.DeclaresName t (name ++ String.join (List.replicate k (usableSuffix suffix)))} k
  undeclared : g.isDeclared s = false
  unused : g.validate t = .ok () → ∀ rule ∈ g.rules, rule.lhs ≠ s ∧ s ∉ rule.rhs

private theorem CoveredBy.freshlyNamed (hg : g.CoveredBy t)
    (hsize : (g.freshSymbol t name suffix).2.size ≤ UInt32.size) :
    g.FreshlyNamed t name suffix (g.freshSymbol t name suffix).1
      (g.freshSymbol t name suffix).2 := by
  have hname : (g.freshSymbol t name suffix).2.nameOf (g.freshSymbol t name suffix).1 =
      g.freshName t name suffix := SymbolTable.nameOf_intern hsize
  have hsize' : t.size ≤ UInt32.size := Nat.le_trans (t.growsTo_intern _).size_le hsize
  have hundeclared := not_isDeclared_freshSymbol hg hsize
  refine ⟨?_, ?_, hundeclared, fun hvalid rule hrule => ?_⟩
  · rw [hname]
    exact g.loopEnds_freshName t name suffix
  · obtain ⟨k, heq, hfree, htaken⟩ := g.freshName_eq t name suffix
    simp only [withSuffixes_eq_append] at heq hfree htaken
    have hleast := isLeast_of_isTaken (fun _ hs => hg.declared hs) hsize' (Nat.zero_le k) hfree
      fun j _ hj => htaken j hj
    exact ⟨k, hname.trans heq, by simpa using hleast⟩
  · exact (validate_eq_ok_iff.mp hvalid).1.not_mem_rule hundeclared hrule

end Grammar

/-! ### Numbers of helpers -/

namespace Binarization

variable {b b' : Binarization} {left right : Symbol}

/-- A helper has the number that the loop over numbers ends with. It is the least one above the last
number of the memo whose name no declared symbol of the grammar under construction has. -/
structure NumbersHelper (b : Binarization) (s : Symbol) (b' : Binarization) : Prop where
  ends : LoopEnds
    (fun n => b.grammar.isTaken b.table (numberedName b.memo.naming.helperStem n)) (· + 1)
    (b.memo.lastNumber + 1) b'.memo.lastNumber
  least : IsLeast {n | b.memo.lastNumber < n ∧
      ¬b.grammar.DeclaresName b.table (numberedName b.memo.naming.helperStem n)}
    b'.memo.lastNumber
  name : b'.table.nameOf s = numberedName b.memo.naming.helperStem b'.memo.lastNumber

private theorem lastNumber_lt_addHelper (b : Binarization) (left right : Symbol) :
    b.memo.lastNumber < (b.addHelper left right).2.memo.lastNumber :=
  (b.grammar.freshNumber_eq b.table b.memo.naming.helperStem (b.memo.lastNumber + 1)).1

private theorem nameOf_addHelper (hsize : (b.addHelper left right).2.table.size ≤ UInt32.size) :
    (b.addHelper left right).2.table.nameOf (b.addHelper left right).1 =
      numberedName b.memo.naming.helperStem (b.addHelper left right).2.memo.lastNumber :=
  SymbolTable.nameOf_intern hsize

private theorem numbersHelper_addHelper
    (hdeclared : ∀ s, b.grammar.isDeclared s = true → b.table.Covers s)
    (hsize : (b.addHelper left right).2.table.size ≤ UInt32.size) :
    b.NumbersHelper (b.addHelper left right).1 (b.addHelper left right).2 := by
  have hsize' : b.table.size ≤ UInt32.size :=
    Nat.le_trans (b.table.growsTo_intern _).size_le hsize
  obtain ⟨hle, hfree, htaken⟩ := b.grammar.freshNumber_eq b.table b.memo.naming.helperStem
    (b.memo.lastNumber + 1)
  exact ⟨b.grammar.loopEnds_freshNumber ..,
    Grammar.isLeast_of_isTaken hdeclared hsize' hle hfree htaken, nameOf_addHelper hsize⟩

/-- The names of the helpers that were introduced, in the order of the events. -/
def helperNames (b : Binarization) : List String :=
  b.events.filterMap fun event =>
    match event with
    | .helper name _ _ => some name
    | _ => none

/-- During a run that started with the memo, helpers were introduced with the listed numbers, the
latest first. -/
structure Numbered (memo : BinaryMemo) (b : Binarization) (numbers : List Nat) : Prop where
  naming : b.memo.naming = memo.naming
  names : b.helperNames = numbers.map (numberedName memo.naming.helperStem)
  descending : numbers.Pairwise (· > ·)
  above : ∀ n ∈ numbers, memo.lastNumber < n
  upTo : ∀ n ∈ numbers, n ≤ b.memo.lastNumber
  rises : memo.lastNumber ≤ b.memo.lastNumber

variable {memo : BinaryMemo} {numbers : List Nat}

/-- A new helper has the number that was counted for it. -/
theorem Numbered.addHelper (h : b.Numbered memo numbers)
    (hsize : (b.addHelper left right).2.table.size ≤ UInt32.size) :
    (b.addHelper left right).2.Numbered memo
      ((b.addHelper left right).2.memo.lastNumber :: numbers) := by
  have hlt := b.lastNumber_lt_addHelper left right
  have hnames : (b.addHelper left right).2.helperNames =
      (b.addHelper left right).2.table.nameOf (b.addHelper left right).1 :: b.helperNames := rfl
  refine ⟨h.naming, ?_, List.pairwise_cons.mpr ⟨fun n hn => ?_, h.descending⟩, ?_, ?_, ?_⟩
  · rw [hnames, nameOf_addHelper hsize, h.naming, h.names, List.map_cons]
  · exact Nat.lt_of_le_of_lt (h.upTo n hn) hlt
  · intro n hn
    rcases List.mem_cons.mp hn with rfl | hn
    · exact Nat.lt_of_le_of_lt h.rises hlt
    · exact h.above n hn
  · intro n hn
    rcases List.mem_cons.mp hn with rfl | hn
    · exact Nat.le_refl _
    · exact Nat.le_of_lt (Nat.lt_of_le_of_lt (h.upTo n hn) hlt)
  · exact Nat.le_of_lt (Nat.lt_of_le_of_lt h.rises hlt)

/-- Only a helper gets a number, and it gets a higher one than those before it. -/
theorem keptBySteps_numbered (memo : BinaryMemo) : KeptBySteps fun b =>
    b.table.size ≤ UInt32.size → ∃ numbers, b.Numbered memo numbers where
  addWrapper b s _ hb hsize := by
    obtain ⟨numbers, h⟩ := hb (Nat.le_trans (b.table.growsTo_intern _).size_le hsize)
    exact ⟨numbers, h.naming, h.names, h.descending, h.above, h.upTo, h.rises⟩
  addHelper b left right hb hsize := by
    obtain ⟨numbers, h⟩ := hb (Nat.le_trans (b.table.growsTo_intern _).size_le hsize)
    exact ⟨_, h.addHelper hsize⟩
  emit b rule hb hsize := by
    obtain ⟨numbers, h⟩ := hb hsize
    exact ⟨numbers, h.naming, h.names, h.descending, h.above, h.upTo, h.rises⟩

end Binarization

open Binarization

/-- The helpers of a single run have rising numbers between the last number of the memo and the one
that the run leaves behind. -/
theorem Grammar.helperNames_binarize (g : Grammar) (memo : BinaryMemo) (t : SymbolTable)
    (hsize : (g.binarize memo t).table.size ≤ UInt32.size) :
    ∃ numbers : List Nat,
      (g.binarize memo t).helperNames = numbers.map (numberedName memo.naming.helperStem) ∧
      numbers.Pairwise (· < ·) ∧
      (∀ n ∈ numbers, memo.lastNumber < n ∧ n ≤ (g.binarize memo t).memo.lastNumber) ∧
      memo.lastNumber ≤ (g.binarize memo t).memo.lastNumber ∧
      (g.binarize memo t).memo.naming = memo.naming := by
  have hstart : Numbered memo { memo, table := t, grammar := g.withRules [] } [] :=
    ⟨rfl, rfl, List.Pairwise.nil, by simp, by simp, Nat.le_refl _⟩
  obtain ⟨numbers, h⟩ := (keptBySteps_numbered memo).addSplits g.rules
    (fun _ => ⟨[], hstart⟩) hsize
  refine ⟨numbers.reverse, ?_, List.pairwise_reverse.mpr h.descending, fun n hn => ?_, h.rises,
    h.naming⟩
  · rw [List.map_reverse, ← h.names]
    exact List.filterMap_reverse
  · have hn := List.mem_reverse.mp hn
    exact ⟨h.above n hn, h.upTo n hn⟩

/-- The results of splitting grammars one after the other, each over its own table, with one memo
that is passed on. -/
def splitInTurn (memo : BinaryMemo) : List (Grammar × SymbolTable) → List Binarization
  | [] => []
  | (g, t) :: rest => g.binarize memo t :: splitInTurn (g.binarize memo t).memo rest

/-- All helpers that a memo gives names to have rising numbers, whatever grammars it serves. -/
theorem helperNames_splitInTurn (memo : BinaryMemo) (inputs : List (Grammar × SymbolTable))
    (hsize : ∀ b ∈ splitInTurn memo inputs, b.table.size ≤ UInt32.size) :
    ∃ numbers : List Nat,
      (splitInTurn memo inputs).flatMap helperNames =
        numbers.map (numberedName memo.naming.helperStem) ∧
      numbers.Pairwise (· < ·) ∧ ∀ n ∈ numbers, memo.lastNumber < n := by
  induction inputs generalizing memo with
  | nil => exact ⟨[], rfl, List.Pairwise.nil, by simp⟩
  | cons input rest ih =>
    obtain ⟨g, t⟩ := input
    obtain ⟨numbers, hnames, hrising, hrange, hlast, hnaming⟩ :=
      g.helperNames_binarize memo t (hsize _ List.mem_cons_self)
    obtain ⟨others, hnames', hrising', habove⟩ :=
      ih (g.binarize memo t).memo fun b hb => hsize b (List.mem_cons_of_mem _ hb)
    refine ⟨numbers ++ others, ?_, ?_, ?_⟩
    · rw [splitInTurn, List.flatMap_cons, hnames, hnames', hnaming, List.map_append]
    · refine List.pairwise_append.mpr ⟨hrising, hrising', fun m hm n hn => ?_⟩
      exact Nat.lt_of_le_of_lt (hrange m hm).2 (habove n hn)
    · intro n hn
      rcases List.mem_append.mp hn with hn | hn
      · exact (hrange n hn).1
      · exact Nat.lt_of_le_of_lt hlast (habove n hn)

/-- A fresh symbol has the given name with the least number of suffixes that makes it differ from
all declared names, and a new helper has the least number above the last one that does so. The loops
that find them end. Whatever grammars a memo serves, the numbers of its helpers only rise. -/
theorem fresh_names_least :
    (∀ (g : Grammar) (t : SymbolTable) (name suffix : String), g.CoveredBy t →
      (g.freshSymbol t name suffix).2.size ≤ UInt32.size →
      g.FreshlyNamed t name suffix (g.freshSymbol t name suffix).1
        (g.freshSymbol t name suffix).2) ∧
    (∀ (b : Binarization) (left right : Symbol),
      (∀ s, b.grammar.isDeclared s = true → b.table.Covers s) →
      b.memo.helper? left right = none → (b.pair left right).2.table.size ≤ UInt32.size →
      b.NumbersHelper (b.pair left right).1 (b.pair left right).2) ∧
    ∀ (memo : BinaryMemo) (inputs : List (Grammar × SymbolTable)),
      (∀ b ∈ splitInTurn memo inputs, b.table.size ≤ UInt32.size) →
      ∃ numbers : List Nat,
        (splitInTurn memo inputs).flatMap helperNames =
          numbers.map (numberedName memo.naming.helperStem) ∧
        numbers.Pairwise (· < ·) ∧ ∀ n ∈ numbers, memo.lastNumber < n := by
  refine ⟨fun g t name suffix hg hsize => hg.freshlyNamed hsize,
    fun b left right hdeclared hnone hsize => ?_, helperNames_splitInTurn⟩
  have hpair : b.pair left right = b.addHelper left right := by rw [pair, hnone]
  rw [hpair] at hsize ⊢
  exact numbersHelper_addHelper hdeclared hsize

/-- The start symbol `S` and a nonterminal `S'` are declared, and so is `H2`. -/
def suffixed : Grammar where
  start := ⟨0⟩
  nonterminals := .ofList [⟨0⟩, ⟨1⟩, ⟨2⟩]
  terminals := .ofList [⟨3⟩]
  rules := [⟨⟨0⟩, [⟨1⟩, ⟨2⟩, ⟨1⟩, ⟨2⟩]⟩, ⟨⟨1⟩, [⟨3⟩]⟩, ⟨⟨2⟩, [⟨3⟩]⟩]

/-- The table has met `S''`, which is declared by no symbol. -/
def suffixedTable : SymbolTable :=
  (SymbolTable.empty.internAll ["S", "S'", "H2", "a", "S''"]).2

/-- Two suffixes are needed for `S`, and the symbol that the table has for this name is taken. After
the number 1 the number 2 is passed over. Splitting the rules twice with one memo introduces two
helpers in all. -/
theorem fresh_names_suffixed :
    suffixed.CoveredBy suffixedTable ∧
    (suffixed.freshSymbol suffixedTable "S" "").2.nameOf ⟨4⟩ = "S''" ∧
    (∀ rule ∈ suffixed.rules, rule.lhs ≠ ⟨4⟩ ∧ ⟨4⟩ ∉ rule.rhs) ∧
    IsLeast {n | 1 < n ∧ ¬suffixed.DeclaresName suffixedTable (numberedName "H" n)} 3 ∧
    ∃ numbers : List Nat, numbers.map (numberedName "H") = ["H1", "H3"] ∧
      numbers.Pairwise (· < ·) := by
  have hcovered : suffixed.CoveredBy suffixedTable := by decide +kernel
  obtain ⟨hfresh, hpair, hrising⟩ := fresh_names_least
  have hsymbol : (suffixed.freshSymbol suffixedTable "S" "").1 = ⟨4⟩ := by decide +kernel
  have hnamed := hfresh suffixed suffixedTable "S" "" hcovered (by decide +kernel)
  let b : Binarization :=
    { memo := { lastNumber := 1 }, table := suffixedTable, grammar := suffixed }
  have hnumber := hpair b ⟨1⟩ ⟨2⟩ (fun s hs => hcovered.declared hs) rfl (by decide +kernel)
  have hlast : (b.pair ⟨1⟩ ⟨2⟩).2.memo.lastNumber = 3 := by decide +kernel
  obtain ⟨numbers, hnames, hpairwise, _⟩ :=
    hrising {} [(suffixed, suffixedTable), (suffixed, suffixedTable)] (by decide +kernel)
  rw [hsymbol] at hnamed
  refine ⟨hcovered, by decide +kernel, hnamed.unused (by decide +kernel), hlast ▸ hnumber.least,
    numbers, ?_, hpairwise⟩
  rw [← show _ = numbers.map (numberedName "H") from hnames]
  decide +kernel

end Chomsky
