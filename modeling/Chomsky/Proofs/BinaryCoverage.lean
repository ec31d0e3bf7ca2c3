import Chomsky.NormalForm.Binary
import Chomsky.Proofs.WellFormed

/-!
# Coverage along a splitting run

A run that splits rules never loses track of its table: whatever it puts into a
rule or into its memo is a symbol that the table has handed out. An introduced
symbol is not declared before, provided that the table stays within the numbers of
symbols.
-/

namespace Chomsky

namespace Binarization

variable {b b' b'' : Binarization} {s : Symbol} {rhs symbols results : List Symbol} {rule : Rule}

/-- The table has handed out all symbols of the grammar and of the memo. -/
structure Covered (b : Binarization) : Prop where
  grammar : b.grammar.CoveredBy b.table
  wrappers : ∀ entry ∈ b.memo.wrappers, b.table.Covers entry.2
  helpers : ∀ entry ∈ b.memo.helpers, b.table.Covers entry.2

/-- The table has grown and still covers everything, also the symbols handed back. -/
structure Advances (b b' : Binarization) (results : List Symbol) : Prop where
  grows : b.table.GrowsTo b'.table
  covered : b'.Covered
  results : ∀ s ∈ results, b'.table.Covers s

/-- A new symbol is declared, with a single rule. It is not declared before, provided that the
table stays within the numbers of symbols. -/
structure Introduces (b b' : Binarization) (s : Symbol) (rhs : List Symbol) : Prop where
  grows : b.table.GrowsTo b'.table
  covers : b'.table.Covers s
  grammar : b'.grammar = (b.grammar.addNonterminal s).withRules (⟨s, rhs⟩ :: b.grammar.rules)
  fresh : b.grammar.CoveredBy b.table → b'.table.size ≤ UInt32.size → b.grammar.isDeclared s = false

/-- A new wrapper is introduced for its terminal. -/
theorem introduces_addWrapper (b : Binarization) (terminal : Symbol) :
    b.Introduces (b.addWrapper terminal).2 (b.addWrapper terminal).1 [terminal] where
  grows := b.table.growsTo_intern _
  covers := b.table.covers_intern _
  grammar := rfl
  fresh hcovered hsize := Grammar.not_isDeclared_freshSymbol hcovered hsize

/-- A new helper is introduced for its two symbols. -/
theorem introduces_addHelper (b : Binarization) (left right : Symbol) :
    b.Introduces (b.addHelper left right).2 (b.addHelper left right).1 [left, right] where
  grows := b.table.growsTo_intern _
  covers := b.table.covers_intern _
  grammar := rfl
  fresh hcovered hsize :=
    Grammar.not_isDeclared_intern hcovered (b.grammar.freshNumber_eq b.table _ _).2.1 hsize

/-- A new wrapper is found for its terminal, and the others as before. -/
theorem wrapper?_addWrapper (b : Binarization) (terminal t : Symbol) :
    (b.addWrapper terminal).2.memo.wrapper? t =
      if t = terminal then some (b.addWrapper terminal).1 else b.memo.wrapper? t := by
  by_cases h : t = terminal
  · rw [if_pos h, h]
    exact List.lookup_cons_self
  · have hbeq : (t == terminal) = false := beq_eq_false_iff_ne.mpr h
    show List.lookup t ((terminal, _) :: b.memo.wrappers) = _
    rw [if_neg h, List.lookup_cons, hbeq]
    rfl

/-- A new helper is found for its two symbols, and the others as before. -/
theorem helper?_addHelper (b : Binarization) (left right l r : Symbol) :
    (b.addHelper left right).2.memo.helper? l r =
      if (l, r) = (left, right) then some (b.addHelper left right).1 else b.memo.helper? l r := by
  by_cases h : (l, r) = (left, right)
  · rw [if_pos h, BinaryMemo.helper?, h]
    exact List.lookup_cons_self
  · have hbeq : ((l, r) == (left, right)) = false := beq_eq_false_iff_ne.mpr h
    show List.lookup (l, r) (((left, right), _) :: b.memo.helpers) = _
    rw [if_neg h, List.lookup_cons, hbeq]
    rfl

/-- One nonterminal is added. -/
theorem Introduces.mem_nonterminals (h : b.Introduces b' s rhs) {x : Symbol} :
    x ∈ b'.grammar.nonterminals ↔ x ∈ b.grammar.nonterminals ∨ x = s := by
  rw [h.grammar]
  simp [Grammar.withRules, Grammar.addNonterminal, SymbolSet.mem_iff, or_comm]

/-- One symbol is declared in addition. -/
theorem Introduces.isDeclared_iff (h : b.Introduces b' s rhs) {x : Symbol} :
    b'.grammar.isDeclared x = true ↔ b.grammar.isDeclared x = true ∨ x = s := by
  rw [Grammar.isDeclared_iff, Grammar.isDeclared_iff, h.mem_nonterminals, h.grammar, or_assoc]
  rfl

/-- The larger table covers the larger grammar. -/
theorem Introduces.coveredBy (h : b.Introduces b' s rhs) (hb : b.grammar.CoveredBy b.table)
    (hrhs : ∀ x ∈ rhs, b.table.Covers x) : b'.grammar.CoveredBy b'.table where
  start := by
    rw [h.grammar]
    exact h.grows.covers hb.start
  nonterminals x hx := by
    rcases h.mem_nonterminals.mp hx with hx | rfl
    · exact h.grows.covers (hb.nonterminals x hx)
    · exact h.covers
  terminals x hx := by
    rw [h.grammar] at hx
    exact h.grows.covers (hb.terminals x hx)
  rules rule hrule := by
    rw [h.grammar] at hrule
    rcases List.mem_cons.mp hrule with rfl | hrule
    · exact ⟨h.covers, fun x hx => h.grows.covers (hrhs x hx)⟩
    · exact (hb.rules rule hrule).grow h.grows

private theorem Covered.advances (hb : b.Covered) (hresults : ∀ s ∈ results, b.table.Covers s) :
    b.Advances b results :=
  ⟨SymbolTable.GrowsTo.refl _, hb, hresults⟩

/-- A new wrapper is covered by the table that it comes with. -/
theorem advances_addWrapper (hb : b.Covered) (hs : b.table.Covers s) :
    b.Advances (b.addWrapper s).2 [(b.addWrapper s).1] := by
  have hnew := b.introduces_addWrapper s
  refine ⟨hnew.grows, ⟨hnew.coveredBy hb.grammar (by simpa using hs), ?_, ?_⟩, ?_⟩
  · intro entry hentry
    rcases List.mem_cons.mp hentry with rfl | hentry
    · exact hnew.covers
    · exact hnew.grows.covers (hb.wrappers entry hentry)
  · exact fun entry hentry => hnew.grows.covers (hb.helpers entry hentry)
  · simpa using hnew.covers

/-- A new helper is covered by the table that it comes with. -/
theorem advances_addHelper {left right : Symbol} (hb : b.Covered) (hleft : b.table.Covers left)
    (hright : b.table.Covers right) :
    b.Advances (b.addHelper left right).2 [(b.addHelper left right).1] := by
  have hnew := b.introduces_addHelper left right
  refine ⟨hnew.grows, ⟨hnew.coveredBy hb.grammar (by simp [hleft, hright]), ?_, ?_⟩, ?_⟩
  · exact fun entry hentry => hnew.grows.covers (hb.wrappers entry hentry)
  · intro entry hentry
    rcases List.mem_cons.mp hentry with rfl | hentry
    · exact hnew.covers
    · exact hnew.grows.covers (hb.helpers entry hentry)
  · simpa using hnew.covers

/-- A wrapper is covered, new or not. -/
theorem advances_wrap (hb : b.Covered) (hs : b.table.Covers s) :
    b.Advances (b.wrap s).2 [(b.wrap s).1] := by
  unfold wrap
  cases hmemo : b.memo.wrapper? s with
  | none => exact advances_addWrapper hb hs
  | some w =>
    obtain ⟨before, after, hlisted, _⟩ := List.lookup_eq_some_iff.mp hmemo
    have hcovers := hb.wrappers (s, w) (by simp [hlisted])
    exact hb.advances (by simpa using hcovers)

/-- A helper is covered, new or not. -/
theorem advances_pair {left right : Symbol} (hb : b.Covered) (hleft : b.table.Covers left)
    (hright : b.table.Covers right) : b.Advances (b.pair left right).2 [(b.pair left right).1] := by
  unfold pair
  cases hmemo : b.memo.helper? left right with
  | none => exact advances_addHelper hb hleft hright
  | some w =>
    obtain ⟨before, after, hlisted, _⟩ := List.lookup_eq_some_iff.mp hmemo
    have hcovers := hb.helpers ((left, right), w) (by simp [hlisted])
    exact hb.advances (by simpa using hcovers)

/-- What a symbol is replaced by is covered. -/
theorem advances_wrapTerminal (hb : b.Covered) (hs : b.table.Covers s) :
    b.Advances (b.wrapTerminal s).2 [(b.wrapTerminal s).1] := by
  unfold wrapTerminal
  split
  · exact advances_wrap hb hs
  · exact hb.advances (by simpa using hs)

/-- What symbols are replaced by is covered. -/
theorem advances_wrapAll (hb : b.Covered) (hsymbols : ∀ s ∈ symbols, b.table.Covers s) :
    b.Advances (b.wrapAll symbols).2 (b.wrapAll symbols).1 := by
  induction symbols generalizing b with
  | nil => exact hb.advances (by simp [wrapAll])
  | cons s rest ih =>
    have hfirst := advances_wrapTerminal hb (hsymbols s (by simp))
    have hrest := ih hfirst.covered fun x hx =>
      hfirst.grows.covers (hsymbols x (List.mem_cons_of_mem s hx))
    refine ⟨hfirst.grows.trans hrest.grows, hrest.covered, fun x hx => ?_⟩
    rcases List.mem_cons.mp hx with rfl | hx
    · exact hrest.grows.covers (hfirst.results _ (List.mem_singleton_self _))
    · exact hrest.results x hx

/-- What a right side is collapsed to is covered. -/
theorem advances_collapse {first : Symbol} (hb : b.Covered) (hfirst : b.table.Covers first)
    (hsymbols : ∀ s ∈ symbols, b.table.Covers s) :
    b.Advances (b.collapse first symbols).2 (b.collapse first symbols).1 := by
  fun_induction collapse b first symbols with
  | case1 b first => exact hb.advances (by simpa using hfirst)
  | case2 b first second => exact hb.advances (by simpa [hfirst] using hsymbols)
  | case3 b first second third rest s b₁ hpair ih =>
    have hstep := advances_pair hb hfirst (hsymbols second (by simp))
    rw [hpair] at hstep
    have hrest := ih hstep.covered (hstep.results s (by simp)) fun x hx =>
      hstep.grows.covers (hsymbols x (List.mem_cons_of_mem second hx))
    exact ⟨hstep.grows.trans hrest.grows, hrest.covered, hrest.results⟩

/-- One more covered rule leaves the grammar covered. -/
theorem coveredBy_emit (hb : b.grammar.CoveredBy b.table) (hrule : rule.CoveredBy b.table) :
    (b.emit rule).grammar.CoveredBy b.table :=
  ⟨hb.start, hb.nonterminals, hb.terminals, fun _ hmem =>
    (List.mem_cons.mp hmem).elim (fun heq => heq ▸ hrule) (hb.rules _)⟩

/-- One more covered rule leaves grammar and memo covered. -/
theorem Covered.emit (hb : b.Covered) (hrule : rule.CoveredBy b.table) : (b.emit rule).Covered :=
  ⟨coveredBy_emit hb.grammar hrule, hb.wrappers, hb.helpers⟩

/-- After a rule was split, everything is covered again. -/
theorem advances_addSplit (hb : b.Covered) (hrule : rule.CoveredBy b.table) :
    b.Advances (b.addSplit rule) [] := by
  have hshort : b.Advances (b.emit rule) [] :=
    ⟨SymbolTable.GrowsTo.refl _, hb.emit hrule, by simp⟩
  obtain ⟨lhs, rhs⟩ := rule
  match rhs with
  | [] | [_] => exact hshort
  | first :: second :: rest =>
    have hfirst := advances_wrapTerminal hb (hrule.2 first (by simp))
    have hrest := advances_wrapAll hfirst.covered fun x hx =>
      hfirst.grows.covers (hrule.2 x (List.mem_cons_of_mem first hx))
    have hpairs := advances_collapse hrest.covered
      (hrest.grows.covers (hfirst.results _ (List.mem_singleton_self _))) hrest.results
    have hgrows := hfirst.grows.trans (hrest.grows.trans hpairs.grows)
    exact ⟨hgrows, hpairs.covered.emit ⟨hgrows.covers hrule.1, hpairs.results⟩, by simp⟩

/-- Every rule that is split keeps the run covered. -/
theorem advances_addSplits {rules : List Rule} (hb : b.Covered)
    (hrules : ∀ rule ∈ rules, rule.CoveredBy b.table) : b.Advances (b.addSplits rules) [] := by
  induction rules generalizing b with
  | nil => exact hb.advances (by simp)
  | cons rule rest ih =>
    have hfirst := advances_addSplit hb (hrules rule (by simp))
    have hrest := ih hfirst.covered fun other hother =>
      (hrules other (List.mem_cons_of_mem rule hother)).grow hfirst.grows
    exact ⟨hfirst.grows.trans hrest.grows, hrest.covered, by simp⟩

end Binarization

/-- The table has handed out all symbols that the memo gives. -/
structure BinaryMemo.CoveredBy (memo : BinaryMemo) (t : SymbolTable) : Prop where
  wrappers : ∀ entry ∈ memo.wrappers, t.Covers entry.2
  helpers : ∀ entry ∈ memo.helpers, t.Covers entry.2

instance (memo : BinaryMemo) (t : SymbolTable) : Decidable (memo.CoveredBy t) :=
  decidable_of_iff ((∀ entry ∈ memo.wrappers, t.Covers entry.2) ∧
      ∀ entry ∈ memo.helpers, t.Covers entry.2)
    ⟨fun h => ⟨h.1, h.2⟩, fun h => ⟨h.wrappers, h.helpers⟩⟩

/-- A memo without definitions is covered by any table. -/
theorem BinaryMemo.coveredBy_new (naming : Naming) (t : SymbolTable) :
    BinaryMemo.CoveredBy { naming } t :=
  ⟨fun _ hentry => absurd hentry List.not_mem_nil, fun _ hentry => absurd hentry List.not_mem_nil⟩

namespace Grammar.CoveredBy

variable {g : Grammar} {t : SymbolTable} {memo : BinaryMemo}

/-- A run starts covered if the grammar and the memo are. -/
theorem covered_start (hg : g.CoveredBy t) (hmemo : memo.CoveredBy t) :
    Binarization.Covered { memo, table := t, grammar := g.withRules [] } :=
  ⟨⟨hg.start, hg.nonterminals, hg.terminals, fun _ hrule => absurd hrule List.not_mem_nil⟩,
    hmemo.wrappers, hmemo.helpers⟩

/-- Splitting with a covered memo keeps the grammar and the memo covered. -/
theorem binarize (hg : g.CoveredBy t) (hmemo : memo.CoveredBy t) :
    (g.binarize memo t).grammar.CoveredBy (g.binarize memo t).table ∧
      (g.binarize memo t).memo.CoveredBy (g.binarize memo t).table := by
  have hrun := (Binarization.advances_addSplits (hg.covered_start hmemo) hg.rules).covered
  refine ⟨{ hrun.grammar with rules := fun rule hrule => ?_ }, hrun.wrappers, hrun.helpers⟩
  exact hrun.grammar.rules rule (List.mem_reverse.mp hrule)

/-- The table that binarization returns covers the grammar that it returns. -/
theorem binarize_new (hg : g.CoveredBy t) (naming : Naming) :
    (g.binarize { naming } t).grammar.CoveredBy (g.binarize { naming } t).table :=
  (hg.binarize (BinaryMemo.coveredBy_new naming t)).1

end Grammar.CoveredBy

end Chomsky
