import Chomsky.Proofs.ComputedStages

/-!
# The canonical list of rules

Rules are ordered by their left names and then by their right names from left to
right, and names by the code points of their characters. Sorting compares names,
while repetitions are found by comparing the symbols of neighbours. The two fit
together because a table gives different names to the symbols it has handed out. So
a set of covered rules has one list in strictly ascending order, and this list is
what sorting leaves once repetitions are dropped. Normalization ends in this way.
-/

namespace Chomsky

/-! ### Names in the order of code points -/

/-- The code points of the characters of a name. -/
def codePoints (name : String) : List Nat := name.toList.map Char.toNat

/-- A map that keeps an order in both directions keeps the lexicographic order of lists. -/
theorem map_lt_map_iff {α β : Type} [LT α] [LT β] {f : α → β}
    (hlt : ∀ a b, f a < f b ↔ a < b) (hinj : Function.Injective f) {xs ys : List α} :
    xs.map f < ys.map f ↔ xs < ys := by
  induction xs generalizing ys with
  | nil => cases ys <;> simp
  | cons x xs ih =>
    cases ys with
    | nil => simp
    | cons y ys =>
      rw [List.map_cons, List.map_cons, List.cons_lt_cons_iff, List.cons_lt_cons_iff, hlt,
        hinj.eq_iff, ih]

private theorem toNat_injective : Function.Injective Char.toNat := fun _ _ => Char.toNat_inj.mp

private theorem codePoints_injective : Function.Injective codePoints := fun _ _ heq =>
  String.toList_injective (List.map_injective_iff.mpr toNat_injective heq)

/-- Names are ordered by their code points from left to right. -/
theorem codePoints_lt_iff (a b : String) : codePoints a < codePoints b ↔ a < b := by
  have hchars (c d : Char) : c.toNat < d.toNat ↔ c < d := Iff.rfl
  rw [codePoints, codePoints, map_lt_map_iff hchars toNat_injective, String.lt_iff]

/-- One rule comes strictly before another: its left name does, or the left names are equal and its
right names do in the lexicographic order. -/
def NamedRule.Precedes (r₁ r₂ : NamedRule) : Prop :=
  codePoints r₁.lhs < codePoints r₂.lhs ∨
    r₁.lhs = r₂.lhs ∧ r₁.rhs.map codePoints < r₂.rhs.map codePoints

private theorem NamedRule.precedes_iff {r₁ r₂ : NamedRule} :
    r₁.Precedes r₂ ↔ r₁.names < r₂.names := by
  rw [Precedes, codePoints_lt_iff, map_lt_map_iff codePoints_lt_iff codePoints_injective, names,
    names, List.cons_lt_cons_iff]

/-! ### Rules in strictly ascending order -/

/-- The rules are listed in strictly ascending order of their names. -/
def StrictlyByName (t : SymbolTable) (rules : List Rule) : Prop :=
  rules.Pairwise fun r₁ r₂ => (r₁.named t).Precedes (r₂.named t)

variable {t : SymbolTable} {rules : List Rule}

/-- Strictly ascending rules are not repeated. -/
theorem StrictlyByName.nodup (h : StrictlyByName t rules) : rules.Nodup := by
  refine h.imp fun {r₁ r₂} hprecedes heq => ?_
  rw [heq, NamedRule.precedes_iff] at hprecedes
  exact List.lt_irrefl _ hprecedes

/-- Covered rules with the same names are equal, so a list without repetitions is strict. -/
theorem ListedByName.strictlyByName (hlisted : ListedByName t rules)
    (hrules : ∀ rule ∈ rules, rule.CoveredBy t) : StrictlyByName t rules := by
  refine (hlisted.sorted.and hlisted.nodup).imp_of_mem fun {r₁ r₂} h₁ h₂ h => ?_
  obtain ⟨hle, hne⟩ := h
  rw [NamedRule.precedes_iff]
  by_contra hnot
  have hge : r₂.leByName t r₁ = true := Rule.leByName_iff.mpr hnot
  exact hne (Rule.leByName_antisymm (hrules r₁ h₁) (hrules r₂ h₂) hle hge)

namespace Grammar

variable {g : Grammar}

private theorem mem_rules_sort_dedup {rule : Rule} (g : Grammar) (t : SymbolTable) :
    rule ∈ (g.sort t).dedup.rules ↔ rule ∈ g.rules :=
  mem_dropRepeats.trans List.mem_mergeSort

private theorem listedByName_sort_dedup (hrules : ∀ rule ∈ g.rules, rule.CoveredBy t) :
    ListedByName t (g.sort t).dedup.rules :=
  listedByName_dropRepeats_mergeSort hrules

/-- Sorting and then dropping repetitions lists each rule of a covered grammar once, in strictly
ascending order of names. The list is determined by the set of rules. The normal form of a covered
grammar is listed in this way. -/
theorem sort_dedup_canonical (hcovered : g.CoveredBy t) :
    (∀ rule, rule ∈ (g.sort t).dedup.rules ↔ rule ∈ g.rules) ∧
    (g.sort t).dedup.rules.Nodup ∧
    StrictlyByName t (g.sort t).dedup.rules ∧
    (∀ h : Grammar, h.CoveredBy t → (∀ rule, rule ∈ h.rules ↔ rule ∈ g.rules) →
      (h.sort t).dedup.rules = (g.sort t).dedup.rules) ∧
    ∀ naming stages t', (g.normalize t naming).outcome = .ok (.cnf stages, t') →
      StrictlyByName t' stages.cnf.rules ∧ stages.cnf.rules.Nodup := by
  have hlisted := listedByName_sort_dedup hcovered.rules
  have hrules : ∀ rule ∈ (g.sort t).dedup.rules, rule.CoveredBy t := fun rule hrule =>
    hcovered.rules rule ((g.mem_rules_sort_dedup t).mp hrule)
  refine ⟨fun _ => g.mem_rules_sort_dedup t, hlisted.nodup, hlisted.strictlyByName hrules, ?_, ?_⟩
  · intro h hcovered' hsame
    have hlisted' := listedByName_sort_dedup hcovered'.rules
    refine (hlisted.eq_of_mem_iff hlisted' hrules fun rule => ?_).symm
    rw [mem_rules_sort_dedup, mem_rules_sort_dedup, hsame]
  · intro naming stages t' hresult
    have hcnf := (staged_of_normalize hcovered hresult).2.2.covered_cnf hcovered
    have hlisted := (computed_of_normalize hresult).listedByName_cnf hcnf
    have hstrict := hlisted.strictlyByName hcnf.rules
    exact ⟨hstrict, hstrict.nodup⟩

/-- Rules out of order and with repetitions, over symbols whose numbers run against their names. -/
def jumbled : Grammar where
  start := ⟨0⟩
  nonterminals := .ofList [⟨0⟩, ⟨1⟩]
  terminals := .ofList [⟨2⟩]
  rules := [⟨⟨0⟩, [⟨1⟩, ⟨1⟩]⟩, ⟨⟨1⟩, [⟨2⟩]⟩, ⟨⟨0⟩, [⟨1⟩]⟩, ⟨⟨1⟩, [⟨2⟩]⟩, ⟨⟨0⟩, []⟩,
    ⟨⟨0⟩, [⟨1⟩, ⟨1⟩]⟩]

/-- The names of its symbols. -/
def jumbledTable : SymbolTable := (SymbolTable.empty.internAll ["T", "S", "a"]).2

/-- Rules out of order and with repetitions come out in order, each once. -/
theorem sort_dedup_jumbled :
    (jumbled.sort jumbledTable).dedup.rules =
        [⟨⟨1⟩, [⟨2⟩]⟩, ⟨⟨0⟩, []⟩, ⟨⟨0⟩, [⟨1⟩]⟩, ⟨⟨0⟩, [⟨1⟩, ⟨1⟩]⟩] ∧
      StrictlyByName jumbledTable (jumbled.sort jumbledTable).dedup.rules ∧
      ∃ stages t', (jumbled.normalize jumbledTable {}).outcome = .ok (.cnf stages, t') ∧
        StrictlyByName t' stages.cnf.rules := by
  have hcovered : jumbled.CoveredBy jumbledTable := by decide +kernel
  obtain ⟨-, -, hstrict, -, hnormal⟩ := sort_dedup_canonical hcovered
  obtain ⟨stages, t', hresult, -⟩ := normalize_of_size (n := 4) hcovered (by decide +kernel)
    (by decide +kernel) {} (by decide +kernel)
  have hlisted : ListedByName jumbledTable
      [⟨⟨1⟩, [⟨2⟩]⟩, ⟨⟨0⟩, []⟩, ⟨⟨0⟩, [⟨1⟩]⟩, ⟨⟨0⟩, [⟨1⟩, ⟨1⟩]⟩] :=
    ⟨by decide +kernel, by decide⟩
  have hmem (rule : Rule) :
      rule ∈ (jumbled.sort jumbledTable).dedup.rules ↔ rule ∈ jumbled.rules :=
    mem_rules_sort_dedup _ _
  have hrules := (listedByName_sort_dedup hcovered.rules).eq_of_mem_iff hlisted
    (fun rule hrule => hcovered.rules rule ((hmem rule).mp hrule))
    fun rule => (hmem rule).trans (by simp only [jumbled, List.mem_cons]; tauto)
  exact ⟨hrules, hstrict, stages, t', hresult, (hnormal {} stages t' hresult).1⟩

end Grammar

end Chomsky
