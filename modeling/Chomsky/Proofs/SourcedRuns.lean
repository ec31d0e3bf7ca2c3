import Chomsky.Proofs.Ranges
import Chomsky.Proofs.RoundTrip
import Chomsky.Proofs.WorkspaceSteps

/-!
# Runs over covered grammars

A workspace is sourced when each of its grammars is covered by its table. A command
is admitted when the symbols that it gives by number have been handed out by the
table it works on. A sourced workspace stays so under admitted commands, and no
command fails for a symbol out of range. The same holds of whole runs, whatever the
order of the commands and however many grammars share a table.
-/

namespace Chomsky

variable {g : Grammar} {t u : SymbolTable}

/-! ### References -/

/-- A name can always be interned. A number must be one that the table has handed out. -/
def SymbolRef.CoveredBy (t : SymbolTable) : SymbolRef → Prop
  | name _ => True
  | number s => t.Covers s

instance (t : SymbolTable) : DecidablePred (SymbolRef.CoveredBy t)
  | .name _ => inferInstanceAs (Decidable True)
  | .number s => inferInstanceAs (Decidable (t.Covers s))

/-- All references of the alternatives are covered. -/
structure RuleRef.CoveredBy (t : SymbolTable) (ref : RuleRef) : Prop where
  lhs : ref.lhs.CoveredBy t
  rhs : ∀ refs ∈ ref.alternatives, ∀ symbol ∈ refs, symbol.CoveredBy t

instance (t : SymbolTable) (ref : RuleRef) : Decidable (ref.CoveredBy t) :=
  decidable_of_iff
    (ref.lhs.CoveredBy t ∧ ∀ refs ∈ ref.alternatives, ∀ symbol ∈ refs, symbol.CoveredBy t)
    ⟨fun h => ⟨h.1, h.2⟩, fun h => ⟨h.lhs, h.rhs⟩⟩

namespace SymbolRef

/-- What is resolved is covered by any later table that covers the reference. -/
theorem covers_resolve {ref : SymbolRef} (hgrows : (ref.resolve t).2.GrowsTo u)
    (href : ref.CoveredBy u) : u.Covers (ref.resolve t).1 := by
  cases ref with
  | name text => exact hgrows.covers (t.covers_intern text)
  | number s => exact href

private theorem covers_resolveAll {refs : List SymbolRef} (hgrows : (resolveAll t refs).2.GrowsTo u)
    (hrefs : ∀ ref ∈ refs, ref.CoveredBy u) : ∀ s ∈ (resolveAll t refs).1, u.Covers s := by
  induction refs generalizing t with
  | nil => exact fun s hs => absurd hs List.not_mem_nil
  | cons ref rest ih =>
    intro s hs
    rcases List.mem_cons.mp hs with rfl | hs
    · exact covers_resolve ((growsTo_resolveAll rest _).trans hgrows) (hrefs ref List.mem_cons_self)
    · exact ih hgrows (fun other hother => hrefs other (List.mem_cons_of_mem ref hother)) s hs

private theorem covers_resolveLists {lists : List (List SymbolRef)}
    (hgrows : (resolveLists t lists).2.GrowsTo u)
    (hlists : ∀ refs ∈ lists, ∀ ref ∈ refs, ref.CoveredBy u) :
    ∀ ss ∈ (resolveLists t lists).1, ∀ s ∈ ss, u.Covers s := by
  induction lists generalizing t with
  | nil => exact fun ss hss => absurd hss List.not_mem_nil
  | cons refs rest ih =>
    intro ss hss
    rcases List.mem_cons.mp hss with rfl | hss
    · exact covers_resolveAll ((growsTo_resolveLists rest _).trans hgrows)
        (hlists refs List.mem_cons_self)
    · exact ih hgrows (fun other hother => hlists other (List.mem_cons_of_mem refs hother)) ss hss

end SymbolRef

namespace RuleRef

private theorem coveredBy_resolve {ref : RuleRef} (hgrows : (ref.resolve t).2.GrowsTo u)
    (href : ref.CoveredBy u) : ∀ rule ∈ (ref.resolve t).1, rule.CoveredBy u := by
  intro rule hrule
  obtain ⟨rhs, hrhs, rfl⟩ := List.mem_map.mp hrule
  refine ⟨SymbolRef.covers_resolve ?_ href.lhs, ?_⟩
  · exact (SymbolRef.growsTo_resolveLists ref.alternatives _).trans hgrows
  · exact SymbolRef.covers_resolveLists hgrows href.rhs rhs hrhs

private theorem coveredBy_resolveAll {refs : List RuleRef}
    (hgrows : (resolveAll t refs).2.GrowsTo u)
    (hrefs : ∀ ref ∈ refs, ref.CoveredBy u) :
    ∀ rule ∈ (resolveAll t refs).1, rule.CoveredBy u := by
  induction refs generalizing t with
  | nil => exact fun rule hrule => absurd hrule List.not_mem_nil
  | cons ref rest ih =>
    intro rule hrule
    rcases List.mem_append.mp hrule with hrule | hrule
    · exact coveredBy_resolve ((growsTo_resolveAll rest _).trans hgrows)
        (hrefs ref List.mem_cons_self) rule hrule
    · exact ih hgrows (fun other hother => hrefs other (List.mem_cons_of_mem ref hother)) rule hrule

end RuleRef

/-! ### Edits -/

private theorem SymbolTable.covers_internAll (t : SymbolTable) (names : List String) :
    ∀ s ∈ (t.internAll names).1, (t.internAll names).2.Covers s := by
  induction names generalizing t with
  | nil => exact fun s hs => absurd hs List.not_mem_nil
  | cons name rest ih =>
    intro s hs
    rcases List.mem_cons.mp hs with rfl | hs
    · exact ((t.intern name).2.growsTo_internAll rest).covers (t.covers_intern name)
    · exact ih _ s hs

/-- A grammar without declarations and rules is covered if its start symbol is. -/
theorem Grammar.coveredBy_of_start {s : Symbol} (hs : t.Covers s) :
    Grammar.CoveredBy { start := s } t :=
  ⟨hs, fun _ hx => absurd hx Bool.false_ne_true, fun _ hx => absurd hx Bool.false_ne_true,
    fun _ hrule => absurd hrule List.not_mem_nil⟩

namespace Grammar.CoveredBy

/-- Other covered rules leave a grammar covered. -/
theorem withRules (hg : g.CoveredBy t) {rules : List Rule}
    (hrules : ∀ rule ∈ rules, rule.CoveredBy t) : (g.withRules rules).CoveredBy t :=
  ⟨hg.start, hg.nonterminals, hg.terminals, hrules⟩

/-- One more covered terminal leaves a grammar covered. -/
theorem addTerminal (hg : g.CoveredBy t) {s : Symbol} (hs : t.Covers s) :
    (g.addTerminal s).CoveredBy t := by
  refine ⟨hg.start, hg.nonterminals, fun x hx => ?_, hg.rules⟩
  have hx : x = s ∨ x ∈ g.terminals := by
    simpa [Grammar.addTerminal, SymbolSet.mem_iff] using hx
  rcases hx with rfl | hx
  · exact hs
  · exact hg.terminals x hx

/-- One more covered nonterminal leaves a grammar covered. -/
theorem addNonterminal (hg : g.CoveredBy t) {s : Symbol} (hs : t.Covers s) :
    (g.addNonterminal s).CoveredBy t := by
  refine ⟨hg.start, fun x hx => ?_, hg.terminals, hg.rules⟩
  have hx : x = s ∨ x ∈ g.nonterminals := by
    simpa [Grammar.addNonterminal, SymbolSet.mem_iff] using hx
  rcases hx with rfl | hx
  · exact hs
  · exact hg.nonterminals x hx

/-- Another covered start symbol leaves a grammar covered. -/
theorem setStart (hg : g.CoveredBy t) {s : Symbol} (hs : t.Covers s) : (g.setStart s).CoveredBy t :=
  { hg.addNonterminal hs with start := hs }

private theorem foldl_add {add : Grammar → Symbol → Grammar}
    (hadd : ∀ g s, g.CoveredBy t → t.Covers s → (add g s).CoveredBy t) (hg : g.CoveredBy t)
    {symbols : List Symbol} (hsymbols : ∀ s ∈ symbols, t.Covers s) :
    (symbols.foldl add g).CoveredBy t := by
  induction symbols generalizing g with
  | nil => exact hg
  | cons s rest ih =>
    exact ih (hadd g s hg (hsymbols s List.mem_cons_self)) fun x hx =>
      hsymbols x (List.mem_cons_of_mem s hx)

end Grammar.CoveredBy

/-- The numbers that an edit gives are covered when its names have been interned. -/
def Edit.AdmittedBy (t : SymbolTable) : Edit → Prop
  | addRules refs => ∀ ref ∈ refs, ref.CoveredBy (RuleRef.resolveAll t refs).2
  | setStart ref => ref.CoveredBy (ref.resolve t).2
  | declareTerminals _ | declareNonterminals _ | intern _ | fresh _ _ | sort | dedup => True

instance (t : SymbolTable) : DecidablePred (Edit.AdmittedBy t)
  | .addRules refs =>
    inferInstanceAs (Decidable (∀ ref ∈ refs, ref.CoveredBy (RuleRef.resolveAll t refs).2))
  | .setStart ref => inferInstanceAs (Decidable (ref.CoveredBy (ref.resolve t).2))
  | .declareTerminals _ | .declareNonterminals _ | .intern _ | .fresh _ _ | .sort | .dedup =>
    .isTrue trivial

/-- An admitted edit keeps a grammar covered by its table. -/
theorem Edit.coveredBy_apply {e : Edit} (hg : g.CoveredBy t) (hadmitted : e.AdmittedBy t) :
    (e.apply g t).grammar.CoveredBy (e.apply g t).table := by
  have hgrown := hg.grow (e.growsTo_apply g t)
  cases e with
  | declareTerminals names =>
    exact hgrown.foldl_add (fun _ _ hg hs => hg.addTerminal hs) (t.covers_internAll names)
  | declareNonterminals names =>
    exact hgrown.foldl_add (fun _ _ hg hs => hg.addNonterminal hs) (t.covers_internAll names)
  | intern name => exact hgrown
  | fresh name suffix => exact hgrown
  | addRules refs =>
    refine hgrown.withRules fun rule hrule => ?_
    rcases List.mem_append.mp hrule with hrule | hrule
    · exact hgrown.rules rule hrule
    · exact RuleRef.coveredBy_resolveAll (SymbolTable.GrowsTo.refl _) hadmitted rule hrule
  | sort => exact hg.withRules fun rule hrule => hg.rules rule (List.mem_mergeSort.mp hrule)
  | dedup => exact hg.withRules fun rule hrule => hg.rules rule (mem_dropRepeats.mp hrule)
  | setStart ref =>
    exact hgrown.setStart (SymbolRef.covers_resolve (SymbolTable.GrowsTo.refl _) hadmitted)

/-! ### Transformations and queries -/

/-- The numbers and the memo that a transformation uses are covered. -/
def Transform.AdmittedBy (memos : List BinaryMemo) (t : SymbolTable) : Transform → Prop
  | withRules refs => ∀ ref ∈ refs, ref.CoveredBy (RuleRef.resolveAll t refs).2
  | binarizeWith index => ∀ memo ∈ memos[index]?, memo.CoveredBy t
  | copy | sortByNumber | removeUnproductive | removeUnreachable | removeUseless
  | eliminateEpsilon _ | eliminateUnits | binarize _ => True

instance (memos : List BinaryMemo) (t : SymbolTable) : DecidablePred (Transform.AdmittedBy memos t)
  | .withRules refs =>
    inferInstanceAs (Decidable (∀ ref ∈ refs, ref.CoveredBy (RuleRef.resolveAll t refs).2))
  | .binarizeWith index => inferInstanceAs (Decidable (∀ memo ∈ memos[index]?, memo.CoveredBy t))
  | .copy | .sortByNumber | .removeUnproductive | .removeUnreachable | .removeUseless
  | .eliminateEpsilon _ | .eliminateUnits | .binarize _ => .isTrue trivial

/-- A transformation of a covered grammar fails only for want of a memo. If it is admitted, its
result is covered. -/
theorem Transform.apply_of_covered (hg : g.CoveredBy t) (tr : Transform) (memos : List BinaryMemo) :
    (∃ result, (tr.apply memos g t).outcome = .ok result ∧
        (tr.AdmittedBy memos t → result.grammar.CoveredBy result.table)) ∨
      ∃ index, (tr.apply memos g t).outcome = .error (.noMemo index) := by
  cases tr with
  | copy => exact Or.inl ⟨_, rfl, fun _ => hg⟩
  | withRules refs =>
    refine Or.inl ⟨_, rfl, fun hadmitted => ?_⟩
    refine (hg.grow (RuleRef.growsTo_resolveAll refs t)).withRules ?_
    exact RuleRef.coveredBy_resolveAll (SymbolTable.GrowsTo.refl _) hadmitted
  | sortByNumber =>
    exact Or.inl ⟨_, rfl, fun _ =>
      hg.withRules fun rule hrule => hg.rules rule (List.mem_mergeSort.mp hrule)⟩
  | removeUnproductive => exact Or.inl ⟨_, rfl, fun _ => hg.removeUnproductive⟩
  | removeUnreachable =>
    obtain ⟨h, hok, hcovered⟩ := hg.removeUnreachable_eq_ok
    refine Or.inl ⟨⟨h, t, memos⟩, ?_, fun _ => hcovered⟩
    simp only [Transform.apply, Journaled.outcome_bind, Journaled.outcome_mapError,
      Grammar.outcome_journalUnreachable, hok]
    rfl
  | removeUseless =>
    obtain ⟨h, hok, hcovered⟩ := hg.removeUseless_eq_ok
    refine Or.inl ⟨⟨h, t, memos⟩, ?_, fun _ => hcovered⟩
    simp only [Transform.apply, Journaled.outcome_bind, Journaled.outcome_mapError,
      Grammar.outcome_journalUseless, hok]
    rfl
  | eliminateEpsilon naming =>
    refine Or.inl ⟨⟨_, _, memos⟩, ?_, fun _ => hg.eliminateEpsilon naming⟩
    simp only [Transform.apply, Journaled.outcome_bind, Grammar.outcome_journalEpsilon]
    rfl
  | eliminateUnits =>
    obtain ⟨h, hok, hcovered⟩ := hg.eliminateUnits_eq_ok
    refine Or.inl ⟨⟨h, t, memos⟩, ?_, fun _ => hcovered⟩
    simp only [Transform.apply, Journaled.outcome_bind, Journaled.outcome_mapError,
      Grammar.outcome_journalUnits, hok]
    rfl
  | binarize naming =>
    exact Or.inl ⟨_, rfl, fun _ => (hg.binarize (BinaryMemo.coveredBy_new naming t)).1⟩
  | binarizeWith index =>
    cases hmemo : memos[index]? with
    | none => exact Or.inr ⟨index, by simp only [Transform.apply, hmemo]; rfl⟩
    | some memo =>
      refine Or.inl ⟨⟨_, _, memos.set index (g.binarize memo t).memo⟩, ?_, fun hadmitted =>
        (hg.binarize (hadmitted memo hmemo)).1⟩
      simp only [Transform.apply, hmemo]
      rfl

private theorem Transform.coveredBy_apply {tr : Transform} {memos : List BinaryMemo}
    {result : Transformed}
    (hg : g.CoveredBy t) (hadmitted : tr.AdmittedBy memos t)
    (hresult : (tr.apply memos g t).outcome = .ok result) :
    result.grammar.CoveredBy result.table := by
  rcases Transform.apply_of_covered hg tr memos with ⟨_, hok, hcovered⟩ | ⟨_, hfailed⟩
  · rw [hok] at hresult
    exact Except.ok.inj hresult ▸ hcovered hadmitted
  · rw [hfailed] at hresult
    cases hresult

private theorem Transform.apply_ne_range {tr : Transform} {memos : List BinaryMemo}
    (hg : g.CoveredBy t)
    (e : RangeError) : (tr.apply memos g t).outcome ≠ .error (.range e) := by
  rcases Transform.apply_of_covered hg tr memos with ⟨_, hok, _⟩ | ⟨_, hfailed⟩
  · rw [hok]
    exact nofun
  · rw [hfailed]
    exact nofun

private theorem Query.answer_ne_range {q : Query} {memos : List BinaryMemo} (hg : g.CoveredBy t)
    (e : RangeError) : (q.answer memos g t).outcome ≠ .error (.range e) := by
  intro hfailed
  cases q with
  | lookup | symbolInfo | overview | occurrences | closure => cases hfailed
  | validate =>
    simp only [Query.answer, Journaled.outcome_bind, Journaled.outcome_mapError,
      Journaled.outcome_ofExcept, bind_eq_error_iff, mapError_eq_error_iff] at hfailed
    obtain ⟨_, _, ⟨⟩⟩ | ⟨_, _, ⟨⟩⟩ := hfailed
  | analyze =>
    obtain ⟨report, hok, _⟩ := hg.analyze_eq_ok
    simp only [Query.answer, Journaled.outcome_bind, Journaled.outcome_mapError,
      Journaled.outcome_ofExcept, hok] at hfailed
    cases hfailed
  | usefulness =>
    obtain ⟨report, hok⟩ := hg.usefulnessReport_eq_ok
    simp only [Query.answer, Journaled.outcome_bind, Journaled.outcome_mapError,
      Journaled.outcome_ofExcept, hok] at hfailed
    cases hfailed
  | normalize naming =>
    simp only [Query.answer, Journaled.outcome_bind, Journaled.outcome_mapError] at hfailed
    rcases hg.normalize_in_range naming with ⟨_, _, hok⟩ | hok | ⟨_, _, hok, _⟩
    · rw [hok] at hfailed
      cases hfailed
    · rw [hok] at hfailed
      cases hfailed
    · rw [hok] at hfailed
      cases hfailed
  | introduced memo wrappers helpers =>
    simp only [Query.answer] at hfailed
    split at hfailed
    · cases hfailed
    · cases hfailed

/-! ### New grammars -/

private theorem GrammarSource.toGrammar_of_build {source : GrammarSource}
    (hbuild : source.build.outcome = .ok (g, t)) : ∃ d : Description, d.toGrammar = .ok (g, t) := by
  cases source with
  | text bnf =>
    simp only [GrammarSource.build, Journaled.outcome_mapError, mapError_eq_ok_iff] at hbuild
    obtain ⟨d, _, hgrammar⟩ := Bnf.load_eq_ok_iff.mp hbuild
    exact ⟨d, hgrammar⟩
  | description d =>
    simp only [GrammarSource.build, Journaled.outcome_mapError, mapError_eq_ok_iff,
      Bnf.outcome_journalGrammar] at hbuild
    exact ⟨d, hbuild⟩

private theorem GrammarSource.build_ne_range (source : GrammarSource) (e : RangeError) :
    source.build.outcome ≠ .error (.range e) := by
  intro hfailed
  cases source with
  | text bnf =>
    simp only [GrammarSource.build, Journaled.outcome_mapError, mapError_eq_error_iff] at hfailed
    obtain ⟨_, _, ⟨⟩⟩ := hfailed
  | description d =>
    simp only [GrammarSource.build, Journaled.outcome_mapError, mapError_eq_error_iff] at hfailed
    obtain ⟨_, _, ⟨⟩⟩ := hfailed

namespace Workspace

variable {w w' : Workspace} {command : Command} {commands : List Command}

/-- Symbols that a command gives by number have been handed out by the table that it works on. -/
def Admits (w : Workspace) : Command → Prop
  | .ofNames names start => (SymbolTable.empty.internAll names).2.Covers start
  | .edit i e => ∀ found ∈ w.find? i, e.AdmittedBy found.2
  | .transform i tr => ∀ found ∈ w.find? i, tr.AdmittedBy w.memos found.2
  | .new _ | .load _ | .addMemo _ | .query _ _ => True

/-- Each command is admitted when its turn comes. -/
def AdmitsAll (w : Workspace) : List Command → Prop
  | [] => True
  | command :: rest => w.Admits command ∧ (w.advance command).workspace.AdmitsAll rest

instance (w : Workspace) : DecidablePred w.Admits
  | .ofNames names start =>
    inferInstanceAs (Decidable ((SymbolTable.empty.internAll names).2.Covers start))
  | .edit i e => inferInstanceAs (Decidable (∀ found ∈ w.find? i, e.AdmittedBy found.2))
  | .transform i tr =>
    inferInstanceAs (Decidable (∀ found ∈ w.find? i, tr.AdmittedBy w.memos found.2))
  | .new _ | .load _ | .addMemo _ | .query _ _ => .isTrue trivial

instance decidableAdmitsAll (w : Workspace) : DecidablePred w.AdmitsAll
  | [] => .isTrue trivial
  | command :: rest =>
    have := decidableAdmitsAll (w.advance command).workspace rest
    inferInstanceAs (Decidable (w.Admits command ∧ _))

/-- Every grammar is covered by its table. -/
def Sourced (w : Workspace) : Prop :=
  ∀ snapshot ∈ w.snapshots, ∃ t, w.tables[snapshot.table]? = some t ∧ snapshot.grammar.CoveredBy t

/-- The grammar of a snapshot is covered by the table that belongs to it. -/
theorem Sourced.coveredBy (hw : w.Sourced) {i : Nat} {snapshot : Snapshot}
    (hfind : w.find? i = some (snapshot, t)) : snapshot.grammar.CoveredBy t := by
  obtain ⟨hsnapshot, htable⟩ := find?_eq_some_iff.mp hfind
  obtain ⟨t', htable', hcovered⟩ := hw snapshot (List.mem_of_getElem? hsnapshot)
  rw [htable] at htable'
  exact Option.some.inj htable' ▸ hcovered

/-- The table of a new grammar covers it. -/
theorem coveredBy_of_creates (hadmitted : w.Admits command) (hcreates : command.Creates g t) :
    g.CoveredBy t := by
  cases hcreates with
  | new start =>
    have hcovers := SymbolTable.empty.covers_intern start
    exact (Grammar.coveredBy_of_start hcovers).addNonterminal hcovers
  | ofNames names start => exact Grammar.coveredBy_of_start hadmitted
  | load hbuild =>
    obtain ⟨d, hgrammar⟩ := GrammarSource.toGrammar_of_build hbuild
    exact Description.coveredBy_of_toGrammar hgrammar

/-- Grammars that stay where they are stay covered while tables grow. -/
theorem Sourced.grow (hw : w.Sourced) {tables : List SymbolTable}
    (hgrows : TablesGrow w.tables tables) {snapshot : Snapshot}
    (hsnapshot : snapshot ∈ w.snapshots) :
    ∃ t, tables[snapshot.table]? = some t ∧ snapshot.grammar.CoveredBy t := by
  obtain ⟨t, htable, hcovered⟩ := hw snapshot hsnapshot
  obtain ⟨t', htable', hgrown⟩ := hgrows _ _ htable
  exact ⟨t', htable', hcovered.grow hgrown⟩

/-- An admitted command keeps a workspace sourced. -/
theorem Sourced.change (hw : w.Sourced) (hadmitted : w.Admits command)
    (hchange : w.Change command w') : w'.Sourced := by
  have hgrows := hchange.tablesGrow
  intro changed hchanged
  cases hchange with
  | failed => exact hw changed hchanged
  | created hcreates =>
    rcases List.mem_append.mp hchanged with hold | hnew
    · exact hw.grow hgrows hold
    · obtain rfl := List.mem_singleton.mp hnew
      exact ⟨_, List.getElem?_concat_length, coveredBy_of_creates hadmitted hcreates⟩
  | memo naming => exact hw changed hchanged
  | @edited i e snapshot t hfind =>
    rcases List.mem_or_eq_of_mem_set hchanged with hold | rfl
    · exact hw.grow hgrows hold
    · have hlt := (List.getElem?_eq_some_iff.mp (find?_eq_some_iff.mp hfind).2).1
      exact ⟨_, List.getElem?_set_self hlt,
        Edit.coveredBy_apply (hw.coveredBy hfind) (hadmitted _ hfind)⟩
  | asked hfind hanswer => exact hw.grow hgrows hchanged
  | @derived i tr snapshot t result hfind hresult =>
    rcases List.mem_append.mp hchanged with hold | hnew
    · exact hw.grow hgrows hold
    · obtain rfl := List.mem_singleton.mp hnew
      have hlt := (List.getElem?_eq_some_iff.mp (find?_eq_some_iff.mp hfind).2).1
      exact ⟨_, List.getElem?_set_self hlt,
        Transform.coveredBy_apply (hw.coveredBy hfind) (hadmitted _ hfind) hresult⟩

/-- No command of a sourced workspace fails for a symbol out of range. -/
theorem Sourced.step_ne_range (hw : w.Sourced) (command : Command) (e : RangeError) :
    (w.step command).outcome ≠ .error (.range e) := by
  intro hfailed
  cases command with
  | new | ofNames | addMemo => cases hfailed
  | load source =>
    simp only [step, Journaled.outcome_bind, bind_eq_error_iff] at hfailed
    rcases hfailed with hfailed | ⟨_, _, ⟨⟩⟩
    exact source.build_ne_range e hfailed
  | edit i e =>
    simp only [step] at hfailed
    split at hfailed
    · cases hfailed
    · cases hfailed
  | query i q =>
    simp only [step] at hfailed
    split at hfailed
    · cases hfailed
    · rename_i hfind
      simp only [Journaled.outcome_bind, bind_eq_error_iff] at hfailed
      rcases hfailed with hfailed | ⟨_, _, ⟨⟩⟩
      exact Query.answer_ne_range (hw.coveredBy hfind) e hfailed
  | transform i tr =>
    simp only [step] at hfailed
    split at hfailed
    · cases hfailed
    · rename_i hfind
      simp only [Journaled.outcome_bind, bind_eq_error_iff] at hfailed
      rcases hfailed with hfailed | ⟨_, _, ⟨⟩⟩
      exact Transform.apply_ne_range (hw.coveredBy hfind) e hfailed

private theorem Sourced.advance_ne_range (hw : w.Sourced) (command : Command) (e : RangeError) :
    (w.advance command).answer ≠ .error (.range e) := by
  cases hstep : (w.step command).outcome with
  | ok result =>
    rw [advance_of_ok hstep]
    exact fun hfailed => by cases hfailed
  | error failure =>
    rw [advance_of_error hstep]
    intro hfailed
    cases hfailed
    exact hw.step_ne_range command e hstep

/-! ### Runs -/

/-- A run leaves the workspace sourced. -/
theorem Sourced.run (hw : w.Sourced) (hcommands : w.AdmitsAll commands) :
    (w.run commands).Sourced := by
  induction commands generalizing w with
  | nil => exact hw
  | cons command rest ih =>
    exact ih (hw.change hcommands.1 (w.change_advance command)) hcommands.2

private theorem Sourced.transcript_ne_range (hw : w.Sourced) (hcommands : w.AdmitsAll commands) :
    ∀ progress ∈ w.transcript commands, ∀ e, progress.answer ≠ .error (.range e) := by
  induction commands generalizing w with
  | nil => exact fun progress hprogress => absurd hprogress List.not_mem_nil
  | cons command rest ih =>
    intro progress hprogress
    rcases List.mem_cons.mp hprogress with rfl | hprogress
    · exact hw.advance_ne_range command
    · exact ih (hw.change hcommands.1 (w.change_advance command)) hcommands.2 progress hprogress

/-- Admitted commands keep a workspace sourced, and none of them fails for a symbol out of range.
Whatever is then done with any of the grammars stays within the range of its table. -/
theorem run_stays_in_range (hw : w.Sourced) (hcommands : w.AdmitsAll commands) :
    (w.run commands).Sourced ∧
      (∀ progress ∈ w.transcript commands, ∀ e, progress.answer ≠ .error (.range e)) ∧
      ∀ i snapshot t, (w.run commands).find? i = some (snapshot, t) →
        snapshot.grammar.StaysInRange t :=
  ⟨hw.run hcommands, hw.transcript_ne_range hcommands, fun _ _ _ hfind =>
    ((hw.run hcommands).coveredBy hfind).staysInRange⟩

/-- Two grammars are split with one memo over one table, which normalization lets grow in
between. -/
def splitTwice : List Command :=
  [.new "S", .edit 0 (.declareTerminals ["a"]),
    .edit 0 (.addRules [⟨.number ⟨0⟩, [[.number ⟨1⟩, .number ⟨0⟩, .name "a"], []]⟩]),
    .addMemo {}, .transform 0 (.binarizeWith 0), .query 0 (.normalize {}),
    .edit 0 (.setStart (.number ⟨0⟩)), .transform 0 (.binarizeWith 0), .query 2 .analyze]

/-- Two binarizations with one memo stay in range. -/
theorem run_splitTwice_stays_in_range :
    ((Workspace.run {} splitTwice).find? 2).isSome = true ∧
      (∀ progress ∈ Workspace.transcript {} splitTwice, ∀ e,
        progress.answer ≠ .error (.range e)) ∧
      ∀ i snapshot t, (Workspace.run {} splitTwice).find? i = some (snapshot, t) →
        snapshot.grammar.StaysInRange t := by
  have hempty : Workspace.Sourced {} := fun _ hsnapshot => absurd hsnapshot List.not_mem_nil
  exact ⟨by decide +kernel, (run_stays_in_range hempty (by decide +kernel)).2⟩

end Workspace

end Chomsky
