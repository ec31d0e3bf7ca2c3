import Chomsky.Proofs.BinarySteps
import Chomsky.Proofs.ComputedStages
import Chomsky.Workspace

/-!
# Steps of a workspace

A command does one of six things to a workspace: it fails, adds a grammar with a
table of its own, adds a memo, edits a grammar in its place, asks about one, or
derives a new grammar from one. Whatever it does, each table stays at its place and
only grows, and a grammar that is not edited stays as it is. The same holds of any
sequence of commands.
-/

namespace Chomsky

/-! ### Growth of a single table -/

namespace SymbolRef

private theorem growsTo_resolve (ref : SymbolRef) (t : SymbolTable) :
    t.GrowsTo (ref.resolve t).2 := by
  cases ref with
  | name text => exact t.growsTo_intern text
  | number s => exact SymbolTable.GrowsTo.refl t

/-- Looking up references only adds names. -/
theorem growsTo_resolveAll (refs : List SymbolRef) (t : SymbolTable) :
    t.GrowsTo (resolveAll t refs).2 := by
  induction refs generalizing t with
  | nil => exact SymbolTable.GrowsTo.refl t
  | cons ref rest ih => exact (ref.growsTo_resolve t).trans (ih _)

/-- Looking up lists of references only adds names. -/
theorem growsTo_resolveLists (lists : List (List SymbolRef)) (t : SymbolTable) :
    t.GrowsTo (resolveLists t lists).2 := by
  induction lists generalizing t with
  | nil => exact SymbolTable.GrowsTo.refl t
  | cons refs rest ih => exact (growsTo_resolveAll refs t).trans (ih _)

end SymbolRef

namespace RuleRef

private theorem growsTo_resolve (ref : RuleRef) (t : SymbolTable) : t.GrowsTo (ref.resolve t).2 :=
  (ref.lhs.growsTo_resolve t).trans (SymbolRef.growsTo_resolveLists ref.alternatives _)

/-- Looking up the references of rules only adds names. -/
theorem growsTo_resolveAll (refs : List RuleRef) (t : SymbolTable) :
    t.GrowsTo (resolveAll t refs).2 := by
  induction refs generalizing t with
  | nil => exact SymbolTable.GrowsTo.refl t
  | cons ref rest ih => exact (ref.growsTo_resolve t).trans (ih _)

end RuleRef

/-- Nothing is named when the language is found empty. -/
theorem Grammar.table_of_normalize_empty {g : Grammar} {t t' : SymbolTable} {naming : Naming}
    (hresult : (g.normalize t naming).outcome = .ok (.emptyLanguage, t')) : t' = t := by
  have hvalid := validate_of_normalize hresult
  by_cases hempty : g.language = ∅
  · rw [normalize_of_language_empty hvalid hempty] at hresult
    cases hresult
    rfl
  · rw [← isLanguageEmpty_iff] at hempty
    rw [normalize, if_neg hempty] at hresult
    simp only [Journaled.outcome_bind, bind_eq_ok_iff] at hresult
    obtain ⟨_, _, _, _, ⟨⟩⟩ := hresult

/-- Normalization only adds names, whether or not the grammar is covered. -/
theorem Grammar.growsTo_normalize {g : Grammar} {t t' : SymbolTable} {naming : Naming}
    {normalized : Normalized}
    (hresult : (g.normalize t naming).outcome = .ok (normalized, t')) : t.GrowsTo t' := by
  cases normalized with
  | emptyLanguage =>
    rw [table_of_normalize_empty hresult]
    exact SymbolTable.GrowsTo.refl t
  | cnf stages =>
    rw [(computed_of_normalize hresult).table]
    exact (stages.reachable.growsTo_eliminateEpsilon t naming).trans
      (stages.unitFree.growsTo_binarize { naming } _)

/-- An edit only adds names to the table. -/
theorem Edit.growsTo_apply (e : Edit) (g : Grammar) (t : SymbolTable) :
    t.GrowsTo (e.apply g t).table := by
  cases e with
  | declareTerminals names => exact t.growsTo_internAll names
  | declareNonterminals names => exact t.growsTo_internAll names
  | intern name => exact t.growsTo_intern name
  | fresh name suffix => exact t.growsTo_intern _
  | addRules refs => exact RuleRef.growsTo_resolveAll refs t
  | sort => exact SymbolTable.GrowsTo.refl t
  | dedup => exact SymbolTable.GrowsTo.refl t
  | setStart ref => exact ref.growsTo_resolve t

private theorem Query.growsTo_helperNames (memo : BinaryMemo) (pairs : List (SymbolRef × SymbolRef))
    (t : SymbolTable) : t.GrowsTo (helperNames memo t pairs).2 := by
  induction pairs generalizing t with
  | nil => exact SymbolTable.GrowsTo.refl t
  | cons pair rest ih =>
    exact ((pair.1.growsTo_resolve t).trans (pair.2.growsTo_resolve _)).trans (ih _)

/-- A query only adds names to the table. -/
theorem Query.growsTo_answer {q : Query} {memos : List BinaryMemo} {g : Grammar}
    {t t' : SymbolTable} {answer : Answer}
    (hanswer : (q.answer memos g t).outcome = .ok (answer, t')) : t.GrowsTo t' := by
  cases q with
  | lookup name =>
    cases hanswer
    exact SymbolTable.GrowsTo.refl t
  | symbolInfo ref =>
    cases hanswer
    exact ref.growsTo_resolve t
  | validate =>
    simp only [Query.answer, Journaled.outcome_bind, bind_eq_ok_iff] at hanswer
    obtain ⟨_, _, ⟨⟩⟩ := hanswer
    exact SymbolTable.GrowsTo.refl t
  | overview =>
    cases hanswer
    exact SymbolTable.GrowsTo.refl t
  | analyze =>
    simp only [Query.answer, Journaled.outcome_bind, bind_eq_ok_iff] at hanswer
    obtain ⟨_, _, ⟨⟩⟩ := hanswer
    exact SymbolTable.GrowsTo.refl t
  | usefulness =>
    simp only [Query.answer, Journaled.outcome_bind, bind_eq_ok_iff] at hanswer
    obtain ⟨_, _, ⟨⟩⟩ := hanswer
    exact SymbolTable.GrowsTo.refl t
  | occurrences refs =>
    cases hanswer
    exact SymbolRef.growsTo_resolveAll refs t
  | closure refs =>
    cases hanswer
    exact SymbolRef.growsTo_resolveAll refs t
  | normalize naming =>
    simp only [Query.answer, Journaled.outcome_bind, Journaled.outcome_mapError, bind_eq_ok_iff,
      mapError_eq_ok_iff] at hanswer
    obtain ⟨_, hnormalized, ⟨⟩⟩ := hanswer
    exact Grammar.growsTo_normalize hnormalized
  | introduced memo wrappers helpers =>
    simp only [Query.answer] at hanswer
    split at hanswer
    · cases hanswer
    · cases hanswer
      exact (SymbolRef.growsTo_resolveAll wrappers t).trans (growsTo_helperNames _ helpers _)

/-- A transformation only adds names to the table. -/
theorem Transform.growsTo_apply {tr : Transform} {memos : List BinaryMemo} {g : Grammar}
    {t : SymbolTable} {result : Transformed}
    (hresult : (tr.apply memos g t).outcome = .ok result) : t.GrowsTo result.table := by
  cases tr with
  | copy =>
    cases hresult
    exact SymbolTable.GrowsTo.refl t
  | withRules refs =>
    cases hresult
    exact RuleRef.growsTo_resolveAll refs t
  | sortByNumber =>
    cases hresult
    exact SymbolTable.GrowsTo.refl t
  | removeUnproductive =>
    cases hresult
    exact SymbolTable.GrowsTo.refl t
  | removeUnreachable =>
    simp only [Transform.apply, Journaled.outcome_bind, bind_eq_ok_iff] at hresult
    obtain ⟨_, _, ⟨⟩⟩ := hresult
    exact SymbolTable.GrowsTo.refl t
  | removeUseless =>
    simp only [Transform.apply, Journaled.outcome_bind, bind_eq_ok_iff] at hresult
    obtain ⟨_, _, ⟨⟩⟩ := hresult
    exact SymbolTable.GrowsTo.refl t
  | eliminateEpsilon naming =>
    simp only [Transform.apply, Journaled.outcome_bind, Grammar.outcome_journalEpsilon,
      bind_eq_ok_iff] at hresult
    obtain ⟨_, ⟨⟩, ⟨⟩⟩ := hresult
    exact g.growsTo_eliminateEpsilon t naming
  | eliminateUnits =>
    simp only [Transform.apply, Journaled.outcome_bind, bind_eq_ok_iff] at hresult
    obtain ⟨_, _, ⟨⟩⟩ := hresult
    exact SymbolTable.GrowsTo.refl t
  | binarize naming =>
    cases hresult
    exact g.growsTo_binarize { naming } t
  | binarizeWith index =>
    simp only [Transform.apply] at hresult
    split at hresult
    · cases hresult
    · cases hresult
      exact g.growsTo_binarize _ t

/-! ### What a command does -/

/-- The grammar and the table that a command brings along. -/
inductive Command.Creates : Command → Grammar → SymbolTable → Prop
  | new (start : String) :
    Creates (.new start) (.addNonterminal { start := (SymbolTable.empty.intern start).1 }
      (SymbolTable.empty.intern start).1) (SymbolTable.empty.intern start).2
  | ofNames (names : List String) (start : Symbol) :
    Creates (.ofNames names start) { start } (SymbolTable.empty.internAll names).2
  | load {source : GrammarSource} {g : Grammar} {t : SymbolTable}
      (hbuild : source.build.outcome = .ok (g, t)) : Creates (.load source) g t

/-- Tests whether an edit changes the grammar, apart from its table. -/
def Edit.mutates : Edit → Bool
  | intern _ | fresh _ _ => false
  | declareTerminals _ | declareNonterminals _ | addRules _ | sort | dedup | setStart _ => true

/-- Tests whether a command changes the grammar at a place. -/
def Command.mutates (i : Nat) : Command → Bool
  | edit j e => j == i && e.mutates
  | new _ | ofNames _ _ | load _ | addMemo _ | query _ _ | transform _ _ => false

namespace Workspace

variable {w w' : Workspace} {command : Command} {commands : List Command} {i : Nat}
  {snapshot : Snapshot} {t : SymbolTable}

/-- A snapshot is found with the table that it refers to. -/
theorem find?_eq_some_iff : w.find? i = some (snapshot, t) ↔
    w.snapshots[i]? = some snapshot ∧ w.tables[snapshot.table]? = some t := by
  simp only [find?, bind, Option.bind_eq_some_iff, pure, Option.some.injEq, Prod.mk.injEq]
  constructor
  · rintro ⟨_, hsnapshot, _, htable, rfl, rfl⟩
    exact ⟨hsnapshot, htable⟩
  · rintro ⟨hsnapshot, htable⟩
    exact ⟨_, hsnapshot, _, htable, rfl, rfl⟩

/-- The workspace after a command. -/
inductive Change (w : Workspace) : Command → Workspace → Prop
  /-- A command that fails leaves the workspace alone. -/
  | failed {command : Command} : w.Change command w
  | created {command : Command} {g : Grammar} {t : SymbolTable} (hcreates : command.Creates g t) :
    w.Change command (w.addGrammar g t).2
  | memo (naming : Naming) : w.Change (.addMemo naming) { w with memos := w.memos ++ [{ naming }] }
  | edited {i : Nat} {e : Edit} {snapshot : Snapshot} {t : SymbolTable}
      (hfind : w.find? i = some (snapshot, t)) :
    w.Change (.edit i e)
      { w with
        tables := w.tables.set snapshot.table (e.apply snapshot.grammar t).table
        snapshots := w.snapshots.set i ⟨snapshot.table, (e.apply snapshot.grammar t).grammar⟩ }
  | asked {i : Nat} {q : Query} {snapshot : Snapshot} {t t' : SymbolTable} {answer : Answer}
      (hfind : w.find? i = some (snapshot, t))
      (hanswer : (q.answer w.memos snapshot.grammar t).outcome = .ok (answer, t')) :
    w.Change (.query i q) { w with tables := w.tables.set snapshot.table t' }
  | derived {i : Nat} {tr : Transform} {snapshot : Snapshot} {t : SymbolTable}
      {result : Transformed} (hfind : w.find? i = some (snapshot, t))
      (hresult : (tr.apply w.memos snapshot.grammar t).outcome = .ok result) :
    w.Change (.transform i tr)
      ({ w with memos := result.memos }.addDerived snapshot.table result.grammar result.table).2

private theorem change_of_step {answer : Answer}
    (hstep : (w.step command).outcome = .ok (answer, w')) : w.Change command w' := by
  cases command with
  | new start =>
    cases hstep
    exact .created (.new start)
  | ofNames names start =>
    cases hstep
    exact .created (.ofNames names start)
  | load source =>
    simp only [step, Journaled.outcome_bind, bind_eq_ok_iff] at hstep
    obtain ⟨_, hbuild, ⟨⟩⟩ := hstep
    exact .created (.load hbuild)
  | addMemo naming =>
    cases hstep
    exact .memo naming
  | edit i e =>
    simp only [step] at hstep
    split at hstep
    · cases hstep
    · rename_i hfind
      cases hstep
      exact .edited hfind
  | query i q =>
    simp only [step] at hstep
    split at hstep
    · cases hstep
    · rename_i hfind
      simp only [Journaled.outcome_bind, bind_eq_ok_iff] at hstep
      obtain ⟨_, hanswer, ⟨⟩⟩ := hstep
      exact .asked hfind hanswer
  | transform i tr =>
    simp only [step] at hstep
    split at hstep
    · cases hstep
    · rename_i hfind
      simp only [Journaled.outcome_bind, bind_eq_ok_iff] at hstep
      obtain ⟨_, hresult, ⟨⟩⟩ := hstep
      exact .derived hfind hresult

/-- A failed command leaves the workspace as it is. -/
theorem advance_of_error {e : Failure} (hstep : (w.step command).outcome = .error e) :
    w.advance command = ⟨.error e, (w.step command).events, w⟩ := by
  simp only [advance, hstep]

/-- A command that succeeds leaves the workspace that it returns. -/
theorem advance_of_ok {answer : Answer} (hstep : (w.step command).outcome = .ok (answer, w')) :
    w.advance command = ⟨.ok answer, (w.step command).events, w'⟩ := by
  simp only [advance, hstep]

/-- Every command changes the workspace in one of the ways it can. -/
theorem change_advance (w : Workspace) (command : Command) :
    w.Change command (w.advance command).workspace := by
  cases hstep : (w.step command).outcome with
  | error e =>
    rw [advance_of_error hstep]
    exact .failed
  | ok result =>
    rw [advance_of_ok hstep]
    exact change_of_step hstep

/-! ### What a command leaves alone -/

/-- Every table is still at its place and has at most grown. -/
def TablesGrow (tables tables' : List SymbolTable) : Prop :=
  ∀ (i : Nat) (t : SymbolTable), tables[i]? = some t →
    ∃ t', tables'[i]? = some t' ∧ t.GrowsTo t'

/-- Tables grow to themselves. -/
theorem TablesGrow.refl (tables : List SymbolTable) : TablesGrow tables tables :=
  fun _ t ht => ⟨t, ht, SymbolTable.GrowsTo.refl t⟩

private theorem tablesGrow_append (tables others : List SymbolTable) :
    TablesGrow tables (tables ++ others) := by
  intro i t ht
  have hlt : i < tables.length := (List.getElem?_eq_some_iff.mp ht).1
  exact ⟨t, by rwa [List.getElem?_append_left hlt], SymbolTable.GrowsTo.refl t⟩

private theorem tablesGrow_set {tables : List SymbolTable} {t' : SymbolTable}
    (ht : tables[i]? = some t) (hgrows : t.GrowsTo t') : TablesGrow tables (tables.set i t') := by
  intro j u hu
  by_cases hij : i = j
  · subst hij
    obtain rfl : t = u := Option.some.inj (ht.symm.trans hu)
    have hlt : i < tables.length := (List.getElem?_eq_some_iff.mp ht).1
    exact ⟨t', List.getElem?_set_self hlt, hgrows⟩
  · exact ⟨u, by rwa [List.getElem?_set_ne hij], SymbolTable.GrowsTo.refl u⟩

/-- No command takes a name from a table. -/
theorem Change.tablesGrow (h : w.Change command w') : TablesGrow w.tables w'.tables := by
  cases h with
  | failed => exact TablesGrow.refl _
  | created hcreates => exact tablesGrow_append _ _
  | memo naming => exact TablesGrow.refl _
  | edited hfind => exact tablesGrow_set (find?_eq_some_iff.mp hfind).2 (Edit.growsTo_apply ..)
  | asked hfind hanswer =>
    exact tablesGrow_set (find?_eq_some_iff.mp hfind).2 (Query.growsTo_answer hanswer)
  | derived hfind hresult =>
    exact tablesGrow_set (find?_eq_some_iff.mp hfind).2 (Transform.growsTo_apply hresult)

private theorem grammar_apply_of_not_mutates {e : Edit} (he : e.mutates = false) (g : Grammar)
    (t : SymbolTable) : (e.apply g t).grammar = g := by
  cases e with
  | intern name => rfl
  | fresh name suffix => rfl
  | declareTerminals | declareNonterminals | addRules | sort | dedup | setStart => cases he

/-- A grammar that is not edited stays at its place. -/
theorem Change.snapshot_eq (h : w.Change command w') (hkept : command.mutates i = false)
    (hsnapshot : w.snapshots[i]? = some snapshot) : w'.snapshots[i]? = some snapshot := by
  have hlt : i < w.snapshots.length := (List.getElem?_eq_some_iff.mp hsnapshot).1
  cases h with
  | failed => exact hsnapshot
  | created hcreates => exact (List.getElem?_append_left hlt).trans hsnapshot
  | memo naming => exact hsnapshot
  | @edited j e edited t hfind =>
    by_cases hij : j = i
    · subst hij
      have he : e.mutates = false := by simpa [Command.mutates] using hkept
      have hsame : snapshot = edited :=
        Option.some.inj (hsnapshot.symm.trans (find?_eq_some_iff.mp hfind).1)
      rw [List.getElem?_set_self hlt, grammar_apply_of_not_mutates he, hsame]
    · exact (List.getElem?_set_ne hij).trans hsnapshot
  | asked hfind hanswer => exact hsnapshot
  | derived hfind hresult => exact (List.getElem?_append_left hlt).trans hsnapshot

/-- A command that does not change a grammar leaves it alone and lets its table grow. -/
theorem find?_advance (hfind : w.find? i = some (snapshot, t))
    (hkept : command.mutates i = false) :
    ∃ t', (w.advance command).workspace.find? i = some (snapshot, t') ∧ t.GrowsTo t' := by
  have hchange := w.change_advance command
  obtain ⟨hsnapshot, htable⟩ := find?_eq_some_iff.mp hfind
  obtain ⟨t', htable', hgrows⟩ := hchange.tablesGrow _ _ htable
  exact ⟨t', find?_eq_some_iff.mpr ⟨hchange.snapshot_eq hkept hsnapshot, htable'⟩, hgrows⟩

/-- Along any sequence of commands that do not change a grammar, it stays as it is and its table
grows. -/
theorem find?_run (hfind : w.find? i = some (snapshot, t))
    (hkept : ∀ command ∈ commands, command.mutates i = false) :
    ∃ t', (w.run commands).find? i = some (snapshot, t') ∧ t.GrowsTo t' := by
  induction commands generalizing w t with
  | nil => exact ⟨t, hfind, SymbolTable.GrowsTo.refl t⟩
  | cons command rest ih =>
    obtain ⟨t₁, hfind₁, hgrows₁⟩ := find?_advance hfind (hkept command List.mem_cons_self)
    obtain ⟨t₂, hfind₂, hgrows₂⟩ := ih hfind₁ fun other hother =>
      hkept other (List.mem_cons_of_mem command hother)
    exact ⟨t₂, hfind₂, hgrows₁.trans hgrows₂⟩

end Workspace

end Chomsky
