import Chomsky.Proofs.Lexemes
import Chomsky.Proofs.Reading

/-!
# The first fault of a text

A text that cannot be read is reported at the first relevant lexeme that is a control
character, or after which the signs so far cannot go on to those of rules. Signs can
go on exactly if they are scanned one by one without a fault, since whatever was read of
a rule can be completed. If no lexeme is at fault then there is no relevant lexeme at
all, for the last stop of a text ends its last rule; and where there is a rule, the parse
of the signs has a value.
-/

namespace Chomsky.Bnf

variable {signs signs' : List Sign} {r next : Recognizer UInt32} {found : List Placed}
  {x : Lexeme} {e : ParseError} {text : String}

/-! ### Signs that can go on -/

/-- The signs are the start of the signs of one or more rules. -/
def Viable (signs : List Sign) : Prop :=
  ∃ rules : List RuleText, rules ≠ [] ∧ signs <+: rules.flatMap RuleText.signs

/-- The start of signs that can go on can go on. -/
theorem Viable.of_isPrefix (h : Viable signs') (hstart : signs <+: signs') : Viable signs := by
  obtain ⟨rules, hne, hrules⟩ := h
  exact ⟨rules, hne, hstart.trans hrules⟩

/-- Signs that complete the current rule. -/
def Reading.completion : Reading UInt32 → List Sign
  | .ruleStart => [.name epsilonMark, .arrow, .name epsilonMark, .stop]
  | .leftName _ => [.arrow, .name epsilonMark, .stop]
  | .alternativeStart _ _ _ => [.name epsilonMark, .stop]
  | .alternative _ _ _ _ => [.stop]

/-- A sign as it is scanned, if its number does not matter. -/
def Sign.unnumbered (sign : Sign) : Terminal × UInt32 := (sign.kind, 0)

/-- Whatever was read can be completed to a parse. -/
theorem Recognizer.exists_scanAll_completion (r : Recognizer UInt32) : ∃ next tree,
    r.scanAll (r.reading.completion.map Sign.unnumbered) = some next ∧ next.tree? = some tree := by
  obtain ⟨finished, reading⟩ := r
  cases reading <;> exact ⟨_, _, rfl, rfl⟩

/-- Signs can go on exactly if none of them is misplaced, whatever their numbers are. -/
theorem viable_iff {numbered : List (Terminal × UInt32)}
    (hkinds : numbered.map Prod.fst = signs.map Sign.kind) :
    Viable signs ↔ ∃ r, Recognizer.scanAll {} numbered = some r := by
  constructor
  · rintro ⟨rules, hne, rest, hrest⟩
    obtain ⟨tree, hleaves, _⟩ := evaluates_rules hne
    have hall : tree.leaves.map Prod.fst =
        (numbered ++ rest.map Sign.unnumbered).map Prod.fst := by
      rw [hleaves, ← hrest, List.map_append, List.map_append, List.map_append, hkinds]
      simp only [List.map_map]
      rfl
    obtain ⟨other, hother⟩ := tree.exists_leaves_eq hall
    have hrun := scanAll_leaves other
    rw [hother] at hrun
    obtain ⟨r, hfirst, _⟩ := Recognizer.scanAll_append_eq_some_iff.mp hrun
    exact ⟨r, hfirst⟩
  · rintro ⟨r, hrun⟩
    obtain ⟨next, tree, hrest, htree⟩ := r.exists_scanAll_completion
    have hleaves := Recognizer.exists_scanAll_iff.mp
      ⟨next, Recognizer.scanAll_append_eq_some_iff.mpr ⟨r, hrun, hrest⟩, htree⟩
    have hall : tree.leaves.map Prod.fst =
        ((signs ++ r.reading.completion).map Sign.leaf).map Prod.fst := by
      rw [hleaves, List.map_append, List.map_append, List.map_append, hkinds]
      simp only [List.map_map]
      rfl
    obtain ⟨other, hother⟩ := tree.exists_leaves_eq hall
    obtain ⟨rules, hne, hsigns, _⟩ := evaluates_grammar_iff.mp ⟨other, hother, rfl⟩
    exact ⟨rules, hne, _, hsigns⟩

/-! ### The lexeme at which reading stops -/

/-- The lexeme cannot be read after the relevant lexemes before it: it is a control character, or
the signs up to and including it cannot go on to those of rules. -/
def Offends (before : List Lexeme) (x : Lexeme) : Prop :=
  (∃ c, x.token = .control c) ∨ ¬Viable (signsOf (before ++ [x]))

/-- What was read cannot be followed by the mark, and the error says why: the mark is a control
character or a misplaced sign. -/
inductive StopsAt (r : Recognizer UInt32) (placed : Placed) : ParseError → Prop where
  | control {c : Char} (hmark : placed.mark = .control c) :
    StopsAt r placed ⟨.control c, placed.lexeme.position⟩
  | misplaced {kind : Terminal} (hmark : placed.mark = .sign kind)
    (hscan : r.scan kind (UInt32.ofNat placed.place) = none) :
    StopsAt r placed ⟨.misplaced placed.lexeme.token, placed.lexeme.position⟩

/-- Reading with an error stops at some mark, and everything before it was read. -/
theorem exists_stopsAt_of_readMarks (h : readMarks r found = .error e) :
    ∃ before placed after next, found = before ++ placed :: after ∧
      readMarks r before = .ok next ∧ StopsAt next placed e := by
  induction found generalizing r with
  | nil => cases h
  | cons placed rest ih =>
    obtain ⟨mark, lexeme, place⟩ := placed
    cases mark with
    | control c =>
      cases h
      exact ⟨[], _, rest, r, rfl, rfl, .control rfl⟩
    | sign kind =>
      rw [readMarks] at h
      cases hscan : r.scan kind (UInt32.ofNat place) with
      | none =>
        rw [hscan] at h
        cases h
        exact ⟨[], _, rest, r, rfl, rfl, .misplaced rfl hscan⟩
      | some middle =>
        rw [hscan] at h
        obtain ⟨before, other, after, next, rfl, hread, hstops⟩ := ih h
        refine ⟨⟨.sign kind, lexeme, place⟩ :: before, other, after, next, rfl, ?_, hstops⟩
        rw [readMarks, hscan]
        exact hread

/-- What is scanned has the kinds of the signs of the lexemes. -/
theorem map_fst_scanned
    (h : ∀ placed ∈ found, markOfToken placed.lexeme.token = some placed.mark) :
    (scanned found).map Prod.fst = (signsOf (found.map Placed.lexeme)).map Sign.kind := by
  rw [scanned, signsOf, List.map_filterMap, List.filterMap_map, List.map_filterMap]
  refine List.filterMap_congr fun placed hplaced => ?_
  have hmark := h placed hplaced
  obtain ⟨mark, ⟨token, piece, position⟩, place⟩ := placed
  cases token <;> cases hmark <;> rfl

/-! ### Texts without rules -/

/-- What was read of a rule does not end with a stop. -/
theorem Reading.ne_stop_of_getLast? {reading : Reading UInt32} {leaf : Terminal × UInt32}
    (h : reading.leaves.getLast? = some leaf) : leaf.1 ≠ .stop := by
  have hnames (names : Tree UInt32 .alternative) :
      ∃ init number, names.leaves = init ++ [(Terminal.name, number)] := by
    cases names with
    | firstName first => exact ⟨[], first, rfl⟩
    | nextName before last => exact ⟨before.leaves, last, rfl⟩
  cases reading with
  | ruleStart => cases h
  | leftName lhs =>
    cases h
    rintro ⟨⟩
  | alternativeStart lhs arrow finished =>
    cases finished with
    | none =>
      cases h
      rintro ⟨⟩
    | some finished =>
      obtain rfl : (Terminal.bar, finished.2) = leaf := by
        simpa [leaves, finishedLeaves, List.getLast?_cons] using h
      rintro ⟨⟩
  | alternative lhs arrow finished names =>
    obtain ⟨init, number, hlast⟩ := hnames names
    obtain rfl : (Terminal.name, number) = leaf := by
      simpa [leaves, hlast, List.getLast?_cons, ← List.append_assoc] using h
    rintro ⟨⟩

section Read

variable (hread : readMarks {} (marks (lexemes text)) = .ok r)
include hread

/-- What was read has the kinds of the signs of the text. -/
theorem map_fst_leaves : r.leaves.map Prod.fst = (effectiveSigns text).map Sign.kind := by
  obtain ⟨hcontrol, hrun⟩ := readMarks_eq_ok_iff.mp hread
  have hnone : ∀ c, .control c ∉ tokensOf text.toList :=
    fun c => mt control_mem_marks_iff.mpr (hcontrol c)
  rw [Recognizer.leaves_scanAll hrun, ← signsOf_relevantLexemes hnone, ← map_lexeme_marks,
    ← map_fst_scanned fun _ => markOfToken_of_mem_marks]
  rfl

/-- Where nothing is at fault and there is no rule, nothing is relevant: the signs of a text end
with a stop, so no rule is unfinished. -/
theorem relevantLexemes_eq_nil (htree : r.tree? = none) : relevantLexemes text = [] := by
  have hkinds := map_fst_leaves hread
  obtain ⟨finished, reading⟩ := r
  have hstart : reading.leaves = [] := by
    refine List.getLast?_eq_none_iff.mp (Option.eq_none_iff_forall_ne_some.mpr fun leaf hleaf => ?_)
    have hlast := congrArg List.getLast? hkinds
    rw [List.getLast?_map, List.getLast?_map, Recognizer.leaves, List.getLast?_append,
      hleaf] at hlast
    obtain ⟨sign, hsign, hkind⟩ := Option.map_eq_some_iff.mp hlast.symm
    have hstop := getLastD_effectiveSigns text
    rw [List.getLastD_eq_getLast?, hsign] at hstop
    subst hstop
    exact Reading.ne_stop_of_getLast? hleaf hkind.symm
  obtain rfl : reading = .ruleStart := by cases reading <;> first | rfl | cases hstart
  obtain rfl : finished = none := htree
  obtain ⟨hcontrol, hrun⟩ := readMarks_eq_ok_iff.mp hread
  have hscanned : scanned (marks (lexemes text)) = [] := (Recognizer.leaves_scanAll hrun).symm
  have hmarks : marks (lexemes text) = [] := by
    refine List.eq_nil_iff_forall_not_mem.mpr fun placed hplaced => ?_
    have hnone := List.filterMap_eq_nil_iff.mp hscanned placed hplaced
    cases hmark : placed.mark with
    | sign kind => simp [Placed.scan?, hmark] at hnone
    | control c => exact hcontrol c (List.mem_map.mpr ⟨placed, hplaced, hmark⟩)
  rw [← map_lexeme_marks, hmarks, List.map_nil]

end Read

/-- As long as the numbers of lexemes fit, a parse of the signs of a text has rules as its value. -/
theorem exists_rules_of_leaves (hcount : (lexemes text).length ≤ UInt32.size)
    (hcontrol : ∀ c, .control c ∉ tokensOf text.toList) {tree : Tree UInt32 .grammar}
    (h : tree.leaves = scanned (marks (lexemes text))) :
    ∃ first rest, tree.value (Value.ofSign (lexemes text).toArray) = .rules (first :: rest) := by
  have hback : readBack text = (effectiveSigns text).map Sign.leaf := by
    rw [readBack_eq_map_leaf hcount, signsOf_relevantLexemes hcontrol]
  exact exists_rules_of_evaluates
    ⟨_, (leaves_map_ofSign h).trans hback, Tree.value_map _ tree⟩

/-! ### The report -/

/-- What is said of a token that cannot be read. -/
def complaint : Token → String
  | .control c => "unexpected character " ++ Text.quoteSingle c
  | _ => "parse failed"

private theorem complaint_of_not_control {token : Token} (h : ∀ c, token ≠ .control c) :
    complaint token = "parse failed" := by
  cases token with
  | control c => exact absurd rfl (h c)
  | _ => rfl

/-- The error names a lexeme: what is wrong with it, its token, and its line and column. -/
structure Reports (e : ParseError) (x : Lexeme) : Prop where
  reason : e.reason = complaint x.token
  token : e.token? = some x.token
  position : e.position = x.position

section Stopped

variable {before : List Placed} {placed : Placed}

/-- Nothing that was read offends: none of it is a control character, and its signs can go on. -/
theorem not_offends_of_read
    (hmarks : ∀ other ∈ before, markOfToken other.lexeme.token = some other.mark)
    (hread : readMarks {} before = .ok next) {init : List Lexeme} {y : Lexeme}
    (hstart : init ++ [y] <+: before.map Placed.lexeme) : ¬Offends init y := by
  obtain ⟨hcontrol, hrun⟩ := readMarks_eq_ok_iff.mp hread
  have hviable : Viable (signsOf (before.map Placed.lexeme)) :=
    (viable_iff (map_fst_scanned hmarks)).mpr ⟨next, hrun⟩
  rintro (⟨c, hc⟩ | hnot)
  · have hy : y ∈ before.map Placed.lexeme := hstart.subset (by simp)
    obtain ⟨other, hother, rfl⟩ := List.mem_map.mp hy
    have hmark := hmarks other hother
    rw [hc] at hmark
    exact hcontrol c (List.mem_map.mpr ⟨other, hother, (Option.some.inj hmark).symm⟩)
  · exact hnot (hviable.of_isPrefix (hstart.filterMap _))

/-- Signs cannot go on with one that is misplaced after them. -/
theorem not_viable_of_scan_eq_none {kind : Terminal}
    (hmarks : ∀ other ∈ before ++ [placed], markOfToken other.lexeme.token = some other.mark)
    (hread : readMarks {} before = .ok next) (hkind : placed.mark = .sign kind)
    (hscan : next.scan kind (UInt32.ofNat placed.place) = none) :
    ¬Viable (signsOf ((before ++ [placed]).map Placed.lexeme)) := by
  have hscanned : scanned (before ++ [placed]) =
      scanned before ++ [(kind, UInt32.ofNat placed.place)] := by
    simp [scanned, Placed.scan?, hkind]
  rw [viable_iff (map_fst_scanned hmarks), hscanned]
  rintro ⟨last, hlast⟩
  obtain ⟨middle, hmiddle, hstep⟩ := Recognizer.scanAll_append_eq_some_iff.mp hlast
  obtain ⟨_, hstep, _⟩ := Recognizer.scanAll_cons_eq_some_iff.mp hstep
  rw [(readMarks_eq_ok_iff.mp hread).2] at hmiddle
  cases hmiddle
  rw [hscan] at hstep
  cases hstep

/-- The lexeme at which reading stops offends. -/
theorem StopsAt.offends (h : StopsAt next placed e)
    (hmarks : ∀ other ∈ before ++ [placed], markOfToken other.lexeme.token = some other.mark)
    (hread : readMarks {} before = .ok next) :
    Offends (before.map Placed.lexeme) placed.lexeme := by
  cases h with
  | control hmark =>
    have hplaced := hmarks placed (by simp)
    exact Or.inl ⟨_, control_of_markOfToken (hmark ▸ hplaced)⟩
  | misplaced hkind hscan =>
    have hnot := not_viable_of_scan_eq_none hmarks hread hkind hscan
    rw [List.map_append, List.map_singleton] at hnot
    exact Or.inr hnot

/-- The lexeme at which reading stops is the one that is reported. -/
theorem StopsAt.reports (h : StopsAt next placed e)
    (hplaced : markOfToken placed.lexeme.token = some placed.mark) : Reports e placed.lexeme := by
  cases h with
  | control hmark =>
    have htoken := control_of_markOfToken (hmark ▸ hplaced)
    refine ⟨?_, ?_, rfl⟩
    · rw [htoken]
      rfl
    · rw [htoken]
      rfl
  | misplaced hkind hscan =>
    have hnone : ∀ c, placed.lexeme.token ≠ .control c := by
      intro c hc
      rw [hc, hkind] at hplaced
      cases hplaced
    exact ⟨(complaint_of_not_control hnone).symm, rfl, rfl⟩

end Stopped

/-- An error in reading is reported at the first relevant lexeme that cannot be read after those
before it. -/
theorem exists_offence_of_readMarks (h : readMarks {} (marks (lexemes text)) = .error e) :
    ∃ before x after, relevantLexemes text = before ++ x :: after ∧ Offends before x ∧
      (∀ init y, init ++ [y] <+: before → ¬Offends init y) ∧ Reports e x := by
  obtain ⟨before, placed, after, next, hsplit, hread, hstops⟩ := exists_stopsAt_of_readMarks h
  have hmarks : ∀ other ∈ before ++ [placed],
      markOfToken other.lexeme.token = some other.mark := by
    intro other hother
    apply markOfToken_of_mem_marks
    rw [hsplit, List.append_cons]
    exact List.mem_append_left _ hother
  obtain ⟨hbefore, hlast⟩ := List.forall_mem_append.mp hmarks
  refine ⟨before.map Placed.lexeme, placed.lexeme, after.map Placed.lexeme, ?_,
    hstops.offends hmarks hread, fun init y hstart => not_offends_of_read hbefore hread hstart,
    hstops.reports (hlast placed (List.mem_singleton_self placed))⟩
  rw [← map_lexeme_marks, hsplit, List.map_append, List.map_cons]

/-- If nothing is at fault but no description is found, then nothing is relevant, and the lack of a
rule is reported at the end of the text. -/
theorem conclude_eq_error (hcount : (lexemes text).length ≤ UInt32.size)
    (hread : readMarks {} (marks (lexemes text)) = .ok r)
    (h : conclude (lexemes text) (Position.after {} text.toList) r = .error e) :
    relevantLexemes text = [] ∧ e = ⟨.noRules, Position.after {} text.toList⟩ := by
  rw [conclude] at h
  cases htree : r.tree? with
  | none =>
    rw [htree] at h
    exact ⟨relevantLexemes_eq_nil hread htree, (Except.error.inj h).symm⟩
  | some tree =>
    obtain ⟨hcontrol, hrun⟩ := readMarks_eq_ok_iff.mp hread
    have hleaves := Recognizer.exists_scanAll_iff.mp ⟨r, hrun, htree⟩
    obtain ⟨first, rest, hvalue⟩ := exists_rules_of_leaves hcount
      (fun c => mt control_mem_marks_iff.mpr (hcontrol c)) hleaves
    rw [htree] at h
    simp only [hvalue] at h
    cases h

/-- An error is reported at the first relevant lexeme that is a control character or cannot follow
those before it. If there is none then no lexeme is relevant, and the lack of a rule is reported at
the end of the text. The evaluation of a parse of the signs never fails, and without control
characters its value is what is read. The text is one on which no counter of 32 bits wraps, as on
every text of fewer than `2 ^ 32 - 1` characters. -/
theorem parse_reports_first_fault (text : String) (hfits : FitsCounters text) :
    (∀ e, parse text = .error e →
      ((∃ before x after, relevantLexemes text = before ++ x :: after ∧ Offends before x ∧
        (∀ init y, init ++ [y] <+: before → ¬Offends init y) ∧ Reports e x) ∨
      (relevantLexemes text = [] ∧ e.reason = "expected at least one rule" ∧ e.token? = none ∧
        (lexemes text).getLast?.map Lexeme.position = some e.position)) ∧
      ∀ found, e.fault ≠ .noValue found) ∧
    ∀ value, Evaluates .grammar (effectiveSigns text) value →
      ∃ first rest, value = .rules (first :: rest) ∧
        ((∀ c, .control c ∉ tokensOf text.toList) →
          ∃ d, parse text = .ok d ∧ d.rules = first :: rest) := by
  constructor
  · intro e hparse
    rcases bind_eq_error_iff.mp hparse with herror | ⟨r, hread, hconclude⟩
    · have hoffence := exists_offence_of_readMarks herror
      refine ⟨Or.inl hoffence, fun found hfound => ?_⟩
      obtain ⟨_, x, _, _, _, _, hreports⟩ := hoffence
      have htoken := hreports.token
      rw [ParseError.token?, hfound] at htoken
      cases htoken
    · obtain ⟨hnil, rfl⟩ := conclude_eq_error hfits.numbers hread hconclude
      obtain ⟨init, hinit, _⟩ := exists_lexemesFrom_eq {} text.toList
      refine ⟨Or.inr ⟨hnil, rfl, rfl, ?_⟩, fun found => nofun⟩
      rw [lexemes, hinit]
      simp
  · intro value hvalue
    obtain ⟨first, rest, rfl⟩ := exists_rules_of_evaluates hvalue
    refine ⟨first, rest, rfl, fun hcontrol => ?_⟩
    obtain ⟨rules, hne, hsigns, _⟩ := evaluates_grammar_iff.mp hvalue
    obtain ⟨rule, others, rfl⟩ := List.exists_cons_of_ne_nil hne
    have hparse := parse_of_effectiveSigns hfits.numbers hcontrol hsigns
    exact ⟨_, hparse, Value.rules.inj
      ((evaluates_iff_of_parse hfits.numbers hparse).mp hvalue).symm⟩

/-- A bar that starts a right side, two line breaks after the arrow, and a control character. -/
def danglingBar : String := "S ::=\n# c\n | a\x07"

/-- Both line breaks join lines, so that the bar comes after the arrow and is reported before the
control character. -/
theorem parse_danglingBar_reports_first_fault :
    parse danglingBar = .error ⟨.misplaced .bar, ⟨3, 2⟩⟩ ∧
      ∃ before x after, relevantLexemes danglingBar = before ++ x :: after ∧ Offends before x ∧
        (∀ init y, init ++ [y] <+: before → ¬Offends init y) ∧
        x.token = .bar ∧ x.position = ⟨3, 2⟩ := by
  have hparse : parse danglingBar = .error ⟨.misplaced .bar, ⟨3, 2⟩⟩ := by decide +kernel
  rcases ((parse_reports_first_fault danglingBar
    (fitsCounters_of_length (by decide))).1 _ hparse).1 with
    ⟨before, x, after, hsplit, hoffends, hfirst, hreports⟩ | ⟨_, _, htoken, _⟩
  · exact ⟨hparse, before, x, after, hsplit, hoffends, hfirst,
      (Option.some.inj hreports.token).symm, hreports.position.symm⟩
  · cases htoken

end Chomsky.Bnf
