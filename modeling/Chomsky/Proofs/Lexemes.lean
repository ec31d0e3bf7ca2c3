import Chomsky.Proofs.Counters
import Mathlib.Data.List.TakeWhile

/-!
# Lexemes of a text

A piece of text is read as a token before the text that follows it. What the piece
looks like is said for each kind of token: a name is a longest run without a
character that ends names and without a place where an arrow starts, and a comment
goes on to the end of its line. The lexemes of a text are pieces that are read like
this one after the other, none of them empty, which together are the text. Each has
the line and the column at which its piece starts. No other lexemes are like this.
-/

namespace Chomsky.Bnf

open Text (isBlank isControl)

variable {c d : Char} {cs piece following : List Char} {token : Token}

/-! ### Arrows -/

/-- The three spellings of an arrow. -/
def arrowSpellings : List (List Char) := [[':', ':', '='], ['-', '>'], ['→']]

/-- An arrow stands at the start of the text. -/
def StartsArrow (cs : List Char) : Prop := ∃ arrow ∈ arrowSpellings, arrow <+: cs

/-- What follows an arrow does not matter. -/
theorem startsArrow_append (h : StartsArrow cs) (tail : List Char) : StartsArrow (cs ++ tail) := by
  obtain ⟨arrow, harrow, hcs⟩ := h
  exact ⟨arrow, harrow, hcs.trans (List.prefix_append cs tail)⟩

/-- An arrow has the length of its spelling. -/
theorem arrowLength_spelling (h : piece ∈ arrowSpellings) (following : List Char) :
    arrowLength (piece ++ following) = piece.length := by
  simp only [arrowSpellings, List.mem_cons, List.not_mem_nil, or_false] at h
  rcases h with rfl | rfl | rfl <;> rfl

private theorem take_arrowLength_mem (h : arrowLength cs ≠ 0) :
    cs.take (arrowLength cs) ∈ arrowSpellings := by
  fun_cases arrowLength cs <;> simp_all [arrowLength, arrowSpellings]

private theorem arrowLength_ne_zero_iff : arrowLength cs ≠ 0 ↔ StartsArrow cs := by
  constructor
  · intro h
    exact ⟨_, take_arrowLength_mem h, List.take_prefix _ _⟩
  · rintro ⟨arrow, harrow, tail, rfl⟩
    rw [arrowLength_spelling harrow]
    simp only [arrowSpellings, List.mem_cons, List.not_mem_nil, or_false] at harrow
    rcases harrow with rfl | rfl | rfl <;> decide

/-- An arrow of no length is none. -/
theorem arrowLength_eq_zero_iff : arrowLength cs = 0 ↔ ¬StartsArrow cs := by
  rw [← arrowLength_ne_zero_iff, not_not]

/-- No arrow starts with a character that ends names. -/
theorem arrowLength_of_endsName (hc : endsName c = true) (cs : List Char) :
    arrowLength (c :: cs) = 0 := by
  rw [arrowLength_eq_zero_iff]
  rintro ⟨arrow, harrow, tail, heq⟩
  simp only [arrowSpellings, List.mem_cons, List.not_mem_nil, or_false] at harrow
  rcases harrow with rfl | rfl | rfl
  all_goals
    cases heq
    revert hc
    decide

/-! ### Pieces that are read as tokens -/

/-- A name ends at the end of the text, before a character that ends names, and before an arrow. -/
def NameEnds (following : List Char) : Prop :=
  (∀ c ∈ following.head?, endsName c = true) ∨ StartsArrow following

/-- The piece is read as the token before the text that follows. -/
inductive Reads : Token → List Char → List Char → Prop where
  | arrow {piece following : List Char} (hpiece : piece ∈ arrowSpellings) :
      Reads .arrow piece following
  | semicolon {following : List Char} : Reads .semicolon [';'] following
  | bar {following : List Char} : Reads .bar ['|'] following
  | newline {following : List Char} : Reads .newline ['\n'] following
  | blank {c : Char} {following : List Char} (hblank : isBlank c = true) (hline : c ≠ '\n') :
      Reads .blank [c] following
  /-- A comment starts with a number sign and extends to just before the next line break. -/
  | comment {body following : List Char} (hbody : '\n' ∉ body)
      (hend : ∀ c ∈ following.head?, c = '\n') : Reads .comment ('#' :: body) following
  | control {c : Char} {following : List Char} (hcontrol : isControl c = true)
      (hblank : isBlank c = false) : Reads (.control c) [c] following
  /-- A name is a run that cannot be extended: none of its characters ends names, and no arrow
  starts at any of them. -/
  | ident {name : String} {following : List Char} (hne : name.toList ≠ [])
      (hchars : ∀ c ∈ name.toList, endsName c = false)
      (harrow : ∀ suffix, suffix ≠ [] → suffix <:+ name.toList → ¬StartsArrow (suffix ++ following))
      (hend : NameEnds following) : Reads (.ident name) name.toList following

/-- Nothing is read from an empty piece. -/
theorem Reads.ne_nil (h : Reads token piece following) : piece ≠ [] := by
  cases h with
  | arrow hpiece =>
    rintro rfl
    revert hpiece
    decide
  | ident hne => exact hne
  | _ => exact List.cons_ne_nil _ _

/-- No piece is read as the end of the text. -/
theorem Reads.ne_endOfText (h : Reads token piece following) : token ≠ .endOfText := by
  cases h <;> rintro ⟨⟩

/-! ### The first token of a text -/

/-- Where the reading of a name stops, the name ends, and before that no arrow starts. -/
theorem nameLength_stops (cs : List Char) :
    NameEnds (cs.drop (nameLength cs)) ∧
      ∀ suffix, suffix ≠ [] → suffix <:+ cs.take (nameLength cs) →
        ¬StartsArrow (suffix ++ cs.drop (nameLength cs)) := by
  fun_induction nameLength cs with
  | case1 =>
    refine ⟨Or.inl (by simp), fun suffix hne hsuffix => ?_⟩
    exact absurd (List.suffix_nil.mp hsuffix) hne
  | case2 c rest hstops =>
    refine ⟨?_, fun suffix hne hsuffix => absurd (List.suffix_nil.mp hsuffix) hne⟩
    rw [Bool.or_eq_true, bne_iff_ne, arrowLength_ne_zero_iff] at hstops
    exact hstops.imp_left fun hc => by simpa using hc
  | case3 c rest hgoes ih =>
    obtain ⟨hends, harrow⟩ := ih
    refine ⟨hends, fun suffix hne hsuffix => ?_⟩
    rw [List.take_succ_cons, List.suffix_cons_iff] at hsuffix
    rcases hsuffix with rfl | hsuffix
    · rw [List.drop_succ_cons, List.cons_append, List.take_append_drop, ← arrowLength_eq_zero_iff]
      simp_all
    · exact harrow suffix hne hsuffix

/-- A run of characters before the end of a name is taken as a whole. -/
theorem nameLength_append (hchars : ∀ c ∈ cs, endsName c = false)
    (harrow : ∀ suffix, suffix ≠ [] → suffix <:+ cs → ¬StartsArrow (suffix ++ following))
    (hend : NameEnds following) : nameLength (cs ++ following) = cs.length := by
  induction cs with
  | nil =>
    cases following with
    | nil => rfl
    | cons d tail =>
      have hstops : endsName d = true ∨ arrowLength (d :: tail) ≠ 0 := by
        rw [arrowLength_ne_zero_iff]
        exact hend.imp_left fun hd => hd d rfl
      rw [List.nil_append, nameLength, if_pos (by simpa using hstops)]
      rfl
  | cons c rest ih =>
    have hstart : arrowLength (c :: (rest ++ following)) = 0 :=
      arrowLength_eq_zero_iff.mpr (harrow (c :: rest) (List.cons_ne_nil _ _) List.suffix_rfl)
    have hrest := ih (fun d hd => hchars d (List.mem_cons_of_mem _ hd))
      fun suffix hne hsuffix => harrow suffix hne (hsuffix.trans (List.suffix_cons c rest))
    rw [List.cons_append, nameLength, hchars c List.mem_cons_self, hstart, hrest]
    rfl

/-- The rest of a line has no line break and comes before one, or before the end of the text. -/
theorem lineLength_stops (cs : List Char) :
    '\n' ∉ cs.take (lineLength cs) ∧ ∀ c ∈ (cs.drop (lineLength cs)).head?, c = '\n' := by
  have hsplit : cs.takeWhile (· != '\n') ++ cs.dropWhile (· != '\n') = cs :=
    List.takeWhile_append_dropWhile
  have htake : cs.take (lineLength cs) = cs.takeWhile (· != '\n') := by
    symm
    exact List.prefix_iff_eq_take.mp ( List.takeWhile_prefix _)
  have hdrop : cs.drop (lineLength cs) = cs.dropWhile (· != '\n') := by
    have hboth := List.take_append_drop (lineLength cs) cs
    rw [htake] at hboth
    exact List.append_cancel_left (hboth.trans hsplit.symm)
  rw [htake, hdrop]
  refine ⟨fun hmem => ?_, fun c hc => ?_⟩
  · simpa using List.mem_takeWhile_imp hmem
  · have hhead := List.head?_dropWhile_not (· != '\n') cs
    rw [Option.mem_def.mp hc] at hhead
    simpa using hhead

/-- A text without a line break before one, or before the end, is the rest of a line. -/
theorem lineLength_append (hbody : '\n' ∉ cs) (hend : ∀ c ∈ following.head?, c = '\n') :
    lineLength (cs ++ following) = cs.length := by
  have hline : ∀ c ∈ cs, (c != '\n') = true := by
    intro c hc
    rw [bne_iff_ne]
    rintro rfl
    exact hbody hc
  have hstop : following.takeWhile (· != '\n') = [] := by
    cases following with
    | nil => rfl
    | cons d tail =>
      obtain rfl := hend d rfl
      rfl
  rw [lineLength, List.takeWhile_append_of_pos hline, hstop, List.append_nil]

/-- The first token is read from the piece that it takes. -/
theorem reads_firstToken (c : Char) (rest : List Char) :
    Reads (firstToken c rest).1 (c :: rest.take (firstToken c rest).2)
      (rest.drop (firstToken c rest).2) := by
  by_cases harrow : arrowLength (c :: rest) = 0
  · by_cases hname : endsName c = true
    · unfold firstToken
      rw [harrow]
      simp only [endsName, Bool.or_eq_true, beq_iff_eq] at hname
      split_ifs with hfalse hsemicolon hbar hline hsharp hblank hcontrol
      · exact absurd hfalse (by decide)
      · subst hsemicolon
        exact Reads.semicolon
      · subst hbar
        exact Reads.bar
      · subst hline
        exact Reads.newline
      · subst hsharp
        exact Reads.comment (lineLength_stops rest).1 (lineLength_stops rest).2
      · exact Reads.blank hblank hline
      · exact Reads.control hcontrol (Bool.eq_false_iff.mpr hblank)
      · simp_all
    · have hc : endsName c = false := Bool.eq_false_iff.mpr hname
      have hwhole : nameLength (c :: rest) = nameLength rest + 1 := by
        simp [nameLength, hc, harrow]
      have hstops := nameLength_stops (c :: rest)
      rw [hwhole, List.take_succ_cons, List.drop_succ_cons] at hstops
      rw [firstToken_name hc harrow]
      have hname := isName_of_firstToken (congrArg Prod.fst (firstToken_name hc harrow))
      have hchars := not_endsName_of_whole hname.whole
      have hread := Reads.ident hname.ne_nil hchars
        (by rw [String.toList_ofList]; exact hstops.2) hstops.1
      rwa [String.toList_ofList] at hread
  · have hpos : arrowLength (c :: rest) = arrowLength (c :: rest) - 1 + 1 := by omega
    have hfirst : firstToken c rest = (.arrow, arrowLength (c :: rest) - 1) := by
      rw [firstToken, if_pos (by simpa using harrow)]
    have hpiece := take_arrowLength_mem harrow
    rw [hpos, List.take_succ_cons] at hpiece
    rw [hfirst]
    exact Reads.arrow hpiece

/-- What is read from a piece is the first token, and it takes that piece. -/
theorem Reads.firstToken_eq {rest : List Char} (h : Reads token (c :: rest) following) :
    firstToken c (rest ++ following) = (token, rest.length) := by
  generalize hpiece : c :: rest = piece at h
  cases h with
  | arrow hspelling =>
    subst hpiece
    have hlength := arrowLength_spelling hspelling following
    rw [List.cons_append] at hlength
    rw [firstToken, hlength]
    rfl
  | semicolon =>
    cases hpiece
    rfl
  | bar =>
    cases hpiece
    rfl
  | newline =>
    cases hpiece
    rfl
  | blank hblank hline =>
    cases hpiece
    have hends : endsName c = true := by simp [endsName, hblank]
    rw [firstToken, List.nil_append, arrowLength_of_endsName hends]
    have hsemicolon : c ≠ ';' := by rintro rfl; revert hblank; decide
    have hbar : c ≠ '|' := by rintro rfl; revert hblank; decide
    have hsharp : c ≠ '#' := by rintro rfl; revert hblank; decide
    simp [hsemicolon, hbar, hline, hsharp, hblank]
  | comment hbody hend =>
    cases hpiece
    have hends : endsName '#' = true := by decide
    rw [firstToken, arrowLength_of_endsName hends, lineLength_append hbody hend]
    rfl
  | control hcontrol hblank =>
    cases hpiece
    have hends : endsName c = true := by simp [endsName, hcontrol]
    rw [firstToken, List.nil_append, arrowLength_of_endsName hends]
    have hsemicolon : c ≠ ';' := by rintro rfl; revert hcontrol; decide
    have hbar : c ≠ '|' := by rintro rfl; revert hcontrol; decide
    have hline : c ≠ '\n' := by rintro rfl; revert hblank; decide
    have hsharp : c ≠ '#' := by rintro rfl; revert hcontrol; decide
    simp [hsemicolon, hbar, hline, hsharp, hblank, hcontrol]
  | @ident name _ hne hchars harrow hend =>
    rw [← hpiece] at hchars harrow
    have hstart : arrowLength (c :: (rest ++ following)) = 0 :=
      arrowLength_eq_zero_iff.mpr (harrow (c :: rest) (List.cons_ne_nil _ _) List.suffix_rfl)
    have hlength : nameLength (rest ++ following) = rest.length :=
      nameLength_append (fun d hd => hchars d (List.mem_cons_of_mem _ hd))
        (fun suffix hne hsuffix => harrow suffix hne (hsuffix.trans (List.suffix_cons c rest))) hend
    rw [firstToken_name (hchars c List.mem_cons_self) hstart, hlength, List.take_left, hpiece,
      String.ofList_toList]

/-! ### All lexemes of a text -/

/-- The text that lexemes stand for. -/
def textOf (found : List Lexeme) : List Char := found.flatMap Lexeme.piece

/-- No lexemes stand for no text. -/
@[simp]
theorem textOf_nil : textOf [] = [] := rfl

/-- The text of lexemes starts with the piece of the first one. -/
@[simp]
theorem textOf_cons (x : Lexeme) (found : List Lexeme) :
    textOf (x :: found) = x.piece ++ textOf found := rfl

/-- Lexemes one after the other stand for their texts one after the other. -/
@[simp]
theorem textOf_append (before after : List Lexeme) :
    textOf (before ++ after) = textOf before ++ textOf after := List.flatMap_append

section Runs

variable {p : Position} {before after found : List Lexeme} {x : Lexeme}

/-- What is read from a piece is the first lexeme, and the others are those of the text that
follows. -/
theorem Reads.lexemesFrom_eq (h : Reads token piece following) (p : Position) :
    lexemesFrom p (piece ++ following) =
      ⟨token, piece, p⟩ :: lexemesFrom (p.after piece) following := by
  obtain ⟨c, rest, rfl⟩ := List.exists_cons_of_ne_nil h.ne_nil
  rw [List.cons_append, lexemesFrom, h.firstToken_eq]
  simp

/-- What is read from a piece is the first token. -/
theorem Reads.tokensOf_eq (h : Reads token piece following) :
    tokensOf (piece ++ following) = token :: tokensOf following := by
  rw [tokensOf, h.lexemesFrom_eq, List.map_cons, map_token_lexemesFrom _ {}]
  rfl

/-- The pieces together are the text. -/
@[simp]
theorem textOf_lexemesFrom (p : Position) (cs : List Char) : textOf (lexemesFrom p cs) = cs := by
  fun_induction lexemesFrom p cs with
  | case1 => rfl
  | case2 p c rest token more hfirst piece ih => simp [ih, piece]

/-- The end of the text is marked after it, and every other lexeme takes a character. -/
theorem exists_lexemesFrom_eq (p : Position) (cs : List Char) :
    ∃ init, lexemesFrom p cs = init ++ [⟨.endOfText, [], p.after cs⟩] ∧
      ∀ x ∈ init, x.piece ≠ [] := by
  fun_induction lexemesFrom p cs with
  | case1 p => exact ⟨[], rfl, by simp⟩
  | case2 p c rest token more hfirst piece ih =>
    obtain ⟨init, hinit, hne⟩ := ih
    refine ⟨⟨token, piece, p⟩ :: init, ?_, ?_⟩
    · rw [hinit, ← Position.after_append, List.cons_append, List.take_append_drop]
      rfl
    · exact List.forall_mem_cons.mpr ⟨List.cons_ne_nil _ _, hne⟩

/-- Each lexeme has the position after the pieces before it, and is read before the pieces after
it. -/
theorem reads_of_lexemesFrom_eq (cs : List Char)
    (hsplit : lexemesFrom p cs = before ++ x :: after) :
    x.position = p.after (textOf before) ∧
      (after ≠ [] → Reads x.token x.piece (textOf after)) := by
  fun_induction lexemesFrom p cs generalizing before with
  | case1 p =>
    cases before with
    | nil =>
      cases hsplit
      exact ⟨rfl, fun hafter => absurd rfl hafter⟩
    | cons y before => simp at hsplit
  | case2 p c rest token more hfirst piece =>
    rename_i ih
    cases before with
    | nil =>
      obtain ⟨rfl, rfl⟩ := List.cons.inj hsplit
      have hreads := reads_firstToken c rest
      rw [hfirst] at hreads
      refine ⟨rfl, fun _ => ?_⟩
      rwa [textOf_lexemesFrom]
    | cons y before =>
      obtain ⟨rfl, hrest⟩ := List.cons.inj hsplit
      obtain ⟨hposition, hreads⟩ := ih hrest
      refine ⟨?_, hreads⟩
      rw [hposition, textOf_cons, Position.after_append]

/-- The lexemes from any one on are those of the text that they stand for. -/
theorem lexemesFrom_of_append (cs : List Char) (hsplit : lexemesFrom p cs = before ++ after)
    (hne : after ≠ []) : lexemesFrom (p.after (textOf before)) (textOf after) = after := by
  induction before generalizing p cs with
  | nil =>
    rw [List.nil_append] at hsplit
    rw [← hsplit, textOf_lexemesFrom, textOf_nil, Position.after_nil]
  | cons x before ih =>
    have hfirst : lexemesFrom p cs = [] ++ x :: (before ++ after) := hsplit
    have hread := (reads_of_lexemesFrom_eq cs hfirst).2 (by simp [hne])
    have htext : cs = x.piece ++ textOf (before ++ after) := by
      rw [← textOf_lexemesFrom p cs, hsplit]
      rfl
    rw [htext, hread.lexemesFrom_eq] at hsplit
    have hrest := ih _ (List.cons.inj hsplit).2
    rwa [textOf_cons, Position.after_append]

/-- The lexemes are what a text consists of. -/
structure Lexes (text : List Char) (found : List Lexeme) : Prop where
  /-- The pieces in their order are the text. -/
  pieces : textOf found = text
  /-- The end of the text comes last, and every lexeme before it takes a character. -/
  progress : ∃ init last, found = init ++ [last] ∧ last.token = .endOfText ∧ last.piece = [] ∧
    ∀ x ∈ init, x.piece ≠ []
  /-- Every lexeme before the end is read from its piece. -/
  reads : ∀ before x after, found = before ++ x :: after → after ≠ [] →
    Reads x.token x.piece (textOf after)
  /-- Lines and columns count the line breaks before a piece, and the characters between the last
  of them and the piece. -/
  position : ∀ before x after, found = before ++ x :: after →
    x.position.line.toNat = (textOf before).count '\n' + 1 ∧
      x.position.column.toNat = sinceLine (textOf before) + 1

/-- Lexemes that are read one after the other, up to the end, are found. -/
theorem eq_lexemesFrom
    (hlast : ∃ init last, found = init ++ [last] ∧ last.token = .endOfText ∧ last.piece = [])
    (hreads : ∀ before x after, found = before ++ x :: after → after ≠ [] →
      Reads x.token x.piece (textOf after))
    (hposition : ∀ before x after, found = before ++ x :: after →
      x.position = p.after (textOf before)) :
    found = lexemesFrom p (textOf found) := by
  induction found generalizing p with
  | nil =>
    obtain ⟨init, last, hfound, _⟩ := hlast
    simp at hfound
  | cons x rest ih =>
    have hfirst : x.position = p := hposition [] x rest rfl
    obtain ⟨init, last, hfound, htoken, hpiece⟩ := hlast
    cases init with
    | nil =>
      obtain ⟨rfl, rfl⟩ := List.cons.inj hfound
      obtain ⟨token, piece, position⟩ := x
      cases htoken
      cases hpiece
      cases hfirst
      simp [lexemesFrom]
    | cons y init =>
      obtain ⟨rfl, hrest⟩ := List.cons.inj hfound
      have hread := hreads [] x rest rfl (by simp [hrest])
      rw [textOf_cons, hread.lexemesFrom_eq]
      congr 1
      · rw [← hfirst]
      · refine ih ⟨init, last, hrest, htoken, hpiece⟩ (fun before y after hsplit => ?_)
          fun before y after hsplit => ?_
        · exact hreads (x :: before) y after (congrArg (x :: ·) hsplit)
        · have hnext := hposition (x :: before) y after (congrArg (x :: ·) hsplit)
          rwa [textOf_cons, Position.after_append] at hnext

end Runs

/-- The lexemes of a text are exactly those that it consists of, if its lines and columns can be
counted in 32 bits, as they can in every text of fewer than `2 ^ 32 - 1` characters. -/
theorem lexes_iff_eq_lexemes (text : String) (hfits : PositionsFit text) (found : List Lexeme) :
    Lexes text.toList found ↔ found = lexemes text := by
  have hfront {before after : List Lexeme} {x : Lexeme} (hpieces : textOf found = text.toList)
      (hsplit : found = before ++ x :: after) : textOf before <+: text.toList := by
    rw [← hpieces, hsplit, textOf_append]
    exact List.prefix_append _ _
  constructor
  · intro h
    obtain ⟨init, last, hfound, htoken, hpiece, _⟩ := h.progress
    rw [lexemes, ← h.pieces]
    refine eq_lexemesFrom ⟨init, last, hfound, htoken, hpiece⟩ h.reads ?_
    intro before x after hsplit
    obtain ⟨hline, hcolumn⟩ := h.position before x after hsplit
    obtain ⟨hlines, hcolumns⟩ := hfits.toNat_after (hfront h.pieces hsplit)
    exact Position.ext (UInt32.toNat_inj.mp (hline.trans hlines.symm))
      (UInt32.toNat_inj.mp (hcolumn.trans hcolumns.symm))
  · rintro rfl
    have hpieces : textOf (lexemes text) = text.toList := textOf_lexemesFrom _ _
    obtain ⟨init, hinit, hne⟩ := exists_lexemesFrom_eq {} text.toList
    refine ⟨hpieces, ⟨init, _, hinit, rfl, rfl, hne⟩,
      fun before x after hsplit => (reads_of_lexemesFrom_eq _ hsplit).2,
      fun before x after hsplit => ?_⟩
    rw [(reads_of_lexemesFrom_eq _ hsplit).1]
    exact hfits.toNat_after (hfront hpieces hsplit)

/-- An arrow ends a name even after characters that look like one, and a comment holds anything up
to the end of its line. -/
theorem lexes_overlapping :
    Lexes "a:::=b\n# ;|".toList
      [⟨.ident "a:", ['a', ':'], ⟨1, 1⟩⟩, ⟨.arrow, [':', ':', '='], ⟨1, 3⟩⟩,
        ⟨.ident "b", ['b'], ⟨1, 6⟩⟩, ⟨.newline, ['\n'], ⟨1, 7⟩⟩,
        ⟨.comment, ['#', ' ', ';', '|'], ⟨2, 1⟩⟩, ⟨.endOfText, [], ⟨2, 5⟩⟩] :=
  (lexes_iff_eq_lexemes _ (fitsCounters_of_length (by decide)).toPositionsFit _).mpr
    (by decide +kernel)

end Chomsky.Bnf
