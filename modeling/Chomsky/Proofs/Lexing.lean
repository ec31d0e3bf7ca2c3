import Chomsky.Bnf.Lexer

/-!
# Tokens and names

Which tokens a text has does not depend on the position at which it starts. A
name that was read once is read again as the same name wherever a character that
ends names follows, although an arrow ends a name as well: no arrow starts inside
the name, and none can be completed by a character that ends names.
-/

namespace Chomsky.Bnf

open Text (isBlank isControl)

variable {c d : Char} {cs rest tail : List Char} {name : String}

/-- The tokens of a text from left to right, up to the end of the text. -/
def tokensOf (cs : List Char) : List Token := (lexemesFrom {} cs).map Lexeme.token

/-- Tokens do not depend on the position of the text. -/
theorem map_token_lexemesFrom (p q : Position) (cs : List Char) :
    (lexemesFrom p cs).map Lexeme.token = (lexemesFrom q cs).map Lexeme.token := by
  fun_induction lexemesFrom p cs generalizing q with
  | case1 => simp [lexemesFrom]
  | case2 p c rest token more hfirst piece ih =>
    rw [lexemesFrom, hfirst]
    simp [ih (q.after piece), piece]

/-- The empty text has only its end as a token. -/
@[simp]
theorem tokensOf_nil : tokensOf [] = [.endOfText] := by
  simp [tokensOf, lexemesFrom]

private theorem tokensOf_cons (c : Char) (rest : List Char) :
    tokensOf (c :: rest) = (firstToken c rest).1 :: tokensOf (rest.drop (firstToken c rest).2) := by
  rw [tokensOf, lexemesFrom]
  simp [tokensOf, map_token_lexemesFrom _ {}]

/-- What holds of the empty text, and of a text if it holds of what follows its first token, holds
of every text. -/
@[elab_as_elim]
theorem tokensOf_induction {motive : List Char → Prop} (nil : motive [])
    (cons : ∀ c rest, motive (rest.drop (firstToken c rest).2) → motive (c :: rest)) :
    ∀ cs, motive cs
  | [] => nil
  | c :: rest => cons c rest (tokensOf_induction nil cons (rest.drop (firstToken c rest).2))
termination_by cs => cs.length
decreasing_by
  simp only [List.length_drop, List.length_cons]
  omega

/-- The end of the text is the last token. -/
theorem getLast?_tokensOf (cs : List Char) : (tokensOf cs).getLast? = some .endOfText := by
  induction cs using tokensOf_induction with
  | nil => simp
  | cons c rest ih => rw [tokensOf_cons, List.getLast?_cons, ih, Option.getD_some]

/-- Every token but the last takes a character. -/
theorem length_tokensOf_le (cs : List Char) : (tokensOf cs).length ≤ cs.length + 1 := by
  induction cs using tokensOf_induction with
  | nil => simp
  | cons c rest ih =>
    rw [List.length_drop] at ih
    rw [tokensOf_cons, List.length_cons, List.length_cons]
    omega

/-- A control token stands for a control character of the text that is no blank. -/
theorem mem_of_control_mem_tokensOf (h : .control d ∈ tokensOf cs) :
    d ∈ cs ∧ isControl d = true ∧ isBlank d = false := by
  induction cs using tokensOf_induction with
  | nil => simp at h
  | cons c rest ih =>
    rw [tokensOf_cons, List.mem_cons] at h
    rcases h with hfirst | hrest
    · unfold firstToken at hfirst
      repeat' split at hfirst
      all_goals simp_all
    · obtain ⟨hmem, hd⟩ := ih hrest
      exact ⟨List.mem_cons_of_mem _ (List.mem_of_mem_drop hmem), hd⟩

/-! ## Names -/

/-- A name of a symbol as it stands in a text: the reading of names stops only at its end. -/
structure IsName (name : String) : Prop where
  ne_nil : name.toList ≠ []
  whole : nameLength name.toList = name.toList.length

/-- What follows an arrow does not matter. -/
theorem arrowLength_append (h : arrowLength cs ≠ 0) (tail : List Char) :
    arrowLength (cs ++ tail) = arrowLength cs := by
  fun_cases arrowLength cs <;> simp_all [arrowLength]

/-- A character that ends names completes no arrow. -/
theorem arrowLength_append_cons (hne : cs ≠ []) (hd : endsName d = true) (tail : List Char) :
    arrowLength (cs ++ d :: tail) = arrowLength cs := by
  by_cases harrow : arrowLength cs = 0
  · have hcolon : d ≠ ':' := by rintro rfl; revert hd; decide
    have hequals : d ≠ '=' := by rintro rfl; revert hd; decide
    have hgreater : d ≠ '>' := by rintro rfl; revert hd; decide
    rw [harrow, arrowLength.eq_def]
    -- The new character would stand at the second or third place of the arrow.
    split
    · rcases cs with _ | ⟨a, _ | ⟨b, _ | ⟨e, cs⟩⟩⟩ <;> simp_all [arrowLength]
    · rcases cs with _ | ⟨a, _ | ⟨b, cs⟩⟩ <;> simp_all [arrowLength]
    · rcases cs with _ | ⟨a, cs⟩ <;> simp_all [arrowLength]
    · rfl
  · exact arrowLength_append harrow _

private theorem nameLength_le (cs : List Char) : nameLength cs ≤ cs.length := by
  fun_induction nameLength cs with
  | case1 => simp
  | case2 => simp
  | case3 c rest _ ih => simpa using ih

/-- A text that is read as a name to its end has no end of a name and no arrow at its start. -/
theorem whole_cons (hwhole : nameLength (c :: rest) = (c :: rest).length) :
    endsName c = false ∧ arrowLength (c :: rest) = 0 ∧ nameLength rest = rest.length := by
  rw [nameLength] at hwhole
  split at hwhole
  · simp at hwhole
  · rename_i hgoes
    simp only [Bool.or_eq_true, bne_iff_ne, not_or, ne_eq, Decidable.not_not,
      Bool.not_eq_true] at hgoes
    exact ⟨hgoes.1, hgoes.2, Nat.add_right_cancel hwhole⟩

/-- The part by which a name goes on is read again to its end. -/
theorem nameLength_take (cs : List Char) :
    nameLength (cs.take (nameLength cs)) = nameLength cs := by
  fun_induction nameLength cs with
  | case1 => simp [nameLength]
  | case2 => simp [nameLength]
  | case3 c rest hgoes ih =>
    simp only [Bool.or_eq_true, bne_iff_ne, not_or, ne_eq, Decidable.not_not] at hgoes
    have harrow : arrowLength (c :: rest.take (nameLength rest)) = 0 := by
      refine Decidable.byContradiction fun hne => ?_
      have hwhole := arrowLength_append hne (rest.drop (nameLength rest))
      rw [List.cons_append, List.take_append_drop, hgoes.2] at hwhole
      exact hne hwhole.symm
    rw [List.take_succ_cons, nameLength, ih]
    simp [hgoes.1, harrow]

/-- A text that is read as a name to its end is read so before any character that ends names. -/
theorem nameLength_append_cons (hwhole : nameLength cs = cs.length) (hd : endsName d = true)
    (tail : List Char) : nameLength (cs ++ d :: tail) = cs.length := by
  induction cs with
  | nil => simp [nameLength, hd]
  | cons c rest ih =>
    obtain ⟨hc, hstart, hrest⟩ := whole_cons hwhole
    have harrow := arrowLength_append_cons (List.cons_ne_nil c rest) hd tail
    rw [List.cons_append, hstart] at harrow
    simp [nameLength, hc, harrow, ih hrest]

/-- A name starts wherever no arrow and no character that ends names stands. -/
theorem firstToken_name (hc : endsName c = false) (harrow : arrowLength (c :: rest) = 0) :
    firstToken c rest =
      (.ident (String.ofList (c :: rest.take (nameLength rest))), nameLength rest) := by
  simp only [endsName, Bool.or_eq_false_iff, beq_eq_false_iff_ne] at hc
  obtain ⟨⟨⟨⟨hblank, hcontrol⟩, hsemicolon⟩, hbar⟩, hsharp⟩ := hc
  have hline : c ≠ '\n' := by rintro rfl; revert hblank; decide
  simp [firstToken, harrow, hblank, hcontrol, hsemicolon, hbar, hsharp, hline]

private theorem firstToken_eq_ident (h : (firstToken c rest).1 = .ident name) :
    endsName c = false ∧ arrowLength (c :: rest) = 0 := by
  unfold firstToken at h
  repeat' split at h
  all_goals simp_all [endsName]

/-- Every name among the tokens is a name of a symbol. -/
theorem isName_of_firstToken (h : (firstToken c rest).1 = .ident name) : IsName name := by
  obtain ⟨hc, harrow⟩ := firstToken_eq_ident h
  have hlength : nameLength (c :: rest) = nameLength rest + 1 := by
    simp [nameLength, hc, harrow]
  rw [firstToken_name hc harrow] at h
  cases h
  rw [← List.take_succ_cons, ← hlength]
  refine ⟨?_, ?_⟩
  · simp [hlength]
  · rw [String.toList_ofList, nameLength_take, List.length_take, Nat.min_eq_left (nameLength_le _)]

/-- The names among the tokens of a text are names of symbols. -/
theorem isName_of_mem_tokensOf (h : .ident name ∈ tokensOf cs) : IsName name := by
  induction cs using tokensOf_induction with
  | nil => simp at h
  | cons c rest ih =>
    rw [tokensOf_cons, List.mem_cons] at h
    rcases h with hfirst | hrest
    · exact isName_of_firstToken hfirst.symm
    · exact ih hrest

/-- The names among the tokens of a text are no longer than the text. -/
theorem length_le_of_ident_mem_tokensOf (h : .ident name ∈ tokensOf cs) :
    name.length ≤ cs.length := by
  induction cs using tokensOf_induction with
  | nil => simp at h
  | cons c rest ih =>
    rw [tokensOf_cons, List.mem_cons] at h
    rcases h with hfirst | hrest
    · obtain ⟨hc, harrow⟩ := firstToken_eq_ident hfirst.symm
      rw [firstToken_name hc harrow] at hfirst
      cases hfirst
      rw [String.length_ofList, List.length_cons, List.length_cons]
      exact Nat.succ_le_succ (List.length_take_le' _ _)
    · have hle := ih hrest
      rw [List.length_drop] at hle
      rw [List.length_cons]
      omega

/-- Before a character that ends names, a name is read as one token. -/
theorem tokensOf_name (hname : IsName name) (hd : endsName d = true) (tail : List Char) :
    tokensOf (name.toList ++ d :: tail) = .ident name :: tokensOf (d :: tail) := by
  obtain ⟨c, rest, hcs⟩ := List.exists_cons_of_ne_nil hname.ne_nil
  obtain ⟨hc, hstart, hrest⟩ := whole_cons (hcs ▸ hname.whole)
  have harrow := arrowLength_append_cons (List.cons_ne_nil c rest) hd tail
  rw [List.cons_append, hstart] at harrow
  rw [hcs, List.cons_append, tokensOf_cons, firstToken_name hc harrow,
    nameLength_append_cons hrest hd, List.take_left, List.drop_left, ← hcs, String.ofList_toList]

/-- A space is a blank. -/
@[simp]
theorem tokensOf_space (tail : List Char) : tokensOf (' ' :: tail) = .blank :: tokensOf tail := by
  rw [tokensOf_cons]
  rfl

/-- A line feed is a line break. -/
@[simp]
theorem tokensOf_newline (tail : List Char) :
    tokensOf ('\n' :: tail) = .newline :: tokensOf tail := by
  rw [tokensOf_cons]
  rfl

/-- A vertical line is a bar. -/
@[simp]
theorem tokensOf_bar (tail : List Char) : tokensOf ('|' :: tail) = .bar :: tokensOf tail := by
  rw [tokensOf_cons]
  rfl

/-- The arrow character is an arrow. -/
@[simp]
theorem tokensOf_arrow (tail : List Char) : tokensOf ('→' :: tail) = .arrow :: tokensOf tail := by
  rw [tokensOf_cons]
  rfl

/-! ## Names as words -/

private theorem pieces_ne_nil (cs : List Char) : Text.pieces cs ≠ [] := by
  fun_cases Text.pieces cs with
  | case1 => simp
  | case2 => simp
  | case3 c rest => cases h : Text.pieces rest <;> simp [Text.consFirst]

/-- A blank separates the pieces on its two sides. -/
theorem pieces_append_cons (hd : isBlank d = true) (cs tail : List Char) :
    Text.pieces (cs ++ d :: tail) = Text.pieces cs ++ Text.pieces tail := by
  induction cs with
  | nil => simp [Text.pieces, hd]
  | cons c rest ih =>
    rw [List.cons_append, Text.pieces, Text.pieces, ih]
    split
    · rfl
    · obtain ⟨word, others, hpieces⟩ := List.exists_cons_of_ne_nil (pieces_ne_nil rest)
      simp [hpieces, Text.consFirst]

private theorem pieces_of_not_isBlank (h : ∀ c ∈ cs, isBlank c = false) :
    Text.pieces cs = [cs] := by
  induction cs with
  | nil => rfl
  | cons c rest ih =>
    rw [Text.pieces, ih fun other hother => h other (List.mem_cons_of_mem _ hother)]
    simp [h c List.mem_cons_self, Text.consFirst]

private theorem words_append_space (first rest : String) :
    Text.words (first ++ " " ++ rest) = Text.words first ++ Text.words rest := by
  have hspace : (first ++ " " ++ rest).toList = first.toList ++ ' ' :: rest.toList := by simp
  rw [Text.words, hspace, pieces_append_cons (by decide), List.filter_append, List.map_append]
  rfl

/-- A text that is read as a name to its end has no character that ends names. -/
theorem not_endsName_of_whole (hwhole : nameLength cs = cs.length) :
    ∀ c ∈ cs, endsName c = false := by
  induction cs with
  | nil => simp
  | cons c rest ih =>
    obtain ⟨hc, -, hrest⟩ := whole_cons hwhole
    exact List.forall_mem_cons.2 ⟨hc, ih hrest⟩

/-- A name is one word. -/
theorem IsName.words_eq (h : IsName name) : Text.words name = [name] := by
  have hblank : ∀ c ∈ name.toList, isBlank c = false := by
    intro c hc
    have hends := not_endsName_of_whole h.whole c hc
    simp only [endsName, Bool.or_eq_false_iff] at hends
    exact hends.1.1.1.1
  simp [Text.words, pieces_of_not_isBlank hblank, h.ne_nil]

/-- Names joined by spaces are told apart again. -/
theorem words_intercalate {names : List String} (h : ∀ name ∈ names, IsName name) :
    Text.words (" ".intercalate names) = names := by
  induction names with
  | nil => rfl
  | cons name rest ih =>
    have hname := h name List.mem_cons_self
    have hrest := ih fun other hother => h other (List.mem_cons_of_mem _ hother)
    cases rest with
    | nil => simpa using hname.words_eq
    | cons other others =>
      rw [String.intercalate_cons_cons, words_append_space, hname.words_eq, hrest]
      rfl

end Chomsky.Bnf
