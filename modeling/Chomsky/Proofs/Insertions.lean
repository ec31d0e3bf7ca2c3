import Chomsky.Proofs.Lexemes
import Chomsky.Proofs.Reading
import Mathlib.Data.List.Sigma
import Mathlib.Logic.Relation

/-!
# Insertions that only change the layout

Between any two lexemes a blank can be inserted, before the end of a line a comment,
next to a bar a line break, and after a stop that ended a rule one more stop. The
lexemes around the place are read as before: no name goes on over what was inserted,
and no arrow is completed by it. Only a comment before the place takes it up. A
lexeme that was inserted is not marked, and no line break before it sees any
difference ahead, so that all marks are as before. What was read from a text is
therefore also read after any number of insertions.
-/

namespace Chomsky.Bnf

open Text (isBlank)

variable {c d : Char} {cs piece inserted following old : List Char} {token : Token} {p : Position}
  {before after found : List Lexeme} {x next : Lexeme} {text text' : String}

/-! ### Texts read again -/

/-- What was read from a piece is an arrow if an arrow stands there. -/
theorem Reads.startsArrow (h : Reads token piece following)
    (harrow : StartsArrow (piece ++ following)) : StartsArrow piece := by
  have hends {c : Char} (hc : endsName c = true) (tail : List Char) : ¬StartsArrow (c :: tail) :=
    arrowLength_eq_zero_iff.mp (arrowLength_of_endsName hc tail)
  cases h with
  | arrow hpiece => exact ⟨piece, hpiece, List.prefix_rfl⟩
  | ident hne _ hnone => exact absurd harrow (hnone _ hne List.suffix_rfl)
  | semicolon => exact absurd harrow (hends (by decide) _)
  | bar => exact absurd harrow (hends (by decide) _)
  | newline => exact absurd harrow (hends (by decide) _)
  | comment => exact absurd harrow (hends (by decide) _)
  | blank hblank => exact absurd harrow (hends (by simp [endsName, hblank]) _)
  | control hcontrol => exact absurd harrow (hends (by simp [endsName, hcontrol]) _)

/-- A piece is read as before if a character that ends names comes at a later place, unless an
arrow reached over this place. A comment that ended there needs a line break. -/
theorem Reads.of_change (h : Reads token piece (cs ++ old)) (hd : endsName d = true)
    (harrow : StartsArrow (cs ++ old) → cs = [] ∨ StartsArrow cs)
    (hcomment : token = .comment → cs = [] → d = '\n') (tail : List Char) :
    Reads token piece (cs ++ d :: tail) := by
  generalize hfollowing : cs ++ old = following at h
  cases h with
  | arrow hpiece => exact Reads.arrow hpiece
  | semicolon => exact Reads.semicolon
  | bar => exact Reads.bar
  | newline => exact Reads.newline
  | blank hblank hline => exact Reads.blank hblank hline
  | control hcontrol hblank => exact Reads.control hcontrol hblank
  | comment hbody hend =>
    refine Reads.comment hbody ?_
    subst hfollowing
    cases cs with
    | nil => simpa using hcomment rfl rfl
    | cons c rest => exact hend
  | ident hne hchars hnone hend =>
    subst hfollowing
    refine Reads.ident hne hchars (fun suffix hsuffix hmem => ?_) ?_
    · -- An arrow after the change would have stood there before it.
      rw [← List.append_assoc, ← arrowLength_eq_zero_iff,
        arrowLength_append_cons (by simp [hsuffix]) hd, arrowLength_eq_zero_iff]
      intro hstarts
      refine hnone suffix hsuffix hmem ?_
      rw [← List.append_assoc]
      exact startsArrow_append hstarts old
    · cases cs with
      | nil => exact Or.inl (by simpa using hd)
      | cons c rest =>
        refine hend.imp id fun hstarts => ?_
        exact startsArrow_append ((harrow hstarts).resolve_left (List.cons_ne_nil _ _)) _

/-- Lexemes before a place are read again as the same tokens if a character that ends names comes
there. -/
theorem tokensOf_textOf_append (hsplit : lexemesFrom p cs = before ++ next :: after)
    (hd : endsName d = true) (hcomment : ∀ x ∈ before.getLast?, x.token = .comment → d = '\n')
    (tail : List Char) :
    tokensOf (textOf before ++ d :: tail) = before.map Lexeme.token ++ tokensOf (d :: tail) := by
  induction before generalizing p cs with
  | nil => rfl
  | cons x rest ih =>
    have hfirst : lexemesFrom p cs = [] ++ x :: (rest ++ next :: after) := hsplit
    have hread := (reads_of_lexemesFrom_eq cs hfirst).2 (by simp)
    have hrest : lexemesFrom (p.after (textOf [x])) (textOf (rest ++ next :: after)) =
        rest ++ next :: after := lexemesFrom_of_append cs hsplit (by simp)
    rw [textOf_append] at hread
    -- An arrow that ended this lexeme is a lexeme of its own, and stays where it is.
    have hagain : Reads x.token x.piece (textOf rest ++ d :: tail) := by
      cases rest with
      | nil =>
        exact hread.of_change hd (fun _ => Or.inl rfl) (fun htoken _ => hcomment x rfl htoken) tail
      | cons y rest =>
        have hfirst : _ = [] ++ y :: (rest ++ next :: after) := hrest
        have hsecond := (reads_of_lexemesFrom_eq _ hfirst).2 (by simp)
        refine hread.of_change hd (fun hstarts => Or.inr ?_) (fun _ hnil => ?_) tail
        · rw [← textOf_append, List.cons_append, textOf_cons] at hstarts
          exact startsArrow_append (hsecond.startsArrow hstarts) _
        · exact absurd (List.append_eq_nil_iff.mp hnil).1 hsecond.ne_nil
    have hlast : ∀ y ∈ rest.getLast?, y.token = .comment → d = '\n' := by
      intro y hy
      refine hcomment y ?_
      rw [List.getLast?_cons, Option.mem_def.mp hy]
      rfl
    rw [textOf_cons, List.append_assoc, hagain.tokensOf_eq, ih hrest hlast]
    rfl

private theorem tokensOf_textOf (hsplit : lexemesFrom p cs = before ++ after) (hne : after ≠ []) :
    tokensOf (textOf after) = after.map Lexeme.token := by
  rw [tokensOf, map_token_lexemesFrom {} (p.after (textOf before)),
    lexemesFrom_of_append cs hsplit hne]

/-- A piece that starts with a character that ends names is read as one more token between the
others. -/
theorem tokensOf_insert (hsplit : lexemesFrom p cs = before ++ next :: after)
    (hread : Reads token (d :: inserted) (textOf (next :: after))) (hd : endsName d = true)
    (hcomment : ∀ x ∈ before.getLast?, x.token = .comment → d = '\n') :
    tokensOf (textOf before ++ d :: inserted ++ textOf (next :: after)) =
      before.map Lexeme.token ++ token :: (next :: after).map Lexeme.token := by
  rw [List.append_assoc, List.cons_append, tokensOf_textOf_append hsplit hd hcomment,
    ← List.cons_append, hread.tokensOf_eq, tokensOf_textOf hsplit (List.cons_ne_nil _ _)]

private theorem Reads.eq_comment (h : Reads .comment piece following) :
    ∃ body, piece = '#' :: body ∧ '\n' ∉ body ∧ ∀ c ∈ following.head?, c = '\n' := by
  cases h with
  | comment hbody hend => exact ⟨_, rfl, hbody, hend⟩

/-- What is inserted after a comment without a line break belongs to the comment. -/
theorem tokensOf_insert_comment (hsplit : lexemesFrom p cs = before ++ x :: next :: after)
    (hx : x.token = .comment) (hline : '\n' ∉ inserted) :
    tokensOf (textOf (before ++ [x]) ++ inserted ++ textOf (next :: after)) =
      (before ++ x :: next :: after).map Lexeme.token := by
  have hread := (reads_of_lexemesFrom_eq cs hsplit).2 (List.cons_ne_nil _ _)
  rw [hx] at hread
  obtain ⟨body, hpiece, hbody, hend⟩ := hread.eq_comment
  have hnone : ∀ y ∈ before.getLast?, y.token = .comment → '#' = '\n' := by
    intro y hy htoken
    obtain ⟨init, rfl⟩ := List.getLast?_eq_some_iff.mp (Option.mem_def.mp hy)
    rw [List.append_assoc] at hsplit
    have hprevious := (reads_of_lexemesFrom_eq cs hsplit).2 (by simp)
    rw [htoken] at hprevious
    obtain ⟨_, _, _, hstop⟩ := hprevious.eq_comment
    exact hstop '#' (by simp [hpiece])
  have hagain : Reads .comment ('#' :: (body ++ inserted)) (textOf (next :: after)) :=
    Reads.comment (by simp [hbody, hline]) hend
  have hrest : lexemesFrom p cs = (before ++ [x]) ++ next :: after := by simpa using hsplit
  rw [textOf_append, textOf_cons, hpiece, textOf_nil, List.append_nil, List.append_assoc,
    List.append_assoc, List.cons_append, tokensOf_textOf_append hsplit (by decide) hnone,
    ← List.append_assoc, ← List.cons_append, hagain.tokensOf_eq,
    tokensOf_textOf hrest (List.cons_ne_nil _ _), List.map_append, List.map_cons, List.map_cons,
    List.map_cons, hx]

/-- The text ends a line before a line break, and at its end. -/
theorem head?_textOf (hsplit : lexemesFrom p cs = before ++ next :: after)
    (hnext : next.token = .newline ∨ next.token = .endOfText) :
    ∀ c ∈ (textOf (next :: after)).head?, c = '\n' := by
  by_cases hafter : after = []
  · obtain ⟨init, hinit, _⟩ := exists_lexemesFrom_eq p cs
    rw [hsplit, hafter] at hinit
    obtain ⟨_, rfl⟩ := List.append_inj_right' hinit rfl
    simp [hafter]
  · have hread := (reads_of_lexemesFrom_eq cs hsplit).2 hafter
    have hnewline := hnext.resolve_right hread.ne_endOfText
    rw [hnewline] at hread
    generalize hpiece : next.piece = piece at hread
    cases hread
    simp [hpiece]

/-! ### Marks with a lexeme more -/

section Marks

variable {last : Option Terminal} {before after rest others : List (Lexeme × Nat)}
  {x extra next : Lexeme × Nat}

/-- The look-ahead of a line break passes over another one. -/
theorem continues_newline (hx : x.1.token = .newline) (rest : List (Lexeme × Nat)) :
    continues (x :: rest) = continues rest := by
  simp [continues, isSpacing, hx]

/-- The look-ahead of a line break ends at a semicolon. -/
theorem continues_semicolon (hx : x.1.token = .semicolon) (rest : List (Lexeme × Nat)) :
    continues (x :: rest) = false := by
  simp [continues, isSpacing, hx]

/-- The look-ahead of a line break finds a bar. -/
theorem continues_bar (hx : x.1.token = .bar) (rest : List (Lexeme × Nat)) :
    continues (x :: rest) = true := by
  simp [continues, isSpacing, hx]

/-- What looks the same from a line break looks the same from one before it. -/
theorem continues_append (h : continues rest = continues others) (before : List (Lexeme × Nat)) :
    continues (before ++ rest) = continues (before ++ others) := by
  simp only [continues, List.find?_append] at h ⊢
  cases before.find? fun numbered => !isSpacing numbered.1.token with
  | none => exact h
  | some numbered => rfl

/-- Of the lexemes after it a mark depends only on what a line break looks for. -/
theorem markOf_congr (h : continues rest = continues others) :
    markOf last token rest = markOf last token others := by
  unfold markOf
  rw [h]

/-- The mark of the first lexeme, if it has one, comes before the marks of the others. -/
theorem exists_marksFrom_cons (last : Option Terminal) (x : Lexeme × Nat) (mark? : Option Mark) :
    ∃ front middle, (∀ placed ∈ front, (placed.lexeme, placed.place) = x) ∧
      ∀ rest, markOf last x.1.token rest = mark? →
        marksFrom last (x :: rest) = front ++ marksFrom middle rest := by
  obtain ⟨lexeme, place⟩ := x
  rcases mark? with _ | kind | c
  · exact ⟨[], last, by simp, fun rest h => by rw [marksFrom, h]; rfl⟩
  · exact ⟨[⟨.sign kind, lexeme, place⟩], some kind, by simp,
      fun rest h => by rw [marksFrom, h]; rfl⟩
  · exact ⟨[⟨.control c, lexeme, place⟩], last, by simp,
      fun rest h => by rw [marksFrom, h]; rfl⟩

/-- The marks of lexemes are marks of the first of them and then those of the others, whatever
these are as long as they look the same from a line break. -/
theorem exists_marksFrom_append (last : Option Terminal) (before rest : List (Lexeme × Nat)) :
    ∃ front middle, (∀ placed ∈ front, (placed.lexeme, placed.place) ∈ before) ∧
      ∀ others, continues others = continues rest →
        marksFrom last (before ++ others) = front ++ marksFrom middle others := by
  induction before generalizing last with
  | nil => exact ⟨[], last, by simp, fun others _ => rfl⟩
  | cons x before ih =>
    obtain ⟨first, next, hfirst, hstep⟩ :=
      exists_marksFrom_cons last x (markOf last x.1.token (before ++ rest))
    obtain ⟨front, middle, hfront, hrun⟩ := ih next
    refine ⟨first ++ front, middle, fun placed hplaced => ?_, fun others h => ?_⟩
    · rcases List.mem_append.mp hplaced with hmem | hmem
      · exact List.mem_cons.mpr (Or.inl (hfirst placed hmem))
      · exact List.mem_cons_of_mem _ (hfront placed hmem)
    · rw [List.cons_append, hstep _ (markOf_congr (continues_append h before)), hrun others h,
        List.append_assoc]

/-- Lexemes that look the same from a line break and have the same marks can be exchanged. -/
theorem marksFrom_append_congr (hcontinues : continues rest = continues others)
    (hmarks : ∀ last, marksFrom last rest = marksFrom last others) (last : Option Terminal)
    (before : List (Lexeme × Nat)) :
    marksFrom last (before ++ rest) = marksFrom last (before ++ others) := by
  obtain ⟨front, middle, _, hrun⟩ := exists_marksFrom_append last before others
  rw [hrun rest hcontinues, hrun others rfl, hmarks]

/-- A blank or a comment more makes no difference. -/
theorem marksFrom_insert_invisible (hextra : isVisible extra.1.token = false)
    (last : Option Terminal) (before rest : List (Lexeme × Nat)) :
    marksFrom last (before ++ extra :: rest) = marksFrom last (before ++ rest) := by
  obtain ⟨⟨token, piece, position⟩, place⟩ := extra
  cases token <;> cases hextra
  all_goals refine marksFrom_append_congr ?_ (fun last => ?_) last before <;> rfl

/-- A line break before a bar makes no difference. -/
theorem marksFrom_insert_before_bar (hextra : extra.1.token = .newline)
    (hnext : next.1.token = .bar) (last : Option Terminal) (before after : List (Lexeme × Nat)) :
    marksFrom last (before ++ extra :: next :: after) =
      marksFrom last (before ++ next :: after) := by
  refine marksFrom_append_congr (continues_newline hextra _) (fun last => ?_) last before
  simp [marksFrom, markOf, hextra, continues_bar hnext]

/-- A line break after a bar makes no difference. -/
theorem marksFrom_insert_after_bar (hextra : extra.1.token = .newline) (hx : x.1.token = .bar)
    (last : Option Terminal) (before after : List (Lexeme × Nat)) :
    marksFrom last (before ++ x :: extra :: after) = marksFrom last (before ++ x :: after) := by
  refine marksFrom_append_congr ?_ (fun last => ?_) last before
  · rw [continues_bar hx, continues_bar hx]
  · simp [marksFrom, markOf, hextra, hx]

/-- A line break or a semicolon that is marked is a stop. -/
theorem markOf_of_mem_marksFrom (hx : x.1.token = .newline ∨ x.1.token = .semicolon)
    (hmem : x ∉ rest) {mark : Mark} (hends : ⟨mark, x.1, x.2⟩ ∈ marksFrom last (x :: rest)) :
    markOf last x.1.token rest = some (.sign .stop) := by
  have hcases : markOf last x.1.token rest = none ∨
      markOf last x.1.token rest = some (.sign .stop) := by
    rcases hx with hx | hx <;> simp only [hx, markOf] <;> split <;> simp
  refine hcases.resolve_left fun hnone => ?_
  rw [marksFrom, hnone] at hends
  exact hmem (of_mem_marksFrom hends).1

/-- A stop ends the rule also if a line break or a semicolon comes next: neither is a bar. -/
theorem markOf_stop_cons (hx : x.1.token = .newline ∨ x.1.token = .semicolon)
    (hextra : extra.1.token = .newline ∨ extra.1.token = .semicolon)
    (hmark : markOf last x.1.token rest = some (.sign .stop)) :
    continues (x :: extra :: rest) = continues (x :: rest) ∧
      markOf last x.1.token (extra :: rest) = some (.sign .stop) := by
  rcases hx with hx | hx
  · have hend : continues rest = false := by
      rw [hx, markOf] at hmark
      simp_all
    have hahead : continues (extra :: rest) = continues rest := by
      rcases hextra with hextra | hextra
      · exact continues_newline hextra rest
      · rw [continues_semicolon hextra, hend]
    refine ⟨?_, (markOf_congr hahead).trans hmark⟩
    rw [continues_newline hx, continues_newline hx, hahead]
  · refine ⟨?_, ?_⟩
    · rw [continues_semicolon hx, continues_semicolon hx]
    · rw [hx] at hmark ⊢
      exact hmark

/-- A line break or a semicolon after a stop that ended a rule makes no difference. -/
theorem marksFrom_insert_after_stop (hx : x.1.token = .newline ∨ x.1.token = .semicolon)
    (hextra : extra.1.token = .newline ∨ extra.1.token = .semicolon)
    (hends : ⟨.sign .stop, x.1, x.2⟩ ∈ marksFrom last (before ++ x :: after))
    (hnodup : (before ++ x :: after).Nodup) :
    marksFrom last (before ++ x :: extra :: after) = marksFrom last (before ++ x :: after) := by
  -- No other lexeme has the same number, so the mark was made at this place.
  have hsingle : x ∉ before ++ after := (List.nodup_cons.mp (List.nodup_middle.mp hnodup)).1
  rw [List.mem_append, not_or] at hsingle
  obtain ⟨front, middle, hfront, hrun⟩ := exists_marksFrom_append last before (x :: after)
  have hstop : ⟨.sign .stop, x.1, x.2⟩ ∈ marksFrom middle (x :: after) := by
    rw [hrun _ rfl, List.mem_append] at hends
    exact hends.resolve_left fun hmem => hsingle.1 (hfront _ hmem)
  have hmark := markOf_of_mem_marksFrom hx hsingle.2 hstop
  obtain ⟨hsame, hagain⟩ := markOf_stop_cons hx hextra hmark
  have hidle : marksFrom (some .stop) (extra :: after) = marksFrom (some .stop) after := by
    rcases hextra with hextra | hextra <;> simp [marksFrom, markOf, isIdle, hextra]
  have hstep {rest : List (Lexeme × Nat)}
      (h : markOf middle x.1.token rest = some (.sign .stop)) :
      marksFrom middle (x :: rest) = ⟨.sign .stop, x.1, x.2⟩ :: marksFrom (some .stop) rest := by
    rw [marksFrom, h]
  rw [hrun _ hsame, hrun _ rfl, hstep hagain, hstep hmark, hidle]

/-- Which tokens are marked depends only on the tokens. -/
theorem map_token_marksFrom_congr
    (h : rest.map (fun x => x.1.token) = others.map fun x => x.1.token) (last : Option Terminal) :
    (marksFrom last rest).map (fun placed => placed.lexeme.token) =
      (marksFrom last others).map fun placed => placed.lexeme.token := by
  induction rest generalizing others last with
  | nil =>
    obtain rfl : others = [] := by simpa using h.symm
    rfl
  | cons x rest ih =>
    obtain ⟨y, others, rfl, hfirst, hrest⟩ := List.map_eq_cons_iff.mp h.symm
    have hmark : markOf last y.1.token others = markOf last x.1.token rest := by
      rw [hfirst, markOf_congr]
      rw [continues_eq, continues_eq, hrest]
    rw [marksFrom, marksFrom, hmark]
    rcases markOf last x.1.token rest with _ | kind | c
    · exact ih hrest.symm last
    · exact congrArg₂ List.cons hfirst.symm (ih hrest.symm (some kind))
    · exact congrArg₂ List.cons hfirst.symm (ih hrest.symm last)

end Marks

/-! ### What is read -/

/-- Which tokens are relevant depends only on the tokens. -/
theorem map_token_relevantAfter_congr {others : List Lexeme}
    (h : found.map Lexeme.token = others.map Lexeme.token) :
    (relevantAfter false true found).map Lexeme.token =
      (relevantAfter false true others).map Lexeme.token := by
  rw [← map_token_zipIdx found, ← map_token_zipIdx others] at h
  have hmarks := map_token_marksFrom_congr h none
  have hfound := map_lexeme_marksFrom none found.zipIdx
  have hothers := map_lexeme_marksFrom none others.zipIdx
  rw [List.zipIdx_map_fst] at hfound hothers
  rw [← show _ = relevantAfter false true found from hfound,
    ← show _ = relevantAfter false true others from hothers, List.map_map, List.map_map]
  exact hmarks

/-- The second text has the same relevant tokens as the first, and no fewer lexemes. -/
structure SameRelevant (text text' : String) : Prop where
  tokens : (relevantLexemes text).map Lexeme.token = (relevantLexemes text').map Lexeme.token
  length_le : (lexemes text).length ≤ (lexemes text').length

/-- Relevant tokens are told from any lexemes that the tokens belong to. -/
theorem sameRelevant_of_tokensOf (hrelevant : relevantAfter false true found = relevantLexemes text)
    (hlength : (lexemes text).length ≤ found.length)
    (htokens : tokensOf cs = found.map Lexeme.token) : SameRelevant text (String.ofList cs) := by
  have hsame : found.map Lexeme.token = (lexemes (String.ofList cs)).map Lexeme.token := by
    rw [← htokens, lexemes, String.toList_ofList, tokensOf]
  refine ⟨?_, hlength.trans (Nat.le_of_eq ?_)⟩
  · rw [← hrelevant, map_token_relevantAfter_congr hsame, relevantLexemes]
  · have hlengths := congrArg List.length hsame
    rwa [List.length_map, List.length_map] at hlengths

/-- As long as the numbers of lexemes fit, what is read from a text depends only on its relevant
tokens. -/
theorem SameRelevant.parse_eq_ok_iff {d : Description} (h : SameRelevant text text')
    (hcount : (lexemes text').length ≤ UInt32.size) :
    parse text = .ok d ↔ parse text' = .ok d := by
  have hsigns (found : List Lexeme) :
      signsOf found = (found.map Lexeme.token).filterMap signOf? := by
    rw [signsOf, List.filterMap_map]
    rfl
  have hback : readBack text = readBack text' := by
    rw [readBack_eq_map_leaf hcount, readBack_eq_map_leaf (h.length_le.trans hcount), hsigns,
      hsigns, h.tokens]
  rw [Bnf.parse_eq_ok_iff, Bnf.parse_eq_ok_iff]
  simp only [ReadsAs, hback, ← control_mem_relevantLexemes_iff, h.tokens]

/-! ### Insertions -/

/-- Layout that can be inserted between the lexemes before a place and the next one. -/
inductive Insertable (text : String) (before : List Lexeme) (next : Lexeme) : List Char → Prop
  | blank {c : Char} (hblank : isBlank c = true) (hline : c ≠ '\n') :
      Insertable text before next [c]
  /-- A comment stands at the end of a line or of the text. -/
  | comment {body : List Char} (hbody : '\n' ∉ body)
      (hnext : next.token = .newline ∨ next.token = .endOfText) :
      Insertable text before next ('#' :: body)
  | beforeBar (hnext : next.token = .bar) : Insertable text before next ['\n']
  | afterBar {init : List Lexeme} {last : Lexeme} (hbefore : before = init ++ [last])
      (hbar : last.token = .bar) : Insertable text before next ['\n']
  /-- After a line break or a semicolon that ended a rule comes one more of them. -/
  | afterStop {init : List Lexeme} {last : Lexeme} {c : Char} (hbefore : before = init ++ [last])
      (hstop : last.token = .newline ∨ last.token = .semicolon)
      (hends : ⟨.sign .stop, last, init.length⟩ ∈ marks (lexemes text)) (hc : c = '\n' ∨ c = ';') :
      Insertable text before next [c]

/-- A text and what an insertion of layout between its lexemes makes of it. -/
inductive Insertion : String → String → Prop
  | insert {text : String} {before after : List Lexeme} {next : Lexeme} {inserted : List Char}
      (hsplit : lexemes text = before ++ next :: after)
      (hinsert : Insertable text before next inserted) :
      Insertion text (String.ofList (textOf before ++ inserted ++ textOf (next :: after)))

section Steps

variable (hsplit : lexemes text = before ++ next :: after)
include hsplit

/-- The lexemes around a place with their numbers. -/
theorem zipIdx_lexemes : (lexemes text).zipIdx =
    before.zipIdx ++ (next, before.length) :: after.zipIdx (before.length + 1) := by
  rw [hsplit, List.zipIdx_append, List.zipIdx_cons, Nat.zero_add]

/-- Where a lexeme ended a rule, a line break or a semicolon after it makes no difference to the
marks. -/
theorem marksFrom_insert_after_end {init : List Lexeme} {last : Lexeme} {extra : Lexeme × Nat}
    (hbefore : before = init ++ [last])
    (hstop : last.token = .newline ∨ last.token = .semicolon)
    (hends : ⟨.sign .stop, last, init.length⟩ ∈ marks (lexemes text))
    (hextra : extra.1.token = .newline ∨ extra.1.token = .semicolon) :
    marksFrom none
        (before.zipIdx ++ extra :: (next, before.length) :: after.zipIdx (before.length + 1)) =
      marksFrom none
        (before.zipIdx ++ (next, before.length) :: after.zipIdx (before.length + 1)) := by
  have hnodup : (lexemes text).zipIdx.Nodup := (List.nodup_zipIdx_map_snd _).of_map Prod.snd
  rw [marks] at hends
  rw [zipIdx_lexemes hsplit] at hnodup hends
  subst hbefore
  rw [List.zipIdx_append, List.append_assoc, Nat.zero_add] at hnodup hends
  rw [List.zipIdx_append, List.append_assoc, List.append_assoc, Nat.zero_add]
  exact marksFrom_insert_after_stop hstop hextra hends hnodup

/-- A lexeme that makes no difference to the marks can be inserted, unless a comment takes it up. -/
theorem sameRelevant_of_insert (hread : Reads token (d :: inserted) (textOf (next :: after)))
    (hd : endsName d = true) (hcomment : ∀ x ∈ before.getLast?, x.token = .comment → d = '\n')
    (hmarks : ∀ extra : Lexeme × Nat, extra.1.token = token →
      marksFrom none
          (before.zipIdx ++ extra :: (next, before.length) :: after.zipIdx (before.length + 1)) =
        marksFrom none
          (before.zipIdx ++ (next, before.length) :: after.zipIdx (before.length + 1))) :
    SameRelevant text
      (String.ofList (textOf before ++ d :: inserted ++ textOf (next :: after))) := by
  have hextra := congrArg (List.map Placed.lexeme) (hmarks (⟨token, d :: inserted, {}⟩, 0) rfl)
  rw [← zipIdx_lexemes hsplit, ← marks, map_lexeme_marks, map_lexeme_marksFrom] at hextra
  simp only [List.map_append, List.map_cons, List.zipIdx_map_fst] at hextra
  refine sameRelevant_of_tokensOf hextra (by simp [hsplit]) ?_
  rw [tokensOf_insert hsplit hread hd hcomment, List.map_append]
  rfl

/-- A blank or a comment can be inserted in any case: a comment that takes it up stays a comment. -/
theorem sameRelevant_of_insert_invisible
    (hread : Reads token (d :: inserted) (textOf (next :: after))) (hd : endsName d = true)
    (hline : '\n' ∉ d :: inserted) (htoken : isVisible token = false) :
    SameRelevant text
      (String.ofList (textOf before ++ d :: inserted ++ textOf (next :: after))) := by
  by_cases hcomment : ∃ x ∈ before.getLast?, x.token = .comment
  · obtain ⟨x, hlast, hx⟩ := hcomment
    obtain ⟨init, rfl⟩ := List.getLast?_eq_some_iff.mp (Option.mem_def.mp hlast)
    rw [List.append_assoc] at hsplit
    refine sameRelevant_of_tokensOf ?_ (Nat.le_of_eq (congrArg List.length hsplit))
      (tokensOf_insert_comment hsplit hx hline)
    rw [relevantLexemes, hsplit]
  · refine sameRelevant_of_insert hsplit hread hd ?_ fun extra hextra => ?_
    · exact fun x hlast hx => absurd ⟨x, hlast, hx⟩ hcomment
    · exact marksFrom_insert_invisible (hextra ▸ htoken) none before.zipIdx _

/-- Layout that can be inserted leaves all relevant tokens as they are. -/
theorem Insertable.sameRelevant (h : Insertable text before next inserted) :
    SameRelevant text (String.ofList (textOf before ++ inserted ++ textOf (next :: after))) := by
  cases h with
  | blank hblank hline =>
    exact sameRelevant_of_insert_invisible hsplit (Reads.blank hblank hline)
      (by simp [endsName, hblank]) (by simpa using hline.symm) rfl
  | comment hbody hnext =>
    exact sameRelevant_of_insert_invisible hsplit
      (Reads.comment hbody (head?_textOf hsplit hnext)) (by decide) (by simp [hbody]) rfl
  | beforeBar hnext =>
    refine sameRelevant_of_insert hsplit Reads.newline (by decide) (fun _ _ _ => rfl) ?_
    exact fun extra hextra => marksFrom_insert_before_bar hextra hnext none before.zipIdx _
  | @afterBar init last hbefore hbar =>
    refine sameRelevant_of_insert hsplit Reads.newline (by decide) (fun _ _ _ => rfl) ?_
    intro extra hextra
    subst hbefore
    rw [List.zipIdx_append, List.append_assoc, List.append_assoc]
    exact marksFrom_insert_after_bar hextra hbar none init.zipIdx _
  | @afterStop init last c hbefore hstop hends hc =>
    have hnone : ∀ x ∈ before.getLast?, x.token = .comment → c = '\n' := by
      intro x hx hcomment
      obtain rfl : last = x := by simpa [hbefore] using hx
      rcases hstop with hstop | hstop <;> cases hstop.symm.trans hcomment
    rcases hc with rfl | rfl
    · exact sameRelevant_of_insert hsplit Reads.newline (by decide) hnone fun extra hextra =>
        marksFrom_insert_after_end hsplit hbefore hstop hends (Or.inl hextra)
    · exact sameRelevant_of_insert hsplit Reads.semicolon (by decide) hnone fun extra hextra =>
        marksFrom_insert_after_end hsplit hbefore hstop hends (Or.inr hextra)

end Steps

/-- Any number of insertions leaves all relevant tokens as they are. -/
theorem sameRelevant_of_insertions (h : Relation.ReflTransGen Insertion text text') :
    SameRelevant text text' := by
  induction h with
  | refl => exact ⟨rfl, Nat.le_refl _⟩
  | tail _ hstep ih =>
    obtain ⟨hsplit, hinsert⟩ := hstep
    have hlast := hinsert.sameRelevant hsplit
    exact ⟨ih.tokens.trans hlast.tokens, ih.length_le.trans hlast.length_le⟩

/-- What is read from a text is read also after insertions of layout, and what is read after them
is read also before. The text that is read is one on which no counter of 32 bits wraps, as on every
text of fewer than `2 ^ 32 - 1` characters. -/
theorem parse_ignores_layout (text text' : String) (d : Description)
    (h : Relation.ReflTransGen Insertion text text') (hfits : FitsCounters text') :
    (parse text = .ok d → parse text' = .ok d) ∧
      (FitsCounters text → parse text' = .ok d → parse text = .ok d) := by
  have hsame : parse text = .ok d ↔ parse text' = .ok d :=
    (sameRelevant_of_insertions h).parse_eq_ok_iff hfits.numbers
  exact ⟨hsame.mp, fun _ => hsame.mpr⟩

/-- A semicolon after the line break that ended the rule, then a line break before the bar, and then
a comment before this line break. -/
theorem parse_spread_ignores_layout :
    Relation.ReflTransGen Insertion "a→b|c\n" "a→b#|\n|c\n;" ∧
      ∃ d, parse "a→b|c\n" = .ok d ∧ parse "a→b#|\n|c\n;" = .ok d := by
  have hsemicolon : Insertion "a→b|c\n" "a→b|c\n;" := by
    have hsplit : lexemes "a→b|c\n" =
        ([⟨.ident "a", ['a'], ⟨1, 1⟩⟩, ⟨.arrow, ['→'], ⟨1, 2⟩⟩, ⟨.ident "b", ['b'], ⟨1, 3⟩⟩,
          ⟨.bar, ['|'], ⟨1, 4⟩⟩, ⟨.ident "c", ['c'], ⟨1, 5⟩⟩] ++ [⟨.newline, ['\n'], ⟨1, 6⟩⟩]) ++
        [⟨.endOfText, [], ⟨2, 1⟩⟩] := by decide +kernel
    have hends : ⟨.sign .stop, ⟨.newline, ['\n'], ⟨1, 6⟩⟩, 5⟩ ∈ marks (lexemes "a→b|c\n") := by
      rw [hsplit]
      decide
    exact Insertion.insert hsplit (.afterStop rfl (Or.inl rfl) hends (Or.inr rfl))
  have hnewline : Insertion "a→b|c\n;" "a→b\n|c\n;" := by
    have hsplit : lexemes "a→b|c\n;" =
        [⟨.ident "a", ['a'], ⟨1, 1⟩⟩, ⟨.arrow, ['→'], ⟨1, 2⟩⟩, ⟨.ident "b", ['b'], ⟨1, 3⟩⟩] ++
        [⟨.bar, ['|'], ⟨1, 4⟩⟩, ⟨.ident "c", ['c'], ⟨1, 5⟩⟩, ⟨.newline, ['\n'], ⟨1, 6⟩⟩,
          ⟨.semicolon, [';'], ⟨2, 1⟩⟩, ⟨.endOfText, [], ⟨2, 2⟩⟩] := by decide +kernel
    exact Insertion.insert hsplit (.beforeBar rfl)
  have hcomment : Insertion "a→b\n|c\n;" "a→b#|\n|c\n;" := by
    have hsplit : lexemes "a→b\n|c\n;" =
        [⟨.ident "a", ['a'], ⟨1, 1⟩⟩, ⟨.arrow, ['→'], ⟨1, 2⟩⟩, ⟨.ident "b", ['b'], ⟨1, 3⟩⟩] ++
        [⟨.newline, ['\n'], ⟨1, 4⟩⟩, ⟨.bar, ['|'], ⟨2, 1⟩⟩, ⟨.ident "c", ['c'], ⟨2, 2⟩⟩,
          ⟨.newline, ['\n'], ⟨2, 3⟩⟩, ⟨.semicolon, [';'], ⟨3, 1⟩⟩, ⟨.endOfText, [], ⟨3, 2⟩⟩] := by
      decide +kernel
    have hbody : '\n' ∉ ['|'] := by decide
    exact Insertion.insert hsplit (.comment hbody (Or.inl rfl))
  have hsteps := ((Relation.ReflTransGen.single hsemicolon).tail hnewline).tail hcomment
  have hparse : parse "a→b|c\n" =
      .ok (describe "a" [⟨"a", "b"⟩, ⟨"a", "c"⟩]) := by decide +kernel
  have hfits : FitsCounters "a→b#|\n|c\n;" := fitsCounters_of_length (by decide)
  exact ⟨hsteps, _, hparse, (parse_ignores_layout _ _ _ hsteps hfits).1 hparse⟩

end Chomsky.Bnf
