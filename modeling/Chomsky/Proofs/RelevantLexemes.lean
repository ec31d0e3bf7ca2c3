import Chomsky.Proofs.Layout
import Mathlib.Data.List.Basic

/-!
# The lexemes that are read

Of the lexemes of a text only the effective ones and the control characters are
read. Which lexemes are effective is said in the same passes as for the signs of a
text, but with the lexemes kept, so that each sign has its place in the text: blanks
and comments are left out, then the line breaks next to bars, and then the stops that
end nothing. A control character is kept, and changes nothing for the lexemes after
it. The marks of a text are those of its relevant lexemes.
-/

namespace Chomsky.Bnf

/-- Leaves out every line break that comes after a bar, with no other effective lexeme in between,
or that a bar follows. -/
def joinLexemes (afterBar : Bool) : List Lexeme → List Lexeme
  | [] => []
  | x :: rest =>
    match x.token with
    | .newline =>
      if afterBar || barFollows (rest.map Lexeme.token) then joinLexemes afterBar rest
      else x :: joinLexemes false rest
    | .control _ => x :: joinLexemes afterBar rest
    | token => x :: joinLexemes (token == .bar) rest

/-- Leaves out every stop that comes first or after a stop. -/
def dropIdleLexemes (idle : Bool) : List Lexeme → List Lexeme
  | [] => []
  | x :: rest =>
    match x.token with
    | .control _ => x :: dropIdleLexemes idle rest
    | token =>
      if signOf? token = some .stop then
        if idle then dropIdleLexemes true rest else x :: dropIdleLexemes true rest
      else x :: dropIdleLexemes false rest

/-- The relevant ones among lexemes, given whether a bar came last before them and whether a stop
there would end nothing. -/
def relevantAfter (afterBar idle : Bool) (found : List Lexeme) : List Lexeme :=
  dropIdleLexemes idle (joinLexemes afterBar (found.filter fun x => isVisible x.token))

/-- The effective lexemes of a text and its control characters, in the order of the text. -/
def relevantLexemes (text : String) : List Lexeme := relevantAfter false true (lexemes text)

variable {found : List Lexeme} {x : Lexeme} {afterBar idle : Bool}

/-! ### Steps -/

section Steps

variable (afterBar idle : Bool) (piece : List Char) (position : Position) (rest : List Lexeme)

private theorem relevantAfter_semicolon :
    relevantAfter afterBar idle (⟨.semicolon, piece, position⟩ :: rest) =
      if idle then relevantAfter false true rest
      else ⟨.semicolon, piece, position⟩ :: relevantAfter false true rest := rfl

private theorem relevantAfter_endOfText :
    relevantAfter afterBar idle (⟨.endOfText, piece, position⟩ :: rest) =
      if idle then relevantAfter false true rest
      else ⟨.endOfText, piece, position⟩ :: relevantAfter false true rest := rfl

private theorem relevantAfter_newline :
    relevantAfter afterBar idle (⟨.newline, piece, position⟩ :: rest) =
      if afterBar || barFollows ((rest.map Lexeme.token).filter isVisible) then
        relevantAfter afterBar idle rest
      else if idle then relevantAfter false true rest
      else ⟨.newline, piece, position⟩ :: relevantAfter false true rest := by
  have hfilter : (⟨.newline, piece, position⟩ :: rest : List Lexeme).filter
      (fun x => isVisible x.token) =
      ⟨.newline, piece, position⟩ :: rest.filter fun x => isVisible x.token := rfl
  have htokens : (rest.filter fun x => isVisible x.token).map Lexeme.token =
      (rest.map Lexeme.token).filter isVisible := by
    rw [List.filter_map]
    rfl
  rw [relevantAfter, hfilter, joinLexemes, htokens]
  dsimp only
  split <;> rfl

end Steps

/-! ### Relevant lexemes among all -/

private theorem joinLexemes_sublist (afterBar : Bool) (found : List Lexeme) :
    (joinLexemes afterBar found).Sublist found := by
  fun_induction joinLexemes afterBar found with
  | case1 => exact List.Sublist.slnil
  | case2 afterBar x rest htoken hjoin ih => exact ih.cons _
  | case3 afterBar x rest htoken hjoin ih => exact ih.cons_cons _
  | case4 afterBar x rest c htoken ih => exact ih.cons_cons _
  | case5 afterBar x rest htoken hother ih => exact ih.cons_cons _

/-! ### Signs of relevant lexemes -/

/-- The signs of lexemes. -/
def signsOf (found : List Lexeme) : List Sign := found.filterMap fun x => signOf? x.token

/-- Without control characters, the lines of lexemes are joined as those of their tokens. -/
theorem map_token_joinLexemes (hcontrol : ∀ c, .control c ∉ found.map Lexeme.token) :
    (joinLexemes afterBar found).map Lexeme.token =
      joinLines afterBar (found.map Lexeme.token) := by
  induction found generalizing afterBar with
  | nil => rfl
  | cons x rest ih =>
    obtain ⟨token, piece, position⟩ := x
    have hrest : ∀ c, .control c ∉ rest.map Lexeme.token :=
      fun c hc => hcontrol c (List.mem_cons_of_mem _ hc)
    cases token with
    | newline =>
      simp only [joinLexemes, List.map_cons, joinLines]
      split
      · exact ih hrest
      · exact congrArg (_ :: ·) (ih hrest)
    | control c => exact absurd List.mem_cons_self (hcontrol c)
    | _ => exact congrArg (_ :: ·) (ih hrest)

/-- The same stops are left out among visible lexemes as among their signs. -/
theorem signsOf_dropIdleLexemes (hvisible : ∀ x ∈ found, isVisible x.token = true) (idle : Bool) :
    signsOf (dropIdleLexemes idle found) = dropIdle idle (signsOf found) := by
  induction found generalizing idle with
  | nil => rfl
  | cons x rest ih =>
    obtain ⟨hfirst, hrest⟩ := List.forall_mem_cons.mp hvisible
    have ih := ih hrest
    obtain ⟨token, piece, position⟩ := x
    have hstop : signsOf (if idle then dropIdleLexemes true rest
        else ⟨token, piece, position⟩ :: dropIdleLexemes true rest) =
          if idle then dropIdle true (signsOf rest)
          else (signOf? token).toList ++ dropIdle true (signsOf rest) := by
      cases idle with
      | true => exact ih true
      | false =>
        rw [← ih true]
        cases h : signOf? token <;> simp [signsOf, h]
    cases token with
    | ident name => exact congrArg (Sign.name name :: ·) (ih false)
    | arrow => exact congrArg (Sign.arrow :: ·) (ih false)
    | bar => exact congrArg (Sign.bar :: ·) (ih false)
    | semicolon => exact hstop
    | newline => exact hstop
    | endOfText => exact hstop
    | blank => cases hfirst
    | comment => cases hfirst
    | control c => exact ih idle

/-- The signs of a text without control characters are those of its relevant lexemes. -/
theorem signsOf_relevantLexemes {text : String}
    (hcontrol : ∀ c, .control c ∉ tokensOf text.toList) :
    signsOf (relevantLexemes text) = effectiveSigns text := by
  have htokens : ((lexemes text).filter fun x => isVisible x.token).map Lexeme.token =
      (tokensOf text.toList).filter isVisible := by
    rw [tokensOf, ← lexemes, List.filter_map]
    rfl
  have hnone : ∀ c, .control c ∉
      ((lexemes text).filter fun x => isVisible x.token).map Lexeme.token := by
    intro c hc
    rw [htokens] at hc
    exact hcontrol c (List.mem_filter.mp hc).1
  have hvisible : ∀ x ∈ joinLexemes false ((lexemes text).filter fun x => isVisible x.token),
      isVisible x.token = true :=
    fun x hx => (List.mem_filter.mp ((joinLexemes_sublist _ _).subset hx)).2
  rw [relevantLexemes, relevantAfter, signsOf_dropIdleLexemes hvisible, effectiveSigns, signsAfter,
    ← htokens, ← map_token_joinLexemes hnone, List.filterMap_map]
  rfl

/-! ### Marks -/

variable {last : Option Terminal} {token : Token} {mark : Mark} {placed : Placed}
  {numbered : List (Lexeme × Nat)} {text : String}

/-- Numbered lexemes have the same tokens. -/
theorem map_token_zipIdx (found : List Lexeme) :
    (found.zipIdx.map fun x => x.1.token) = found.map Lexeme.token := by
  have hfirst := congrArg (List.map Lexeme.token) (List.zipIdx_map_fst 0 found)
  rwa [List.map_map] at hfirst

/-- The look-ahead of a line break is a look at the visible tokens. -/
theorem continues_eq (rest : List (Lexeme × Nat)) :
    continues rest = barFollows ((rest.map fun x => x.1.token).filter isVisible) := by
  induction rest with
  | nil => rfl
  | cons x rest ih =>
    obtain ⟨⟨token, piece, position⟩, place⟩ := x
    cases token <;> simp_all [continues, barFollows, isVisible, isSpacing]

/-- A stop that would end nothing does not come after a bar. -/
theorem not_afterBar_of_isIdle (h : isIdle last = true) : (last == some .bar) = false := by
  cases last with
  | none => rfl
  | some kind => cases kind <;> simp_all [isIdle]

/-- The mark of a lexeme that is marked. -/
def markOfToken : Token → Option Mark
  | .control c => some (.control c)
  | token => (signOf? token).map fun sign => .sign sign.kind

/-- Which mark a lexeme has depends on its token alone, if it has one. -/
theorem markOfToken_eq_some {rest : List (Lexeme × Nat)} (h : markOf last token rest = some mark) :
    markOfToken token = some mark := by
  cases token <;> simp_all [markOf, markOfToken, signOf?, Sign.kind]

/-- Only control characters are marked as such. -/
theorem control_of_markOfToken {c : Char} (h : markOfToken token = some (.control c)) :
    token = .control c := by
  cases token <;> simp_all [markOfToken, signOf?]

/-- What is marked is a numbered lexeme, and its token determines the mark. -/
theorem of_mem_marksFrom (h : placed ∈ marksFrom last numbered) :
    (placed.lexeme, placed.place) ∈ numbered ∧
      markOfToken placed.lexeme.token = some placed.mark := by
  induction numbered generalizing last with
  | nil => simp [marksFrom] at h
  | cons x rest ih =>
    obtain ⟨lexeme, place⟩ := x
    have hlater {last : Option Terminal} (hrest : placed ∈ marksFrom last rest) :=
      (ih hrest).imp_left (List.mem_cons_of_mem (lexeme, place))
    rw [marksFrom] at h
    split at h
    · exact hlater h
    · rename_i kind hmark
      rcases List.mem_cons.mp h with rfl | hrest
      · exact ⟨List.mem_cons_self, markOfToken_eq_some hmark⟩
      · exact hlater hrest
    · rename_i c hmark
      rcases List.mem_cons.mp h with rfl | hrest
      · exact ⟨List.mem_cons_self, markOfToken_eq_some hmark⟩
      · exact hlater hrest

/-- The lexemes that are marked are the relevant ones. -/
theorem map_lexeme_marksFrom (last : Option Terminal) (numbered : List (Lexeme × Nat)) :
    (marksFrom last numbered).map Placed.lexeme =
      relevantAfter (last == some .bar) (isIdle last) (numbered.map Prod.fst) := by
  induction numbered generalizing last with
  | nil => rfl
  | cons x rest ih =>
    obtain ⟨⟨token, piece, position⟩, place⟩ := x
    -- Whether a stop is left out or kept, what follows is read as after a stop.
    have hidle (h : isIdle last = true) : (marksFrom last rest).map Placed.lexeme =
        relevantAfter false true (rest.map Prod.fst) := by
      rw [ih last, not_afterBar_of_isIdle h, h]
    have hstop : (marksFrom (some .stop) rest).map Placed.lexeme =
        relevantAfter false true (rest.map Prod.fst) := ih (some .stop)
    rw [List.map_cons]
    cases token with
    | blank => exact ih last
    | comment => exact ih last
    | control c => exact congrArg (_ :: ·) (ih last)
    | ident name => exact congrArg (_ :: ·) (ih (some .name))
    | arrow => exact congrArg (_ :: ·) (ih (some .arrow))
    | bar => exact congrArg (_ :: ·) (ih (some .bar))
    | semicolon =>
      rw [relevantAfter_semicolon]
      cases h : isIdle last <;> simp [marksFrom, markOf, h, hidle, hstop]
    | endOfText =>
      rw [relevantAfter_endOfText]
      cases h : isIdle last <;> simp [marksFrom, markOf, h, hidle, hstop]
    | newline =>
      have htokens : ((rest.map Prod.fst).map Lexeme.token).filter isVisible =
          (rest.map fun x => x.1.token).filter isVisible := by
        rw [List.map_map]
        rfl
      rw [relevantAfter_newline, htokens, ← continues_eq]
      cases hjoin : last == some .bar || continues rest with
      | true => simpa [marksFrom, markOf, hjoin] using ih last
      | false => cases h : isIdle last <;> simp [marksFrom, markOf, hjoin, h, hidle, hstop]

/-- The lexemes of a text that are marked are the relevant ones. -/
theorem map_lexeme_marks (text : String) :
    (marks (lexemes text)).map Placed.lexeme = relevantLexemes text := by
  rw [marks, map_lexeme_marksFrom, List.zipIdx_map_fst]
  rfl

/-- The token of what is marked determines the mark. -/
theorem markOfToken_of_mem_marks {found : List Lexeme} (h : placed ∈ marks found) :
    markOfToken placed.lexeme.token = some placed.mark :=
  (of_mem_marksFrom h).2

/-- What is marked in a text is found at its place. -/
theorem getElem?_place (h : placed ∈ marks (lexemes text)) :
    (lexemes text)[placed.place]? = some placed.lexeme :=
  List.mk_mem_zipIdx_iff_getElem?.mp (of_mem_marksFrom h).1

/-- Every control character is marked. -/
theorem exists_control_mark {c : Char} (h : .control c ∈ numbered.map fun x => x.1.token) :
    .control c ∈ (marksFrom last numbered).map Placed.mark := by
  induction numbered generalizing last with
  | nil => simp at h
  | cons x rest ih =>
    rw [List.map_cons, List.mem_cons] at h
    rw [marksFrom]
    rcases h with hfirst | hrest
    · simp [← hfirst, markOf]
    · split
      · exact ih hrest
      · exact List.mem_cons_of_mem _ (ih hrest)
      · exact List.mem_cons_of_mem _ (ih hrest)

/-- The control characters of a text are those that are marked. -/
theorem control_mem_marks_iff {c : Char} :
    .control c ∈ (marks (lexemes text)).map Placed.mark ↔ .control c ∈ tokensOf text.toList := by
  have htokens : (lexemes text).zipIdx.map (fun x => x.1.token) = tokensOf text.toList :=
    map_token_zipIdx (lexemes text)
  refine ⟨fun h => ?_, fun h => exists_control_mark (htokens ▸ h)⟩
  obtain ⟨placed, hplaced, hmark⟩ := List.mem_map.mp h
  obtain ⟨hmem, htoken⟩ := of_mem_marksFrom hplaced
  rw [hmark] at htoken
  rw [← htokens]
  exact List.mem_map.mpr ⟨_, hmem, control_of_markOfToken htoken⟩

/-- Control characters are relevant. -/
theorem control_mem_relevantLexemes_iff {c : Char} :
    .control c ∈ (relevantLexemes text).map Lexeme.token ↔ .control c ∈ tokensOf text.toList := by
  rw [← control_mem_marks_iff, ← map_lexeme_marks, List.map_map, List.mem_map, List.mem_map]
  refine exists_congr fun placed => and_congr_right fun hplaced =>
    ⟨fun htoken => ?_, fun hmark => ?_⟩
  · have hsome := markOfToken_of_mem_marks hplaced
    rw [show placed.lexeme.token = .control c from htoken] at hsome
    exact (Option.some.inj hsome).symm
  · exact control_of_markOfToken (hmark ▸ markOfToken_of_mem_marks hplaced)

/-! ### Signs read back -/

/-- The sign of a mark as it is scanned, with the number of its lexeme in 32 bits. -/
def Placed.scan? (placed : Placed) : Option (Terminal × UInt32) :=
  match placed.mark with
  | .sign kind => some (kind, UInt32.ofNat placed.place)
  | .control _ => none

/-- The signs among marks as they are scanned. -/
def scanned (found : List Placed) : List (Terminal × UInt32) := found.filterMap Placed.scan?

/-- The kind and the value of a sign that was scanned among lexemes. -/
def lookUp (found : List Lexeme) (sign : Terminal × UInt32) : Terminal × Value :=
  (sign.1, Value.ofSign found.toArray sign.1 sign.2)

/-- The signs of a text with the values that are looked up for them. -/
def readBack (text : String) : List (Terminal × Value) :=
  (scanned (marks (lexemes text))).map (lookUp (lexemes text))

/-- A value that is looked up is the name of a lexeme, and only names have one. -/
theorem lookUp_cases (found : List Lexeme) (sign : Terminal × UInt32) :
    (lookUp found sign).2 = .nothing ∨ ∃ name, lookUp found sign = (Sign.name name).leaf ∧
      .ident name ∈ found.map Lexeme.token := by
  obtain ⟨kind, number⟩ := sign
  simp only [lookUp, Value.ofSign, List.getElem?_toArray]
  split
  · rename_i name htoken
    obtain ⟨lexeme, hlexeme, htoken⟩ := Option.map_eq_some_iff.mp htoken
    exact Or.inr ⟨name, rfl, List.mem_map.mpr ⟨lexeme, List.mem_of_getElem? hlexeme, htoken⟩⟩
  · exact Or.inl rfl

/-- As long as the number of a marked lexeme fits, its sign is read back. -/
theorem map_lookUp_scan? (h : placed ∈ marks (lexemes text)) (hplace : placed.place < UInt32.size) :
    placed.scan?.map (lookUp (lexemes text)) =
      (signOf? placed.lexeme.token).map Sign.leaf := by
  have hfound := getElem?_place h
  have hmark := markOfToken_of_mem_marks h
  obtain ⟨mark, ⟨token, piece, position⟩, place⟩ := placed
  have hnumber : (UInt32.ofNat place).toNat = place := UInt32.toNat_ofNat_of_lt' hplace
  cases token with
  | ident name =>
    cases hmark
    simp only [Placed.scan?, Option.map_some, lookUp, Value.ofSign, List.getElem?_toArray, hnumber,
      hfound]
    rfl
  | _ => cases hmark <;> rfl

/-- No more signs are read back than there are lexemes. -/
theorem length_readBack_le (text : String) : (readBack text).length ≤ (lexemes text).length := by
  have hmarks (last : Option Terminal) (numbered : List (Lexeme × Nat)) :
      (marksFrom last numbered).length ≤ numbered.length := by
    fun_induction marksFrom last numbered with
    | case1 => exact Nat.le_refl _
    | case2 last lexeme place rest hmark ih => exact Nat.le_succ_of_le ih
    | case3 last lexeme place rest kind hmark ih => exact Nat.succ_le_succ ih
    | case4 last lexeme place rest c hmark ih => exact Nat.succ_le_succ ih
  have hle := hmarks none (lexemes text).zipIdx
  rw [List.length_zipIdx] at hle
  rw [readBack, List.length_map, scanned]
  exact Nat.le_trans (List.length_filterMap_le _ _) hle

/-- Among at most `2 ^ 32` lexemes all signs are read back. -/
theorem readBack_eq_map_leaf (hcount : (lexemes text).length ≤ UInt32.size) :
    readBack text = (signsOf (relevantLexemes text)).map Sign.leaf := by
  rw [readBack, scanned, List.map_filterMap, signsOf, List.map_filterMap, ← map_lexeme_marks,
    List.filterMap_map]
  refine List.filterMap_congr fun placed hplaced => ?_
  have hlt := (List.getElem?_eq_some_iff.mp (getElem?_place hplaced)).1
  exact map_lookUp_scan? hplaced (Nat.lt_of_lt_of_le hlt hcount)

end Chomsky.Bnf
