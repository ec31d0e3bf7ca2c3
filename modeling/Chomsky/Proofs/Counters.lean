import Chomsky.Proofs.Lexing
import Mathlib.Data.List.Induction

/-!
# What 32 bits can count

Lines and columns are counted in 32 bits, and so are the lexemes of a text. As long as no
count is too large, a position tells the line breaks before a place and the characters
since the last of them, and every lexeme has a number of its own. A text of fewer than
`2 ^ 32 - 1` characters can always be counted, and also one with a character more that
ends its lines.
-/

namespace Chomsky.Bnf

variable {text : String} {front : List Char}

/-- The number of characters after the last line break. -/
def sinceLine (cs : List Char) : Nat := (cs.reverse.takeWhile (· != '\n')).length

private theorem sinceLine_concat (cs : List Char) (c : Char) :
    sinceLine (cs ++ [c]) = if c = '\n' then 0 else sinceLine cs + 1 := by
  by_cases hline : c = '\n' <;> simp [sinceLine, hline]

/-- There are no more characters after the last line break than in the whole text. -/
theorem sinceLine_le (cs : List Char) : sinceLine cs ≤ cs.length := by
  have hle := (List.takeWhile_sublist (· != '\n') (l := cs.reverse)).length_le
  rwa [List.length_reverse] at hle

section Positions

variable (p : Position)

/-- No character leaves the position as it is. -/
@[simp]
theorem Position.after_nil : p.after [] = p := rfl

/-- Pieces of text are passed one after the other. -/
@[simp]
theorem Position.after_append (cs ds : List Char) : p.after (cs ++ ds) = (p.after cs).after ds :=
  List.foldl_append

end Positions

/-- Lines are counted by line breaks, and columns by the characters after the last of them. -/
theorem Position.after_start (cs : List Char) :
    Position.after {} cs =
      ⟨UInt32.ofNat (cs.count '\n' + 1), UInt32.ofNat (sinceLine cs + 1)⟩ := by
  induction cs using List.reverseRecOn with
  | nil => rfl
  | append_singleton cs c ih =>
    rw [Position.after_append, ih, sinceLine_concat]
    by_cases hline : c = '\n'
    · subst hline
      simp [Position.after, Position.next]
    · simp [Position.after, Position.next, hline]

/-- No line and no column of the text is beyond the numbers of 32 bits. -/
structure PositionsFit (text : String) : Prop where
  lines : text.toList.count '\n' + 1 < UInt32.size
  columns : ∀ front, front <+: text.toList → sinceLine front + 1 < UInt32.size

/-- No counter of the text wraps: its lines, its columns and the numbers of its lexemes need no more
than 32 bits. -/
structure FitsCounters (text : String) : Prop extends PositionsFit text where
  numbers : (lexemes text).length ≤ UInt32.size

/-- Where no counter wraps, the position after a part of a text tells how many lines and characters
it has. -/
theorem PositionsFit.toNat_after (h : PositionsFit text) (hfront : front <+: text.toList) :
    (Position.after {} front).line.toNat = front.count '\n' + 1 ∧
      (Position.after {} front).column.toNat = sinceLine front + 1 := by
  have hlines : front.count '\n' + 1 < UInt32.size :=
    Nat.lt_of_le_of_lt (Nat.succ_le_succ (hfront.sublist.count_le '\n')) h.lines
  rw [Position.after_start]
  exact ⟨UInt32.toNat_ofNat_of_lt' hlines, UInt32.toNat_ofNat_of_lt' (h.columns front hfront)⟩

/-- There is one lexeme more than a text has characters at most. -/
theorem length_lexemes_le (text : String) : (lexemes text).length ≤ text.length + 1 := by
  have hle := length_tokensOf_le text.toList
  rwa [tokensOf, ← lexemes, List.length_map, String.length_toList] at hle

/-- A text of fewer than `2 ^ 32 - 1` characters can be counted. -/
theorem fitsCounters_of_length (h : text.length + 1 < UInt32.size) : FitsCounters text where
  lines := by
    have hle := List.count_le_length (a := '\n') (l := text.toList)
    rw [String.length_toList] at hle
    omega
  columns front hfront := by
    have hle := sinceLine_le front
    have hlength := hfront.length_le
    rw [String.length_toList] at hlength
    omega
  numbers := Nat.le_trans (length_lexemes_le text) (Nat.le_of_lt h)

/-- A text of fewer than `2 ^ 32` characters can be counted if it ends with a line break and does
not start with one. -/
theorem fitsCounters_of_lines (hfirst : text.toList.head? ≠ some '\n')
    (hlast : text.toList.getLast? = some '\n') (h : text.length < UInt32.size) :
    FitsCounters text := by
  obtain ⟨init, htext⟩ := List.getLast?_eq_some_iff.mp hlast
  rw [← String.length_toList] at h
  have hlength : init.length + 1 < UInt32.size := by
    rwa [htext, List.length_append, List.length_singleton] at h
  refine ⟨⟨?_, fun front hfront => ?_⟩, ?_⟩
  · obtain ⟨c, cs, rfl⟩ : ∃ c cs, init = c :: cs := List.exists_cons_of_ne_nil (by
      rintro rfl
      exact hfirst (by rw [htext]; rfl))
    have hc : c ≠ '\n' := by simpa [htext] using hfirst
    have hcount : (c :: cs ++ ['\n']).count '\n' = cs.count '\n' + 1 := by simp [hc]
    have hle := List.count_le_length (a := '\n') (l := cs)
    rw [List.length_cons] at hlength
    rw [htext, hcount]
    omega
  · -- The whole text ends a line, and any other part of it has a character less.
    rcases List.prefix_concat_iff.mp (htext ▸ hfront) with rfl | hshorter
    · rw [sinceLine_concat, if_pos rfl]
      decide
    · have hle := sinceLine_le front
      have hfrontLength := hshorter.length_le
      omega
  · rw [String.length_toList] at h
    exact Nat.le_trans (length_lexemes_le text) h

end Chomsky.Bnf
