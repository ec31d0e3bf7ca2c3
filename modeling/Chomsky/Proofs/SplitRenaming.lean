import Chomsky.Proofs.Renaming

/-!
# Renaming of split grammars

The blocks of a renamed grammar are the renamed blocks. So two splittings of a
grammar and of a renamed one differ only by a renaming, whatever names they give
to the blocks: the name of a block goes to the name of the renamed block.
-/

namespace Chomsky

private theorem exists_defines {block : List Symbol} (name : List Symbol → Symbol)
    (hne : block ≠ []) :
    ∃ rhs, Defines name block rhs := by
  obtain ⟨init, s, rfl⟩ := (List.eq_nil_or_concat' block).resolve_left hne
  by_cases hinit : init = []
  · subst hinit
    exact ⟨[s], .wrapper s⟩
  · exact ⟨_, .helper hinit s⟩

namespace Grammar

variable {g h g' h' : Grammar} {f : Symbol → Symbol} {name name' : List Symbol → Symbol}
  {block part : List Symbol} {s : Symbol} {rule : Rule}

/-- The symbols of parts are declared. -/
theorem WellFormed.declared_of_mem_parts (hg : g.WellFormed) (hpart : part ∈ g.parts g.blocks) :
    ∀ s ∈ part, s ∈ g.declared := by
  intro s hs
  rcases hpart with hblock | ⟨a, ha, rfl⟩
  · obtain ⟨rule, hrule, hmem⟩ := mem_rhs_of_mem_blocks hblock hs
    exact hg.rhs rule hrule s hmem
  · rw [List.mem_singleton.mp hs]
    exact Or.inr ha

/-- The nonterminals of a splitting are the names of parts. -/
theorem SplitBy.mem_nonterminals_iff (hsplit : g.SplitBy g' name) (hg : g.WellFormed) :
    s ∈ g'.nonterminals ↔ ∃ part ∈ g.parts g.blocks, name part = s := by
  constructor
  · intro hs
    rcases (hsplit.nonterminals s).mp hs with hs | ⟨block, hblock, rfl⟩
    · exact ⟨[s], Or.inr ⟨s, hs, rfl⟩, hsplit.letter s (hg.not_mem_terminals hs)⟩
    · exact ⟨block, Or.inl hblock, rfl⟩
  · rintro ⟨part, hpart, rfl⟩
    exact hsplit.name_mem hg hpart

namespace RenamedBy

section Blocks

variable (hrenamed : g.RenamedBy f h) (hh : h.WellFormed) (hg : g.WellFormed)

include hrenamed

private theorem map_mem_blocks (hblock : block ∈ g.blocks) : block.map f ∈ h.blocks := by
  obtain ⟨rule, hrule, hlength, hkind⟩ := hblock
  refine ⟨rule.map f, hrenamed.map_mem_rules hrule, by simpa [Rule.map] using hlength, ?_⟩
  rcases hkind with ⟨s, hs, hterminal, rfl⟩ | ⟨hlong, hbegins, hproper⟩
  · refine Or.inl ⟨f s, List.mem_map_of_mem hs, ?_, rfl⟩
    rw [hrenamed.fixes s hterminal]
    exact (hrenamed.terminals s).mpr hterminal
  · refine Or.inr ⟨by simpa using hlong, hbegins.map f, fun heq => hproper ?_⟩
    have hlengths := congrArg List.length heq
    simp only [Rule.map, List.length_map] at hlengths
    exact hbegins.eq_of_length hlengths

private theorem map_mem_parts (hpart : part ∈ g.parts g.blocks) :
    part.map f ∈ h.parts h.blocks := by
  rcases hpart with hblock | ⟨a, ha, rfl⟩
  · exact Or.inl (hrenamed.map_mem_blocks hblock)
  · exact Or.inr ⟨f a, hrenamed.map_mem_nonterminals ha, rfl⟩

include hh hg

/-- Every block of the renamed grammar is a renamed block. -/
theorem exists_of_mem_blocks (hblock : block ∈ h.blocks) :
    ∃ block' ∈ g.blocks, block'.map f = block := by
  obtain ⟨_, hrule, hlength, hkind⟩ := hblock
  obtain ⟨rule, hrule', rfl⟩ := (hrenamed.rules _).mp hrule
  have hlength' : 2 ≤ rule.rhs.length := by simpa [Rule.map] using hlength
  rcases hkind with ⟨_, hs, hterminal, rfl⟩ | ⟨hlong, hbegins, hproper⟩
  · obtain ⟨s, hmem, rfl⟩ := List.mem_map.mp hs
    rw [hrenamed.map_mem_terminals_iff hh (hg.rhs rule hrule' s hmem)] at hterminal
    exact ⟨[s], ⟨rule, hrule', hlength', Or.inl ⟨s, hmem, hterminal, rfl⟩⟩, rfl⟩
  · obtain ⟨block', hbegins', rfl⟩ := List.prefix_map_iff.mp hbegins
    refine ⟨block', ⟨rule, hrule', hlength', Or.inr ⟨by simpa using hlong, hbegins', ?_⟩⟩, rfl⟩
    rintro rfl
    exact hproper rfl

private theorem exists_of_mem_parts (hpart : part ∈ h.parts h.blocks) :
    ∃ part' ∈ g.parts g.blocks, part'.map f = part := by
  rcases hpart with hblock | ⟨x, hx, rfl⟩
  · obtain ⟨block', hblock', heq⟩ := hrenamed.exists_of_mem_blocks hh hg hblock
    exact ⟨block', Or.inl hblock', heq⟩
  · obtain ⟨a, ha, rfl⟩ := hrenamed.nonterminals.surjOn hx
    exact ⟨[a], Or.inr ⟨a, ha, rfl⟩, rfl⟩

end Blocks

/-- The renaming takes the name of a part to the name of the renamed part. -/
def CarriesNames (g : Grammar) (f : Symbol → Symbol) (name name' : List Symbol → Symbol) : Prop :=
  ∀ part ∈ g.parts g.blocks, f (name part) = name' (part.map f)

open Classical in
/-- A renaming is extended to the names of blocks. The expansion tells the block of which a symbol
is the name. -/
theorem exists_carriesNames (hrenamed : g.RenamedBy f h) (hh : h.WellFormed) (hg : g.WellFormed)
    (hsplit : g.SplitBy g' name) (hsplit' : h.SplitBy h' name') :
    ∃ f', Set.EqOn f f' g.declared ∧ CarriesNames g f' name name' := by
  let f' : Symbol → Symbol := fun s =>
    if s ∈ g.declared then f s else name' ((SplitBy.expansion g name s).map f)
  have heq : Set.EqOn f f' g.declared := fun s hs => (if_pos hs).symm
  refine ⟨f', heq, fun part hpart => ?_⟩
  have hmap : part.map f = part.map f' :=
    List.map_congr_left fun s hs => heq (hg.declared_of_mem_parts hpart s hs)
  rw [← hmap]
  rcases hpart with hblock | ⟨a, ha, rfl⟩
  · have hfresh : name part ∉ g.declared := not_mem_declared_iff.mpr (hsplit.fresh part hblock)
    have hname : f' (name part) = name' ((SplitBy.expansion g name (name part)).map f) :=
      if_neg hfresh
    rw [hname, hsplit.expansion_of_part hg (Or.inl hblock)]
  · have hterminal : f a ∉ h.terminals := hh.not_mem_terminals (hrenamed.map_mem_nonterminals ha)
    rw [hsplit.letter a (hg.not_mem_terminals ha), ← heq (Or.inr ha)]
    exact (hsplit'.letter (f a) hterminal).symm

/-- The names of two parts go to the names of the renamed parts. -/
theorem map_pair (hcarries : CarriesNames g f name name') (hblock : block ∈ g.parts g.blocks)
    (hs : [s] ∈ g.parts g.blocks) :
    [name block, name [s]].map f = [name' (block.map f), name' [f s]] := by
  rw [List.map_cons, List.map_singleton, hcarries _ hblock, hcarries _ hs]
  rfl

/-- The right side that defines a block defines the renamed block, once renamed. -/
theorem defines_map (hcarries : CarriesNames g f name name') (hg : g.WellFormed) {rhs : List Symbol}
    (hblock : block ∈ g.blocks) (hdefines : Defines name block rhs) :
    Defines name' (block.map f) (rhs.map f) := by
  cases hdefines with
  | wrapper s => exact .wrapper (f s)
  | @helper block hne s =>
    obtain ⟨hleft, hright⟩ := hg.parts_of_block hne hblock
    have hne' : block.map f ≠ [] := fun hnil => hne (List.map_eq_nil_iff.mp hnil)
    rw [List.map_append, List.map_singleton, map_pair hcarries hleft hright]
    exact .helper hne' (f s)

section Split

variable (hrenamed : g.RenamedBy f h) (hh : h.WellFormed) (hg : g.WellFormed)
  (hsplit : g.SplitBy g' name) (hsplit' : h.SplitBy h' name')
  (hcarries : CarriesNames g f name name')

include hrenamed hh hg hsplit hsplit' hcarries

private theorem bijOn_nonterminals_split :
    Set.BijOn f {s | s ∈ g'.nonterminals} {s | s ∈ h'.nonterminals} := by
  refine ⟨fun s hs => ?_, fun s hs s' hs' heq => ?_, fun x hx => ?_⟩
  · obtain ⟨part, hpart, rfl⟩ := (hsplit.mem_nonterminals_iff hg).mp hs
    rw [hcarries part hpart]
    exact hsplit'.name_mem hh (hrenamed.map_mem_parts hpart)
  · obtain ⟨part, hpart, rfl⟩ := (hsplit.mem_nonterminals_iff hg).mp hs
    obtain ⟨part', hpart', rfl⟩ := (hsplit.mem_nonterminals_iff hg).mp hs'
    rw [hcarries part hpart, hcarries part' hpart'] at heq
    have hmap := hsplit'.injOn_parts hh (hrenamed.map_mem_parts hpart)
      (hrenamed.map_mem_parts hpart') heq
    rw [map_injOn (hrenamed.injOn_declared hh) (hg.declared_of_mem_parts hpart)
      (hg.declared_of_mem_parts hpart') hmap]
  · obtain ⟨part, hpart, rfl⟩ := (hsplit'.mem_nonterminals_iff hh).mp hx
    obtain ⟨part', hpart', rfl⟩ := hrenamed.exists_of_mem_parts hh hg hpart
    exact ⟨name part', hsplit.name_mem hg hpart', hcarries part' hpart'⟩

private theorem mem_rules_split_iff : rule ∈ h'.rules ↔ ∃ rule' ∈ g'.rules, rule'.map f = rule := by
  have hlong : ∀ {lhs : Symbol} {block : List Symbol} {s : Symbol}, block ≠ [] →
      ⟨lhs, block ++ [s]⟩ ∈ g.rules → Rule.map f ⟨lhs, [name block, name [s]]⟩ =
        ⟨f lhs, [name' (block.map f), name' [f s]]⟩ := by
    intro lhs block s hne hrule
    obtain ⟨hleft, hright⟩ := hg.parts_of_rule hne hrule
    rw [Rule.map, map_pair hcarries hleft hright]
  constructor
  · intro hrule
    cases (hsplit'.rules rule).mp hrule with
    | short hshort hlength =>
      obtain ⟨rule', hrule', rfl⟩ := (hrenamed.rules rule).mp hshort
      rw [Rule.map, List.length_map] at hlength
      exact ⟨rule', (hsplit.rules rule').mpr (.short hrule' hlength), rfl⟩
    | definition hblock hdefines =>
      obtain ⟨block, hblock', rfl⟩ := hrenamed.exists_of_mem_blocks hh hg hblock
      obtain ⟨rhs, hdefines'⟩ := exists_defines name (ne_nil_of_mem_blocks hblock')
      refine ⟨⟨name block, rhs⟩, (hsplit.rules _).mpr (.definition hblock' hdefines'), ?_⟩
      rw [Rule.map, hcarries block (Or.inl hblock'),
        hdefines.unique (defines_map hcarries hg hblock' hdefines')]
    | @long lhs s block hne hold =>
      obtain ⟨⟨lhs', rhs⟩, hrule', heq⟩ := (hrenamed.rules _).mp hold
      obtain ⟨rfl, hrhs⟩ := Rule.mk.inj heq
      obtain ⟨init, last, rfl, rfl, hlast⟩ := List.map_eq_append_iff.mp hrhs
      obtain ⟨x, rfl, rfl⟩ := List.map_eq_singleton_iff.mp hlast
      have hne' : init ≠ [] := fun hnil => hne (by rw [hnil]; rfl)
      exact ⟨_, (hsplit.rules _).mpr (.long hne' hrule'), hlong hne' hrule'⟩
  · rintro ⟨rule', hrule', rfl⟩
    rw [hsplit'.rules]
    cases (hsplit.rules rule').mp hrule' with
    | short hshort hlength =>
      exact .short (hrenamed.map_mem_rules hshort) (by rwa [Rule.map, List.length_map])
    | @definition block rhs hblock hdefines =>
      rw [Rule.map, hcarries block (Or.inl hblock)]
      exact .definition (hrenamed.map_mem_blocks hblock) (defines_map hcarries hg hblock hdefines)
    | @long lhs s block hne hrule =>
      have hne' : block.map f ≠ [] := fun hnil => hne (List.map_eq_nil_iff.mp hnil)
      have hrule'' := hrenamed.map_mem_rules hrule
      rw [Rule.map, List.map_append] at hrule''
      rw [hlong hne hrule]
      exact .long hne' hrule''

/-- Splittings of renamed grammars differ by a renaming. -/
theorem splitBy : g'.RenamedBy f h' where
  start := by
    rw [hsplit.start, hsplit'.start]
    exact hrenamed.start
  nonterminals := hrenamed.bijOn_nonterminals_split hh hg hsplit hsplit' hcarries
  terminals := by
    rw [hsplit.terminals, hsplit'.terminals]
    exact hrenamed.terminals
  fixes := by
    rw [hsplit.terminals]
    exact hrenamed.fixes
  rules _ := hrenamed.mem_rules_split_iff hh hg hsplit hsplit' hcarries

end Split

end RenamedBy

end Grammar

end Chomsky
