import Chomsky.Text.Decimal

/-!
# Journal of events

Reading and transforming grammars records what happened. An event belongs to a
part of the work, has a level of importance and can be put in words. A journaled
computation yields its events also when it fails: those up to the failure.
-/

namespace Chomsky

/-- How important an event is. -/
inductive Level where
  | info
  | debug
  | trace
deriving DecidableEq

/-- The part of the work that an event belongs to. -/
inductive Topic where
  | load
  | description
  | usefulness
  | nulling
  | unit
  | binarize
  | normalize
deriving DecidableEq

/-- What can happen. Numbers of rules are counted in whole grammars, and symbols are named. -/
inductive Event where
  /-- A text was read. -/
  | loaded (rules : Nat) (start : String)
  /-- A grammar was built from its description. -/
  | described (start : String) (nonterminals terminals rules : Nat)
  /-- Unproductive symbols were removed. -/
  | productivity (left total : Nat)
  /-- Unreachable symbols were removed. -/
  | reachability (left total : Nat)
  /-- The start symbol was replaced because it derives the empty word. -/
  | newStart (name : String)
  /-- Epsilon rules were eliminated. -/
  | nulling (left total nullable : Nat)
  /-- Unit rules were eliminated. -/
  | unitRules (left total : Nat)
  /-- A terminal got a nonterminal of its own. -/
  | wrapper (name terminal : String)
  /-- A pair of symbols got a nonterminal of its own. -/
  | helper (name left right : String)
  /-- Long rules were split. -/
  | binarization (rules total wrappers helpers : Nat)
  /-- The start symbol derives no word. -/
  | emptyLanguage (start : String)
  /-- A grammar was brought into normal form. -/
  | normalized (start : String) (before after : Nat)
deriving DecidableEq

namespace Event

def level : Event → Level
  | emptyLanguage .. => .info
  | loaded .. | newStart .. | wrapper .. | helper .. => .trace
  | described .. | productivity .. | reachability .. | nulling .. | unitRules ..
  | binarization .. | normalized .. => .debug

def topic : Event → Topic
  | loaded .. => .load
  | described .. => .description
  | productivity .. | reachability .. => .usefulness
  | newStart .. | nulling .. => .nulling
  | unitRules .. => .unit
  | wrapper .. | helper .. | binarization .. => .binarize
  | emptyLanguage .. | normalized .. => .normalize

open Text (decimal)

/-- A count of rules out of a total. -/
def rulesLeft (left total : Nat) : String :=
  decimal left ++ " rules left of " ++ decimal total

/-- The event in words. -/
def message : Event → String
  | loaded rules start => "loaded " ++ decimal rules ++ " rules for `" ++ start ++ "`"
  | described start nonterminals terminals rules =>
    "grammar for `" ++ start ++ "`: " ++ decimal nonterminals ++ " nonterminals, "
      ++ decimal terminals ++ " terminals, " ++ decimal rules ++ " rules"
  | productivity left total => "productivity: " ++ rulesLeft left total
  | reachability left total => "reachability: " ++ rulesLeft left total
  | newStart name => "new start symbol " ++ name
  | nulling left total nullable =>
    "nulling: " ++ rulesLeft left total ++ ", " ++ decimal nullable ++ " nullable symbols"
  | unitRules left total => "unit rules: " ++ rulesLeft left total
  | wrapper name terminal => "wrapper " ++ name ++ " for " ++ terminal
  | helper name left right => "helper " ++ name ++ " for " ++ left ++ " " ++ right
  | binarization rules total wrappers helpers =>
    "binarization: " ++ decimal rules ++ " rules from " ++ decimal total ++ ", "
      ++ decimal wrappers ++ " wrappers, " ++ decimal helpers ++ " helpers"
  | emptyLanguage start => "the language of `" ++ start ++ "` is empty"
  | normalized start before after =>
    "normalized `" ++ start ++ "`: " ++ decimal before ++ " rules in, "
      ++ decimal after ++ " rules out"

end Event

/-- The result of a computation together with the events up to its end. -/
structure Journaled (ε α : Type) where
  events : List Event
  outcome : Except ε α

namespace Journaled

variable {ε ε' α β : Type}

/-- Runs one computation after another. The second does not run if the first fails. -/
protected def bind (x : Journaled ε α) (f : α → Journaled ε β) : Journaled ε β :=
  match x.outcome with
  | .ok a => ⟨x.events ++ (f a).events, (f a).outcome⟩
  | .error e => ⟨x.events, .error e⟩

instance : Monad (Journaled ε) where
  pure a := ⟨[], .ok a⟩
  bind := Journaled.bind

/-- Records an event. -/
def record (event : Event) : Journaled ε Unit := ⟨[event], .ok ()⟩

/-- Records events from left to right. -/
def recordAll (events : List Event) : Journaled ε Unit := ⟨events, .ok ()⟩

/-- A result without events. -/
def ofExcept (outcome : Except ε α) : Journaled ε α := ⟨[], outcome⟩

/-- Changes the error of a failure. -/
def mapError (f : ε → ε') (x : Journaled ε α) : Journaled ε' α :=
  ⟨x.events, x.outcome.mapError f⟩

/-- The outcome does not depend on the recorded events. -/
@[simp]
theorem outcome_bind (x : Journaled ε α) (f : α → Journaled ε β) :
    (x >>= f).outcome = x.outcome >>= fun a => (f a).outcome := by
  show (Journaled.bind x f).outcome = _
  unfold Journaled.bind
  cases x.outcome <;> rfl

/-- A returned value is the outcome. -/
@[simp]
theorem outcome_pure (a : α) : (pure a : Journaled ε α).outcome = .ok a := rfl

/-- An event does not change the outcome. -/
@[simp]
theorem outcome_record (event : Event) : (record event : Journaled ε Unit).outcome = .ok () := rfl

/-- Events do not change the outcome. -/
@[simp]
theorem outcome_recordAll (events : List Event) :
    (recordAll events : Journaled ε Unit).outcome = .ok () := rfl

/-- A result without events is the outcome. -/
@[simp]
theorem outcome_ofExcept (outcome : Except ε α) : (ofExcept outcome).outcome = outcome := rfl

/-- Errors are replaced in the outcome. -/
@[simp]
theorem outcome_mapError (f : ε → ε') (x : Journaled ε α) :
    (x.mapError f).outcome = x.outcome.mapError f := rfl

end Journaled

/-- A composed computation succeeds exactly if both of its parts do. -/
theorem bind_eq_ok_iff {ε α β : Type} {x : Except ε α} {f : α → Except ε β} {b : β} :
    x >>= f = .ok b ↔ ∃ a, x = .ok a ∧ f a = .ok b := by
  cases x with
  | error e => simp [bind, Except.bind]
  | ok a => simp [bind, Except.bind]

/-- A composed computation fails as its first part does or, after that, as its second part
does. -/
theorem bind_eq_error_iff {ε α β : Type} {x : Except ε α} {f : α → Except ε β} {e : ε} :
    x >>= f = .error e ↔ x = .error e ∨ ∃ a, x = .ok a ∧ f a = .error e := by
  cases x with
  | error e => simp [bind, Except.bind]
  | ok a => simp [bind, Except.bind]

/-- With other errors a computation succeeds as before. -/
theorem mapError_eq_ok_iff {ε ε' α : Type} {f : ε → ε'} {x : Except ε α} {a : α} :
    x.mapError f = .ok a ↔ x = .ok a := by
  cases x with
  | error e => exact ⟨nofun, nofun⟩
  | ok b => exact ⟨fun h => congrArg Except.ok (Except.ok.inj h), fun h =>
      congrArg Except.ok (Except.ok.inj h)⟩

/-- An error stands for the one that it replaces. -/
theorem mapError_eq_error_iff {ε ε' α : Type} {f : ε → ε'} {x : Except ε α} {e : ε'} :
    x.mapError f = .error e ↔ ∃ e', x = .error e' ∧ f e' = e := by
  cases x with
  | error e' =>
    constructor
    · exact fun h => ⟨e', rfl, Except.error.inj h⟩
    · rintro ⟨_, ⟨⟩, rfl⟩
      rfl
  | ok b => exact ⟨nofun, nofun⟩

end Chomsky
