import TargetSelector.UnknownName

/-! The kind of a selector, written as one letter after `@`. -/
namespace TargetSelector

inductive Target where
  | nearestPlayer | randomPlayer | allPlayers | entities | executor
deriving DecidableEq

namespace Target

def all : List Target := [.nearestPlayer, .randomPlayer, .allPlayers, .entities, .executor]

def tag : Target → Char
  | .nearestPlayer => 'p'
  | .randomPlayer => 'r'
  | .allPlayers => 'a'
  | .entities => 'e'
  | .executor => 's'

def text (t : Target) : String := String.singleton t.tag

def index (t : Target) : Nat := all.idxOf t

/-- The target of a tag that stands alone, in a table of its own. -/
def ofLetters? : List Char → Option Target
  | ['p'] => some .nearestPlayer
  | ['r'] => some .randomPlayer
  | ['a'] => some .allPlayers
  | ['e'] => some .entities
  | ['s'] => some .executor
  | _ => none

theorem ofLetters?_eq_some {cs : List Char} {t : Target} : ofLetters? cs = some t ↔ cs = [t.tag] := by
  constructor
  · intro h
    unfold ofLetters? at h
    split at h <;> cases h <;> rfl
  · rintro rfl
    cases t <;> rfl

def parse (s : String) : Except UnknownName Target :=
  let letters := match s.toList with
    | '@' :: r => r
    | cs => cs
  match ofLetters? letters with
  | some t => .ok t
  | none => .error ⟨.target, s⟩

end Target

end TargetSelector
