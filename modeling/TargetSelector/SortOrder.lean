import TargetSelector.UnknownName

/-! The order in which matches are taken before a limit cuts them off. -/
namespace TargetSelector

inductive SortOrder where
  | nearest | furthest | random | arbitrary
deriving DecidableEq

namespace SortOrder

def all : List SortOrder := [.nearest, .furthest, .random, .arbitrary]

def name : SortOrder → String
  | .nearest => "nearest"
  | .furthest => "furthest"
  | .random => "random"
  | .arbitrary => "arbitrary"

def parse (s : String) : Except UnknownName SortOrder :=
  match all.find? fun o => o.name = s with
  | some o => .ok o
  | none => .error ⟨.sortOrder, s⟩

end SortOrder

end TargetSelector
