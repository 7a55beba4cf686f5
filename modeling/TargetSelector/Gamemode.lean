import TargetSelector.UnknownName

/-! The mode of a player. -/
namespace TargetSelector

inductive Gamemode where
  | spectator | adventure | creative | survival
deriving DecidableEq

namespace Gamemode

def all : List Gamemode := [.spectator, .adventure, .creative, .survival]

def name : Gamemode → String
  | .spectator => "spectator"
  | .adventure => "adventure"
  | .creative => "creative"
  | .survival => "survival"

def parse (s : String) : Except UnknownName Gamemode :=
  match all.find? fun g => g.name = s with
  | some g => .ok g
  | none => .error ⟨.gamemode, s⟩

end Gamemode

end TargetSelector
