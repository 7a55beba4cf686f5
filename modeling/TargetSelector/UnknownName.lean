import TargetSelector.Text.Quoted

/-! The error of reading a name from a closed set. It keeps the whole text that was given. -/
namespace TargetSelector

/-- The closed sets of names. -/
inductive NameKind where
  | target | entityType | sortOrder | gamemode
deriving DecidableEq

def NameKind.label : NameKind → String
  | .target => "selector target"
  | .entityType => "entity type"
  | .sortOrder => "sort order"
  | .gamemode => "gamemode"

structure UnknownName where
  kind : NameKind
  given : String
deriving DecidableEq

def UnknownName.message (e : UnknownName) : String :=
  "unknown " ++ e.kind.label ++ ": " ++ quoted e.given

end TargetSelector
