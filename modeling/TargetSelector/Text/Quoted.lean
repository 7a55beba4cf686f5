import TargetSelector.Text.Unprintable

/-! Quoted text, as error messages show it. -/
namespace TargetSelector

/-- A character inside quoted text. -/
def quotedChar (c : Char) : List Char :=
  if c = '"' then ['\\', '"']
  else if c = '\\' then ['\\', '\\']
  else if c = '\n' then ['\\', 'n']
  else if c = '\r' then ['\\', 'r']
  else if c = '\t' then ['\\', 't']
  else if c = '\x00' then ['\\', '0']
  else if isUnprintable c then ['\\', 'u', '\x7b'] ++ Nat.toDigits 16 c.toNat ++ ['\x7d']
  else [c]

def quoted (s : String) : String :=
  "\"" ++ String.ofList (s.toList.flatMap quotedChar) ++ "\""

example : quoted "a\"b\\'" = "\"a\\\"b\\\\'\"" := by decide +kernel
example : quoted "\u200b" = "\"\\u\x7b200b\x7d\"" := by decide +kernel

end TargetSelector
