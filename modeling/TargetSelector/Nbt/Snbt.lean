import TargetSelector.Nbt.Basic
import TargetSelector.Numeric.Shortest

/-!
Stringified NBT. A suffix letter tells the width of a number, and a field name stands bare if all its
characters allow it.
-/
namespace TargetSelector

namespace Nbt

def isBareChar (c : Char) : Bool :=
  c.isAlphanum || c = '_' || c = '-' || c = '.' || c = '+'

def isBareName (name : String) : Bool :=
  !name.toList.isEmpty && name.toList.all isBareChar

def escapedChar (c : Char) : List Char :=
  if c = '"' || c = '\\' then ['\\', c] else [c]

def quotedText (s : String) : String :=
  "\"" ++ String.ofList (s.toList.flatMap escapedChar) ++ "\""

def nameText (name : String) : String :=
  if isBareName name then name else quotedText name

/-- A typed array: its letter and its items, each with the suffix of the item's width. -/
def arrayText (letter suffix : String) (items : List Int) : String :=
  "[" ++ letter ++ ";" ++ ",".intercalate (items.map fun i => i.repr ++ suffix) ++ "]"

mutual

def text : Nbt → String
  | .byte v => v.toInt.repr ++ "b"
  | .short v => v.toInt.repr ++ "s"
  | .int v => v.toInt.repr
  | .long v => v.toInt.repr ++ "L"
  | .float v => v.text ++ "f"
  | .double v => v.text ++ "d"
  | .string s => quotedText s
  | .list items => "[" ++ ",".intercalate (itemTexts items) ++ "]"
  | .compound fields => "\x7b" ++ ",".intercalate (fieldTexts fields) ++ "\x7d"
  | .byteArray items => arrayText "B" "b" (items.map Int8.toInt)
  | .intArray items => arrayText "I" "" (items.map Int32.toInt)
  | .longArray items => arrayText "L" "L" (items.map Int64.toInt)
termination_by structural n => n

def itemTexts : List Nbt → List String
  | [] => []
  | n :: items => n.text :: itemTexts items
termination_by structural items => items

def fieldTexts : List (String × Nbt) → List String
  | [] => []
  | (name, value) :: fields => (nameText name ++ ":" ++ value.text) :: fieldTexts fields
termination_by structural fields => fields

end

theorem itemTexts_eq_map (items : List Nbt) : itemTexts items = items.map text := by
  induction items with
  | nil => rfl
  | cons n items ih => simp [itemTexts, ih]

theorem fieldTexts_eq_map (fields : List (String × Nbt)) :
    fieldTexts fields = fields.map fun f => nameText f.1 ++ ":" ++ f.2.text := by
  induction fields with
  | nil => rfl
  | cons f fields ih => simp [fieldTexts, ih]

/-! The same texts, character by character. -/

theorem toList_quotedText (s : String) :
    (quotedText s).toList = '"' :: (s.toList.flatMap escapedChar ++ ['"']) := by
  simp [quotedText]

theorem toList_arrayText (letter suffix : String) (items : List Int) :
    (arrayText letter suffix items).toList = '[' :: (letter.toList ++ ';' ::
      ((",".intercalate (items.map fun i => i.repr ++ suffix)).toList ++ [']'])) := by
  generalize htexts : (items.map fun i => i.repr ++ suffix) = texts
  rw [arrayText, htexts]
  simp only [String.toList_append, List.append_assoc]
  rfl

theorem toList_text_list (items : List Nbt) :
    (list items).text.toList = '[' :: ((",".intercalate (items.map text)).toList ++ [']']) := by
  rw [text, itemTexts_eq_map, String.toList_append, String.toList_append, List.append_assoc]
  rfl

theorem toList_text_compound (fields : List (String × Nbt)) :
    (compound fields).text.toList = '\x7b' ::
      ((",".intercalate (fields.map fun f => nameText f.1 ++ ":" ++ f.2.text)).toList ++ ['\x7d']) := by
  rw [text, fieldTexts_eq_map, String.toList_append, String.toList_append, List.append_assoc]
  rfl

end Nbt

end TargetSelector
