import TargetSelector.Json.Basic

/-!
Reading JSON text. The reader is strict, and a key that an object repeats has its last value, at the
place of the first. Each step of the reader takes at least one character, and the type of its result
says so.
-/
namespace TargetSelector

inductive ReadFault where
  | endOfText
  | unexpected
deriving DecidableEq

/-- Why a text is not JSON, and the line and the column, from one, of the first unread character. -/
structure ReadError where
  fault : ReadFault
  line : Nat
  column : Nat
deriving DecidableEq

def ReadFault.message : ReadFault → String
  | .endOfText => "unexpected end of text"
  | .unexpected => "unexpected character or number"

def ReadError.message (e : ReadError) : String :=
  e.fault.message ++ " at line " ++ e.line.repr ++ " column " ++ e.column.repr

/-- A fault, and how many characters were unread at that point. -/
structure Stop where
  fault : ReadFault
  unread : Nat

/-- The place in a text at which a reader stopped. -/
def Stop.locate (text : List Char) (e : Stop) : ReadError :=
  let before := text.take (text.length - e.unread)
  ⟨e.fault, before.count '\n' + 1, (before.reverse.takeWhile (· ≠ '\n')).length + 1⟩

/-- What was read from the front of `s`, and the rest. -/
structure Taken (α : Type) (s : List Char) where
  value : α
  rest : List Char
  shorter : rest.length < s.length

namespace Taken

variable {α β : Type}

def map (f : α → β) {s : List Char} (t : Taken α s) : Taken β s :=
  ⟨f t.value, t.rest, t.shorter⟩

def extend {s r : List Char} (t : Taken α s) (h : s.length ≤ r.length) : Taken α r :=
  ⟨t.value, t.rest, Nat.lt_of_lt_of_le t.shorter h⟩

end Taken

abbrev Reader (α : Type) := (s : List Char) → Except Stop (Taken α s)

namespace Reader

variable {α : Type}

/-- The error that the front of `s` is not what has to stand there. -/
def stuck (s : List Char) : Except Stop α :=
  .error ⟨if s.isEmpty then .endOfText else .unexpected, s.length⟩

def isBlank (c : Char) : Bool := c = ' ' || c = '\t' || c = '\r' || c = '\n'

def skipBlank (s : List Char) : List Char := s.dropWhile isBlank

theorem length_skipBlank (s : List Char) : (skipBlank s).length ≤ s.length :=
  (List.dropWhile_sublist _).length_le

theorem length_of_skipBlank {s r : List Char} {c : Char} (h : skipBlank s = c :: r) :
    r.length < s.length := by
  have := length_skipBlank s
  rw [h] at this
  exact this

def dropWord : List Char → List Char → Except Stop (List Char)
  | [], s => .ok s
  | _ :: _, [] => stuck []
  | c :: w, d :: s => if c = d then dropWord w s else stuck (d :: s)

theorem length_dropWord {w s r : List Char} (h : dropWord w s = .ok r) : r.length ≤ s.length := by
  fun_induction dropWord w s with
  | case1 s => cases h; exact Nat.le_refl _
  | case2 => cases h
  | case3 _ _ _ ih => exact Nat.le_succ_of_le (ih h)
  | case4 => cases h

/-! ### Strings -/

def hexDigit? (c : Char) : Option Nat :=
  if c.isDigit then some (c.toNat - '0'.toNat)
  else if 'a' ≤ c && c ≤ 'f' then some (c.toNat - 'a'.toNat + 10)
  else if 'A' ≤ c && c ≤ 'F' then some (c.toNat - 'A'.toNat + 10)
  else none

/-- Four hexadecimal digits. A rest of less than four bytes is a text that ends too early. -/
def hex4 : Reader Nat
  | a :: b :: c :: d :: r =>
    match hexDigit? a, hexDigit? b, hexDigit? c, hexDigit? d with
    | some a, some b, some c, some d =>
      .ok ⟨((a * 16 + b) * 16 + c) * 16 + d, r, by simp only [List.length_cons]; omega⟩
    | _, _, _, _ => stuck (a :: b :: c :: d :: r)
  | s => stuck (if (String.ofList s).utf8ByteSize < 4 then [] else s)

def isHighSurrogate (n : Nat) : Bool := 0xD800 ≤ n && n < 0xDC00

def isLowSurrogate (n : Nat) : Bool := 0xDC00 ≤ n && n < 0xE000

/-- The character of a code unit, or of two units that form a pair. -/
def codePoint (s : List Char) : Except Stop (Taken Char s) := do
  let t ← hex4 s
  if isLowSurrogate t.value then stuck s
  else if isHighSurrogate t.value then
    match h : t.rest with
    | '\\' :: 'u' :: r =>
      let u ← hex4 r
      if isLowSurrogate u.value then
        return ⟨Char.ofNat (0x10000 + (t.value - 0xD800) * 0x400 + (u.value - 0xDC00)), u.rest, by
          have := t.shorter
          have := u.shorter
          simp only [h, List.length_cons] at *
          omega⟩
      else stuck r
    | ['\\'] => stuck []
    | r => stuck r
  else return t.map Char.ofNat

/-- The character that a letter after a backslash stands for. -/
def escapeLetter? : Char → Option Char
  | '"' => some '"'
  | '\\' => some '\\'
  | '/' => some '/'
  | 'b' => some '\x08'
  | 'f' => some '\x0c'
  | 'n' => some '\n'
  | 'r' => some '\r'
  | 't' => some '\t'
  | _ => none

def escape : Reader Char
  | [] => stuck []
  | c :: r =>
    match escapeLetter? c with
    | some d => .ok ⟨d, r, by simp⟩
    | none => if c = 'u' then (codePoint r).map (·.extend (by simp)) else stuck (c :: r)

/-- The characters of a string up to the closing quote. -/
def stringChars (s : List Char) : Except Stop (Taken (List Char) s) :=
  match s with
  | [] => stuck []
  | c :: r =>
    if c = '"' then .ok ⟨[], r, by simp⟩
    else if c = '\\' then do
      let t ← escape r
      let u ← stringChars t.rest
      return ⟨t.value :: u.value, u.rest, by
        have := t.shorter
        have := u.shorter
        simp only [List.length_cons]
        omega⟩
    else if c < ' ' then stuck (c :: r)
    else do
      let u ← stringChars r
      return ⟨c :: u.value, u.rest, Nat.lt_succ_of_lt u.shorter⟩
termination_by s.length
decreasing_by
  · exact Nat.lt_succ_of_lt t.shorter
  · simp

def string (s : List Char) : Except Stop (Taken String s) :=
  (stringChars s).map (·.map String.ofList)

/-! ### Numbers -/

def digits (s : List Char) : Except Stop (Taken (List Nat) s) :=
  match h : s with
  | [] => stuck []
  | c :: r =>
    if hc : c.isDigit then
      .ok ⟨(splitDigits s).1, (splitDigits s).2, by
        have := (List.dropWhile_sublist Char.isDigit (l := r)).length_le
        simp only [splitDigits, h, List.dropWhile_cons, hc, ↓reduceIte, List.length_cons]
        omega⟩
    else stuck s

/-- The digits before the point. No zero stands before another digit. -/
def whole (s : List Char) : Except Stop (Taken (List Nat) s) := do
  let t ← digits s
  match t.value with
  | 0 :: _ :: _ => stuck (s.drop 1)
  | _ => return t

/-- Reads on with a fraction, if a point follows. -/
def withFraction {s : List Char} (t : Taken Numeral s) : Except Stop (Taken Numeral s) :=
  match h : t.rest with
  | '.' :: r => do
    let u ← digits r
    return ⟨{ t.value with fraction := some u.value }, u.rest, by
      have := t.shorter
      have := u.shorter
      simp only [h, List.length_cons] at *
      omega⟩
  | _ => return t

theorem length_splitSign (s : List Char) : (splitSign s).2.length ≤ s.length := by
  unfold splitSign
  split <;> simp

def withExponent {s : List Char} (t : Taken Numeral s) : Except Stop (Taken Numeral s) :=
  match h : t.rest with
  | c :: r =>
    if c = 'e' || c = 'E' then do
      let u ← digits (splitSign r).2
      let e : Int := ofDigits 0 u.value
      return ⟨{ t.value with exponent := some (if (splitSign r).1 then -e else e) }, u.rest, by
        have := t.shorter
        have := u.shorter
        have := length_splitSign r
        simp only [h, List.length_cons] at *
        omega⟩
    else return t
  | [] => return t

def unsigned (negative : Bool) (s : List Char) : Except Stop (Taken JsonNumber s) := do
  let t ← whole s
  let t ← withFraction (t.map fun ds => ⟨negative, ds, none, none⟩)
  let t ← withExponent t
  match JsonNumber.ofNumeral? t.value with
  | some n => return t.map fun _ => n
  | none => .error ⟨.unexpected, t.rest.length⟩

def number : Reader JsonNumber
  | '-' :: r => (unsigned true r).map (·.extend (by simp))
  | s => unsigned false s

/-! ### Values -/

/-- A value whose word goes on with `letters` after its first letter `c`. -/
def word (letters : String) (v : Json) (c : Char) (r : List Char) :
    Except Stop (Taken Json (c :: r)) :=
  match h : dropWord letters.toList r with
  | .ok rest => .ok ⟨v, rest, Nat.lt_succ_of_le (length_dropWord h)⟩
  | .error e => .error e

/-- A value that is no container, with no blanks before it. -/
def plain : Reader Json
  | [] => stuck []
  | c :: r =>
    if c = 'n' then word "ull" .null c r
    else if c = 't' then word "rue" (.bool true) c r
    else if c = 'f' then word "alse" (.bool false) c r
    else if c = '"' then (string r).map fun t => (t.map Json.string).extend (by simp)
    else if c = '-' || c.isDigit then (number (c :: r)).map (·.map Json.number)
    else stuck (c :: r)

/-- Items with commas between them, and the closing bracket. -/
def separated (close : Char) (read : Reader α) (s : List Char) :
    Except Stop (Taken (List α) s) := do
  let t ← read s
  match h : skipBlank t.rest with
  | [] => stuck []
  | c :: r =>
    have hr := Nat.lt_trans (length_of_skipBlank h) t.shorter
    if c = close then return ⟨[t.value], r, hr⟩
    else if c = ',' then do
      let u ← separated close read r
      return ⟨t.value :: u.value, u.rest, Nat.lt_trans u.shorter hr⟩
    else stuck (c :: r)
termination_by s.length

/-- The items of a container after its opening bracket. -/
def items (close : Char) (read : Reader α) (s : List Char) : Except Stop (Taken (List α) s) :=
  match h : skipBlank s with
  | [] => stuck []
  | c :: r =>
    if c = close then .ok ⟨[], r, length_of_skipBlank h⟩
    else separated close read s

/-- A member of an object: a key in quotes, a colon and a value. -/
def member (read : Reader α) (s : List Char) : Except Stop (Taken (String × α) s) :=
  match h : skipBlank s with
  | '"' :: r => do
    let key ← string r
    match h' : skipBlank key.rest with
    | ':' :: r' =>
      let t ← read r'
      return ⟨(key.value, t.value), t.rest, by
        have := length_of_skipBlank h
        have := length_of_skipBlank h'
        have := key.shorter
        have := t.shorter
        omega⟩
    | r' => stuck r'
  | r => stuck r

/-- One value, with blanks before it. At most `room` containers may open inside one another. -/
def value : Nat → Reader Json
  | 0, s => (plain (skipBlank s)).map (·.extend (length_skipBlank s))
  | room + 1, s =>
    match h : skipBlank s with
    | '[' :: r =>
      (items ']' (value room) r).map fun t =>
        (t.map Json.array).extend (Nat.le_of_lt (length_of_skipBlank h))
    | '\x7b' :: r =>
      (items '\x7d' (member (value room)) r).map fun t =>
        (t.map fun ms => Json.object (OrderedMap.ofList ms)).extend
          (Nat.le_of_lt (length_of_skipBlank h))
    | _ => (plain (skipBlank s)).map (·.extend (length_skipBlank s))

end Reader

/-- The greatest number of containers that are open at a time. -/
def Json.maxDepth : Nat := 127

def Json.parse (text : String) : Except ReadError Json :=
  Except.mapError (Stop.locate text.toList) do
    let t ← Reader.value Json.maxDepth text.toList
    match Reader.skipBlank t.rest with
    | [] => return t.value
    | r => Reader.stuck r

end TargetSelector
