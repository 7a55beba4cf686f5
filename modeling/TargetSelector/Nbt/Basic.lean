import TargetSelector.Numeric.Binary
import TargetSelector.OrderedMap

/-!
Tagged data trees. Comparison by `eqv` is numeric on the floating-point leaves and ignores the order of
fields.
-/
namespace TargetSelector

inductive Nbt where
  | byte (value : Int8)
  | short (value : Int16)
  | int (value : Int32)
  | long (value : Int64)
  | float (value : Binary32)
  | double (value : Binary64)
  | string (value : String)
  | list (items : List Nbt)
  | compound (fields : List (String × Nbt))
  | byteArray (items : List Int8)
  | intArray (items : List Int32)
  | longArray (items : List Int64)

namespace Nbt

/-- Induction over trees. A list and a compound come with the hypothesis for each of their parts. -/
@[elab_as_elim, induction_eliminator]
theorem ind {motive : Nbt → Prop} (byte : ∀ v, motive (.byte v)) (short : ∀ v, motive (.short v))
    (int : ∀ v, motive (.int v)) (long : ∀ v, motive (.long v)) (float : ∀ v, motive (.float v))
    (double : ∀ v, motive (.double v)) (string : ∀ s, motive (.string s))
    (list : ∀ items, (∀ n ∈ items, motive n) → motive (.list items))
    (compound : ∀ fields, (∀ f ∈ fields, motive f.2) → motive (.compound fields))
    (byteArray : ∀ items, motive (.byteArray items)) (intArray : ∀ items, motive (.intArray items))
    (longArray : ∀ items, motive (.longArray items)) (n : Nbt) : motive n := by
  refine @Nbt.rec motive (fun items => ∀ n ∈ items, motive n)
    (fun fields => ∀ f ∈ fields, motive f.2) (fun f => motive f.2) byte short int long float double
    string list compound byteArray intArray longArray ?_ ?_ ?_ ?_ ?_ n
  · intro n hn
    cases hn
  · intro m items hm hitems n hn
    rcases List.mem_cons.1 hn with rfl | hn
    · exact hm
    · exact hitems n hn
  · intro f hf
    cases hf
  · intro g fields hg hfields f hf
    rcases List.mem_cons.1 hf with rfl | hf
    · exact hg
    · exact hfields f hf
  · intro name value hvalue
    exact hvalue

def ofBool (b : Bool) : Nbt := .byte (if b then 1 else 0)

/-- Sets a field of a compound; other trees stay as they are. -/
def withField (n : Nbt) (key : String) (value : Nbt) : Nbt :=
  match n with
  | .compound fields => .compound (OrderedMap.insert key value fields)
  | n => n

mutual

def eqv : Nbt → Nbt → Bool
  | .byte v, .byte w => v = w
  | .short v, .short w => v = w
  | .int v, .int w => v = w
  | .long v, .long w => v = w
  | .float v, .float w => v.ieeeEq w
  | .double v, .double w => v.ieeeEq w
  | .string v, .string w => v = w
  | .list xs, .list ys => eqvItems xs ys
  | .compound fs, .compound gs => fs.length = gs.length && eqvFields fs gs
  | .byteArray xs, .byteArray ys => xs = ys
  | .intArray xs, .intArray ys => xs = ys
  | .longArray xs, .longArray ys => xs = ys
  | _, _ => false
termination_by structural n => n

def eqvItems : List Nbt → List Nbt → Bool
  | [], [] => true
  | x :: xs, y :: ys => x.eqv y && eqvItems xs ys
  | _, _ => false
termination_by structural xs => xs

/-- Each field on the left has an equal field on the right. -/
def eqvFields : List (String × Nbt) → List (String × Nbt) → Bool
  | [], _ => true
  | (key, value) :: fs, gs =>
    (match OrderedMap.get? key gs with
      | some w => value.eqv w
      | none => false) && eqvFields fs gs
termination_by structural fs => fs

end

end Nbt

end TargetSelector
