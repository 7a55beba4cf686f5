/-!
Finite maps that keep the order in which their keys were first set. Setting a key again replaces its
value in place.
-/
namespace TargetSelector

/-- A map as its entries in order. The operations keep distinct keys distinct. -/
abbrev OrderedMap (κ α : Type) := List (κ × α)

namespace OrderedMap

variable {κ α β : Type}

def keys (m : OrderedMap κ α) : List κ := m.map (·.1)

@[simp] theorem keys_nil : keys ([] : OrderedMap κ α) = [] := rfl

@[simp] theorem keys_cons (e : κ × α) (m : OrderedMap κ α) : keys (e :: m) = e.1 :: keys m := rfl

@[simp] theorem keys_append (m n : OrderedMap κ α) : keys (m ++ n) = keys m ++ keys n :=
  List.map_append

variable [DecidableEq κ]

def get? (k : κ) : OrderedMap κ α → Option α
  | [] => none
  | (l, a) :: m => if l = k then some a else get? k m

/-- Sets the value at `k` to `f` of the value there; a new key goes to the end. -/
def alter (k : κ) (f : Option α → α) : OrderedMap κ α → OrderedMap κ α
  | [] => [(k, f none)]
  | (l, a) :: m => if l = k then (l, f (some a)) :: m else (l, a) :: alter k f m

def insert (k : κ) (a : α) (m : OrderedMap κ α) : OrderedMap κ α :=
  m.alter k fun _ => a

/-- Sets the entries of a list one after the other. -/
def ofList (es : List (κ × α)) : OrderedMap κ α :=
  es.foldl (fun m e => m.insert e.1 e.2) []

/-- Equal sizes, and each entry of `m` is found in `n` with an `eq` value. -/
def eqv (eq : α → α → Bool) (m n : OrderedMap κ α) : Bool :=
  m.length = n.length && m.all fun (k, a) => match get? k n with
    | some b => eq a b
    | none => false

theorem get?_alter (k l : κ) (f : Option α → α) (m : OrderedMap κ α) :
    get? l (m.alter k f) = if k = l then some (f (get? k m)) else get? l m := by
  induction m with
  | nil => simp [alter, get?]
  | cons e m ih =>
    by_cases h : e.1 = k <;> by_cases hl : k = l <;> grind [alter, get?]

theorem keys_alter (k : κ) (f : Option α → α) (m : OrderedMap κ α) :
    keys (m.alter k f) = if k ∈ keys m then keys m else keys m ++ [k] := by
  induction m with
  | nil => simp only [alter, keys_cons, keys_nil, List.not_mem_nil, ↓reduceIte, List.nil_append]
  | cons e m ih =>
    by_cases h : e.1 = k
    · simp [alter, h]
    · have h' : k ≠ e.1 := fun h' => h h'.symm
      simp only [alter, h, ↓reduceIte, keys_cons, ih, List.mem_cons, h', false_or]
      split <;> simp

theorem nodup_keys_alter (k : κ) (f : Option α → α) {m : OrderedMap κ α} (h : (keys m).Nodup) :
    (keys (m.alter k f)).Nodup := by
  rw [keys_alter]
  split
  · exact h
  · next hk =>
    simp only [List.nodup_append, h, List.mem_singleton, true_and]
    exact ⟨by simp, fun a ha b hb he => hk (by rwa [← hb, ← he])⟩

end OrderedMap

end TargetSelector
