import TargetSelector.Proofs.Nbt.OfJson
import TargetSelector.Proofs.Numeric.Whole

/-!
The texts that the numbers of JSON get, read off the JSON itself. The place of a number decides: by
itself, as a bound of a range or in NBT.
-/
namespace TargetSelector

namespace JsonNumber

/-- The text of a number by itself. -/
def scalarText : JsonNumber → String
  | .integer n _ => if n < 0x8000000000000000 then n.repr else (Binary.ofInt n : Binary64).text
  | .float x _ => x.canonical.text

/-- The text of a number that bounds a range or is one. -/
def boundText : JsonNumber → String
  | .integer n _ => if n.natAbs ≤ 0x20000000000000 then n.repr else (Binary.ofInt n : Binary64).text
  | .float x _ => x.canonical.text

/-- The text of a number in NBT. -/
def nbtText : JsonNumber → String
  | .integer n _ =>
    if n < 0x8000000000000000 then
      n.repr ++ if -0x80000000 ≤ n ∧ n < 0x80000000 then "" else "L"
    else (Binary.ofInt n : Binary64).text ++ "d"
  | .float x _ => x.text ++ "d"

/-- An integer of at most 53 bits, or the power of two next to these, is written alike as an integer and
as a floating-point value. -/
theorem text_ofInt {n : Int} (h : n.natAbs ≤ 0x20000000000000) :
    (Binary.ofInt n : Binary64).text = n.repr := by
  refine Binary.text_ofInt (Binary.isFinite_ofInt (m := 54) (by decide) ?_ (by decide)) h
  exact Nat.lt_of_le_of_lt h (by decide)

theorem text_toBinary (n : JsonNumber) : n.toBinary.canonical.text = n.boundText := by
  cases n with
  | integer n range =>
    rw [toBinary, Binary.canonical_ofInt, boundText]
    split
    · next h => exact text_ofInt h
    · rfl
  | float x finite => rfl

theorem boundText_eq_iff {n m : JsonNumber} :
    n.boundText = m.boundText ↔ n.toBinary.ieeeEq m.toBinary := by
  have hnan : n.toBinary ≠ .nan := by
    intro h
    have hfinite := n.isFinite_toBinary
    rw [h] at hfinite
    cases hfinite
  rw [Binary.ieeeEq_iff_canonical, ← text_toBinary, ← text_toBinary]
  constructor
  · intro h
    exact ⟨hnan, Binary.text_injective h⟩
  · intro h
    rw [h.2]

section Integer

variable {n : Int} {range : -0x8000000000000000 ≤ n ∧ n < 0x10000000000000000}

theorem signed?_of_lt (h : n < 0x8000000000000000) : (integer n range).signed? = some n := if_pos h

theorem signed?_of_not_lt (h : ¬ n < 0x8000000000000000) : (integer n range).signed? = none := if_neg h

end Integer

private theorem display_of_scalar? {n : JsonNumber} {a : ArgumentValue}
    (h : ArgumentValue.scalar? (.number n) = some a) : a.display = n.scalarText := by
  rw [ArgumentValue.scalar?, toInt64?_eq] at h
  cases n with
  | float x finite =>
    cases h
    rfl
  | integer n range =>
    rw [scalarText]
    split
    · next hn =>
      rw [signed?_of_lt hn] at h
      cases h
      have hint : (Int64.ofInt n).toInt = n := Int64.toInt_ofInt_of_le range.1 hn
      exact congrArg Int.repr hint
    · next hn =>
      rw [signed?_of_not_lt hn] at h
      cases h
      exact congrArg Binary.text (Binary.canonical_ofInt n)

theorem text_ofNumber (n : JsonNumber) : (Nbt.ofNumber n).text = n.nbtText := by
  cases n with
  | float x finite => rw [Nbt.ofNumber_of_not_signed? rfl, Nbt.text, nbtText, toBinary]
  | integer n range =>
    rw [nbtText]
    split
    · next hn => rw [Nbt.ofNumber_of_signed? (signed?_of_lt hn), Nbt.text_ofSigned ⟨range.1, hn⟩]
    · next hn => rw [Nbt.ofNumber_of_not_signed? (signed?_of_not_lt hn), Nbt.text, toBinary]

end JsonNumber

namespace Json

def bound? (name : String) (members : List (String × Json)) : Option JsonNumber :=
  match OrderedMap.get? name members with
  | some (.number n) => some n
  | _ => none

/-- The text of a range with these bounds. Bounds with the same text are one value. -/
def boundsText : Option JsonNumber → Option JsonNumber → String
  | some lo, some hi =>
    if lo.boundText = hi.boundText then lo.boundText else lo.boundText ++ ".." ++ hi.boundText
  | some lo, none => lo.boundText ++ ".."
  | none, some hi => ".." ++ hi.boundText
  | none, none => ""

/-- The text of a range. JSON of another kind has none. -/
def rangeText : Json → String
  | .number n => n.boundText
  | .object members => boundsText (bound? "min" members) (bound? "max" members)
  | _ => ""

mutual

/-- The text of data in NBT. The null has none. -/
def nbtText : Json → String
  | .null => ""
  | .bool b => if b then "1b" else "0b"
  | .number n => n.nbtText
  | .string s => Nbt.quotedText s
  | .array items => "[" ++ ",".intercalate (nbtItemTexts items) ++ "]"
  | .object members => "\x7b" ++ ",".intercalate (nbtMemberTexts members) ++ "\x7d"
termination_by structural v => v

def nbtItemTexts : List Json → List String
  | [] => []
  | v :: items => v.nbtText :: nbtItemTexts items
termination_by structural items => items

def nbtMemberTexts : List (String × Json) → List String
  | [] => []
  | (name, v) :: members => (Nbt.nameText name ++ ":" ++ v.nbtText) :: nbtMemberTexts members
termination_by structural members => members

end

theorem nbtItemTexts_eq_map (items : List Json) : nbtItemTexts items = items.map nbtText := by
  induction items with
  | nil => rfl
  | cons v items ih => rw [nbtItemTexts, ih, List.map_cons]

theorem nbtMemberTexts_eq_map (members : List (String × Json)) :
    nbtMemberTexts members = members.map fun m => Nbt.nameText m.1 ++ ":" ++ m.2.nbtText := by
  induction members with
  | nil => rfl
  | cons m members ih => rw [nbtMemberTexts, ih, List.map_cons]

end Json

theorem map_eq_map_of_forall₂ {α β γ : Type} {R : α → β → Prop} {f : α → γ} {g : β → γ} {xs : List α}
    {ys : List β} (h : xs.Forall₂ R ys) (hfg : ∀ x ∈ xs, ∀ y, R x y → g y = f x) :
    ys.map g = xs.map f := by
  induction h with
  | nil => rfl
  | @cons x y xs ys hxy _ ih =>
    rw [List.map_cons, List.map_cons, hfg x List.mem_cons_self y hxy,
      ih fun z hz => hfg z (List.mem_cons_of_mem x hz)]

theorem Range.eq_of_bound {name : String} {members : List (String × Json)} {x? : Option Binary64}
    (h : bound name members = .ok x?) : x? = (Json.bound? name members).map JsonNumber.toBinary := by
  unfold bound at h
  unfold Json.bound?
  cases hget : OrderedMap.get? name members with
  | none =>
    rw [hget] at h
    cases h
    rfl
  | some v =>
    rw [hget] at h
    cases v <;> cases h <;> rfl

private theorem Range.text_of_ofJson {v : Json} {r : Range} (h : ofJson v = .ok r) :
    r.text = v.rangeText := by
  cases v with
  | number n =>
    cases h
    exact n.text_toBinary
  | object members =>
    obtain ⟨lo, hlo, h⟩ := bind_eq_ok.1 h
    obtain ⟨hi, hhi, h⟩ := bind_eq_ok.1 h
    rw [eq_of_bound hlo, eq_of_bound hhi] at h
    rw [Json.rangeText]
    cases hmin : Json.bound? "min" members with
    | none =>
      cases hmax : Json.bound? "max" members with
      | none =>
        rw [hmin, hmax] at h
        cases h
      | some m =>
        rw [hmin, hmax] at h
        cases h
        rw [text, m.text_toBinary, Json.boundsText]
    | some n =>
      cases hmax : Json.bound? "max" members with
      | none =>
        rw [hmin, hmax] at h
        cases h
        rw [text, n.text_toBinary, Json.boundsText]
      | some m =>
        rw [hmin, hmax] at h
        cases h
        rw [Json.boundsText]
        simp only [JsonNumber.boundText_eq_iff]
        split
        · exact n.text_toBinary
        · rw [text, n.text_toBinary, m.text_toBinary]
  | _ => cases h

private theorem Nbt.text_of_ofJson? {v : Json} {a : Nbt} (h : ofJson? v = some a) :
    a.text = v.nbtText := by
  induction v generalizing a with
  | null => cases h
  | bool b =>
    cases h
    cases b <;> rfl
  | number n =>
    rw [ofJson?_number] at h
    obtain rfl := Option.some.inj h
    rw [n.text_ofNumber, Json.nbtText]
  | string s =>
    cases h
    rw [text, Json.nbtText]
  | array items ih =>
    obtain ⟨ns, hns, rfl⟩ := Option.map_eq_some_iff.1 h
    have htexts : ns.map text = items.map Json.nbtText :=
      map_eq_map_of_forall₂ (ofItems?_eq_some.1 hns) fun v hv n hn => ih v hv hn
    rw [text, itemTexts_eq_map, htexts, Json.nbtText, Json.nbtItemTexts_eq_map]
  | object members ih =>
    obtain ⟨fields, hfields, rfl⟩ := Option.map_eq_some_iff.1 h
    rw [ofMembers?_eq] at hfields
    have htexts : (fields.map fun f => nameText f.1 ++ ":" ++ f.2.text) =
        members.map fun m => nameText m.1 ++ ":" ++ m.2.nbtText := by
      apply map_eq_map_of_forall₂ (ArgumentValue.mapMembers?_eq_some.1 hfields)
      intro m hm f hf
      rw [hf.1, ih m hm hf.2]
    rw [text, fieldTexts_eq_map, htexts, Json.nbtText, Json.nbtMemberTexts_eq_map]

/-- What the segments of a key have to be for the numbers in its JSON. JSON without numbers may have any
segments. -/
inductive ArgumentKey.PrintsNumbers : ArgumentKey → Json → List String → Prop where
  | number {key : ArgumentKey} (hkey : key.shape = .scalar ∨ key.shape = .anything) (n : JsonNumber) :
    PrintsNumbers key (.number n) [key.assign n.scalarText]
  | range {key : ArgumentKey} {v : Json}
    (hkey : key.shape = .range ∨ key.shape = .scalar ∧ ∃ members, v = .object members) :
    PrintsNumbers key v [key.assign v.rangeText]
  | scores (members : List (String × Json)) :
    PrintsNumbers (.known .scores) (.object members)
      (if members = [] then [] else [(known .scores).assign (braced Json.rangeText members)])
  | nbt (members : List (String × Json)) :
    PrintsNumbers (.known .nbt) (.object members)
      [(known .nbt).assign (Json.object members).nbtText]
  | numberless {key : ArgumentKey} {v : Json} (hv : ∀ n, ¬ v.Contains (.number n))
    (ss : List String) : PrintsNumbers key v ss

theorem ArgumentKey.PrintsNumbers.eq_of_number {key : ArgumentKey} {n : JsonNumber} {ss : List String}
    (hkey : key.shape = .scalar) (h : key.PrintsNumbers (.number n) ss) :
    ss = [key.assign n.scalarText] := by
  cases h with
  | number _ n => rfl
  | range hrange =>
    rcases hrange with hrange | ⟨-, members, hmembers⟩
    · cases hkey.symm.trans hrange
    · cases hmembers
  | numberless hv ss => exact absurd (.self _) (hv n)

theorem ArgumentKey.PrintsNumbers.eq_of_nbt {members : List (String × Json)} {n : JsonNumber}
    {ss : List String} (hn : (Json.object members).Contains (.number n))
    (h : (ArgumentKey.known .nbt).PrintsNumbers (.object members) ss) :
    ss = [(ArgumentKey.known .nbt).assign (Json.object members).nbtText] := by
  cases h with
  | range hkey =>
    have hshape : (ArgumentKey.known .nbt).shape = .nbt := rfl
    rw [hshape] at hkey
    rcases hkey with hkey | ⟨hkey, -⟩ <;> cases hkey
  | nbt => rfl
  | numberless hv ss => exact absurd hn (hv n)

theorem Json.IsFlags.not_contains_number {v : Json} (h : v.IsFlags) (n : JsonNumber) :
    ¬ v.Contains (.number n) := by
  obtain ⟨members, rfl, hmembers⟩ := h
  intro hcontains
  cases hcontains with
  | member hm hcontains =>
    obtain ⟨b, hb⟩ := hmembers _ hm
    rw [hb] at hcontains
    cases hcontains

namespace ArgumentValue

theorem text_of_range? {v : Json} {r : Range} (h : range? v = some r) : r.text = v.rangeText := by
  apply Range.text_of_ofJson
  unfold range? at h
  cases hr : Range.ofJson v with
  | error e =>
    rw [hr] at h
    cases h
  | ok q =>
    rw [hr] at h
    cases h
    rfl

theorem printsNumbers_of_scalar? {key : ArgumentKey} {n : JsonNumber} {a : ArgumentValue}
    (hkey : key.shape = .scalar ∨ key.shape = .anything) (h : scalar? (.number n) = some a) :
    key.PrintsNumbers (.number n) ((a.texts key.shape).map key.assign) := by
  have htexts : a.texts key.shape = [a.display] := by
    rcases hkey with hkey | hkey <;> rw [hkey] <;>
      exact texts_eq_display (by decide) (Or.inl (by decide)) (Or.inl (by decide))
  rw [htexts, JsonNumber.display_of_scalar? h]
  exact .number hkey n

theorem printsNumbers_of_range? {key : ArgumentKey} {v : Json} {r : Range}
    (hkey : key.shape = .range ∨ key.shape = .scalar ∧ ∃ members, v = .object members)
    (h : range? v = some r) :
    key.PrintsNumbers v (((ArgumentValue.range r).texts key.shape).map key.assign) := by
  have htexts : (ArgumentValue.range r).texts key.shape = [r.text] := by
    rcases hkey with hkey | ⟨hkey, -⟩ <;> rw [hkey] <;> rfl
  rw [htexts, text_of_range? h]
  exact .range hkey

private theorem braced_of_mapMembers? {members : List (String × Json)} {m : OrderedMap String Range}
    (h : mapMembers? range? members = some m) :
    braced Range.text m = braced Json.rangeText members := by
  have hentries : (m.map fun e => e.1 ++ "=" ++ e.2.text) =
      members.map fun d => d.1 ++ "=" ++ d.2.rangeText := by
    apply map_eq_map_of_forall₂ (mapMembers?_eq_some.1 h)
    intro d hd e he
    rw [he.1, text_of_range? he.2]
  rw [braced, hentries, braced]

private theorem printsNumbers_of_scores {members : List (String × Json)} {m : OrderedMap String Range}
    (h : mapMembers? range? members = some m) :
    (ArgumentKey.known .scores).PrintsNumbers (.object members)
      (((ArgumentValue.scores m).texts .scores).map (ArgumentKey.known .scores).assign) := by
  have htexts : (ArgumentValue.scores m).texts .scores =
      if members = [] then [] else [braced Json.rangeText members] := by
    rw [← braced_of_mapMembers? h]
    cases members with
    | nil =>
      cases h
      rfl
    | cons d members =>
      cases m with
      | nil => cases mapMembers?_eq_some.1 h
      | cons e m => rfl
  rw [htexts, apply_ite (List.map _)]
  exact .scores members

private theorem printsNumbers_of_ofShape? {key : ArgumentKey} {v : Json} {a : ArgumentValue}
    (htakes : key.TakesJson v) (h : ofShape? key.shape v = some a) :
    key.PrintsNumbers v ((a.texts key.shape).map key.assign) := by
  cases htakes with
  | @number k hk n =>
    have hshape : k.shape = .scalar := Shape.mem_keys_iff.1 hk
    refine printsNumbers_of_scalar? (Or.inl hshape) ?_
    rw [ArgumentKey.shape, hshape] at h
    exact h
  | @range k hk _ hv =>
    rcases List.mem_append.1 hk with hk | hk
    · have hshape : k.shape = .scalar := Shape.mem_keys_iff.1 hk
      cases v with
      | number n =>
        refine printsNumbers_of_scalar? (Or.inl hshape) ?_
        rw [ArgumentKey.shape, hshape] at h
        exact h
      | object members =>
        rw [ArgumentKey.shape, hshape] at h
        obtain ⟨r, hr, rfl⟩ := Option.map_eq_some_iff.1 h
        exact printsNumbers_of_range? (Or.inr ⟨hshape, members, rfl⟩) hr
      | _ => cases hv
    · have hshape : k.shape = .range := Shape.mem_keys_iff.1 hk
      rw [ArgumentKey.shape, hshape] at h
      obtain ⟨r, hr, rfl⟩ := Option.map_eq_some_iff.1 (show (range? v).map .range = some a from h)
      exact printsNumbers_of_range? (Or.inl hshape) hr
  | @scores members hm =>
    obtain ⟨m, hm, rfl⟩ := Option.map_eq_some_iff.1 h
    exact printsNumbers_of_scores hm
  | @nbt members hm =>
    obtain ⟨n, hn, rfl⟩ := Option.map_eq_some_iff.1 h
    have hprints := ArgumentKey.PrintsNumbers.nbt members
    rw [← Nbt.text_of_ofJson? hn] at hprints
    exact hprints
  | flags hk hv => exact .numberless hv.not_contains_number _
  | @advancements members hm =>
    refine .numberless ?_ _
    intro n hcontains
    cases hcontains with
    | member hmem hcontains =>
      rcases hm _ hmem with ⟨b, hb⟩ | hflags
      · rw [hb] at hcontains
        cases hcontains
      · exact hflags.not_contains_number n hcontains
  | otherNumber name unknown n => exact printsNumbers_of_scalar? (Or.inr rfl) h
  | otherFlags name unknown hv => exact .numberless hv.not_contains_number _
  | string hk s =>
    refine .numberless ?_ _
    intro n hcontains
    cases hcontains
  | otherString name unknown s =>
    refine .numberless ?_ _
    intro n hcontains
    cases hcontains
  | otherBool name unknown b =>
    refine .numberless ?_ _
    intro n hcontains
    cases hcontains

/-- A value that a key takes has segments, and they print its numbers. -/
theorem exists_printsNumbers {key : ArgumentKey} {v : Json} (h : key.TakesJson v) :
    ∃ a ss, ofJson key v = .ok a ∧ key.segments a = .ok ss ∧ key.PrintsNumbers v ss := by
  obtain ⟨a, ha⟩ := Option.isSome_iff_exists.1 (isSome_of_takesJson h)
  exact ⟨a, _, ofJson_eq_ok.2 ha, ArgumentKey.segments_eq_ok.2 ⟨admits_of_ofShape? ha, rfl⟩,
    printsNumbers_of_ofShape? h ha⟩

end ArgumentValue

end TargetSelector
