import TargetSelector.Proofs.Argument.Conversion
import TargetSelector.Proofs.Nbt.Unambiguous

/-!
The NBT text of JSON tells trees apart. Integers of 64 signed bits count by their value, all other
numbers by the floating-point value they convert to.
-/
namespace TargetSelector

namespace JsonNumber

def signed? : JsonNumber → Option Int
  | .integer n _ => if n < 0x8000000000000000 then some n else none
  | .float _ _ => none

theorem range_of_signed? {n : JsonNumber} {i : Int} (h : n.signed? = some i) :
    -0x8000000000000000 ≤ i ∧ i < 0x8000000000000000 := by
  cases n with
  | integer k range =>
    rw [signed?] at h
    split at h
    · next hk =>
      cases h
      exact ⟨range.1, hk⟩
    · cases h
  | float x finite => cases h

theorem toInt64?_eq (n : JsonNumber) : n.toInt64? = n.signed?.map Int64.ofInt := by
  cases n with
  | integer k range =>
    rw [toInt64?, signed?]
    split <;> rfl
  | float x finite => rfl

/-- The same integer of 64 signed bits, or two numbers of another kind that are the same as
floating-point values. -/
inductive Same : JsonNumber → JsonNumber → Prop where
  | signed {n m : JsonNumber} {i : Int} (hn : n.signed? = some i) (hm : m.signed? = some i) : Same n m
  | binary {n m : JsonNumber} (hn : n.signed? = none) (hm : m.signed? = none)
    (h : n.toBinary = m.toBinary) : Same n m

end JsonNumber

namespace Json

mutual

/-- The same tree, with the names of members in the same order. -/
inductive SameTree : Json → Json → Prop where
  | null : SameTree .null .null
  | bool (b : Bool) : SameTree (.bool b) (.bool b)
  | number {n m : JsonNumber} (h : n.Same m) : SameTree (.number n) (.number m)
  | string (s : String) : SameTree (.string s) (.string s)
  | array {vs ws : List Json} (h : vs.Forall₂ SameTree ws) : SameTree (.array vs) (.array ws)
  | object {ms ns : List (String × Json)} (h : ms.Forall₂ SameMember ns) :
    SameTree (.object ms) (.object ns)

inductive SameMember : String × Json → String × Json → Prop where
  | mk (name : String) {v w : Json} (h : SameTree v w) : SameMember (name, v) (name, w)

end

theorem sameTree_number {n m : JsonNumber} : (number n).SameTree (number m) ↔ n.Same m := by
  constructor
  · intro h
    cases h with
    | number h => exact h
  · exact .number

theorem sameTree_array {vs ws : List Json} :
    (array vs).SameTree (array ws) ↔ vs.Forall₂ SameTree ws := by
  constructor
  · intro h
    cases h with
    | array h => exact h
  · exact .array

theorem sameTree_object {ms ns : List (String × Json)} :
    (object ms).SameTree (object ns) ↔ ms.Forall₂ SameMember ns := by
  constructor
  · intro h
    cases h with
    | object h => exact h
  · exact .object

inductive Form where
  | null | bool | number | string | array | object
deriving DecidableEq

def form : Json → Form
  | .null => .null
  | .bool _ => .bool
  | .number _ => .number
  | .string _ => .string
  | .array _ => .array
  | .object _ => .object

private theorem SameTree.form_eq {v w : Json} (h : v.SameTree w) :
    v.form = w.form := by cases h <;> rfl

end Json

namespace Nbt

/-- An integer in the narrower of two widths that holds it. -/
def ofSigned (i : Int) : Nbt :=
  if -0x80000000 ≤ i ∧ i < 0x80000000 then .int (Int32.ofInt i) else .long (Int64.ofInt i)

def ofNumber (n : JsonNumber) : Nbt :=
  match n.signed? with
  | some i => ofSigned i
  | none => .double n.toBinary

theorem ofJson?_number (n : JsonNumber) : ofJson? (.number n) = some (ofNumber n) := by
  rw [ofJson?, ofNumber, n.toInt64?_eq]
  cases h : n.signed? with
  | none => rfl
  | some i =>
    obtain ⟨hlow, hhigh⟩ := JsonNumber.range_of_signed? h
    have hi : (Int64.ofInt i).toInt = i := Int64.toInt_ofInt_of_le hlow hhigh
    simp only [Option.map_some, hi]
    rfl

def integer? : Nbt → Option Int
  | .int v => some v.toInt
  | .long v => some v.toInt
  | _ => none

section Signed

variable {i : Int} (h : -0x8000000000000000 ≤ i ∧ i < 0x8000000000000000)
include h

private theorem integer?_ofSigned : (ofSigned i).integer? = some i := by
  unfold ofSigned
  split
  · next hi => exact congrArg some (Int32.toInt_ofInt_of_le hi.1 hi.2)
  · exact congrArg some (Int64.toInt_ofInt_of_le h.1 h.2)

/-- An integer has a suffix exactly if it does not fit into 32 bits. -/
theorem text_ofSigned :
    (ofSigned i).text = i.repr ++ if -0x80000000 ≤ i ∧ i < 0x80000000 then "" else "L" := by
  unfold ofSigned
  split
  · next hi =>
    rw [text, Int32.toInt_ofInt_of_le hi.1 hi.2, String.append_empty]
  · rw [text, Int64.toInt_ofInt_of_le h.1 h.2]

end Signed

theorem ofNumber_of_signed? {n : JsonNumber} {i : Int} (h : n.signed? = some i) :
    ofNumber n = ofSigned i := by
  rw [ofNumber, h]

theorem ofNumber_of_not_signed? {n : JsonNumber} (h : n.signed? = none) :
    ofNumber n = .double n.toBinary := by
  rw [ofNumber, h]

theorem integer?_ofNumber (n : JsonNumber) : (ofNumber n).integer? = n.signed? := by
  cases h : n.signed? with
  | some i => rw [ofNumber_of_signed? h, integer?_ofSigned (JsonNumber.range_of_signed? h)]
  | none =>
    rw [ofNumber_of_not_signed? h]
    rfl

private theorem ofNumber_eq_iff_same {n m : JsonNumber} : ofNumber m = ofNumber n ↔ n.Same m := by
  constructor
  · intro h
    have hsigned : m.signed? = n.signed? := by
      rw [← integer?_ofNumber, h, integer?_ofNumber]
    cases hn : n.signed? with
    | some i => exact .signed hn (hsigned.trans hn)
    | none =>
      have hm : m.signed? = none := hsigned.trans hn
      rw [ofNumber_of_not_signed? hn, ofNumber_of_not_signed? hm] at h
      exact .binary hn hm (Nbt.double.inj h).symm
  · intro h
    cases h with
    | signed hn hm => rw [ofNumber_of_signed? hn, ofNumber_of_signed? hm]
    | binary hn hm h => rw [ofNumber_of_not_signed? hn, ofNumber_of_not_signed? hm, h]

/-- The kind of JSON that a tree comes from, if there is one. -/
def jsonForm : Nbt → Json.Form
  | .byte _ => .bool
  | .int _ | .long _ | .double _ => .number
  | .string _ => .string
  | .list _ => .array
  | .compound _ => .object
  | .short _ | .float _ | .byteArray _ | .intArray _ | .longArray _ => .null

theorem form_of_ofJson? {v : Json} {a : Nbt} (h : ofJson? v = some a) : v.form = a.jsonForm := by
  cases v with
  | null => cases h
  | bool b => cases h; rfl
  | number n =>
    rw [ofJson?_number] at h
    cases h
    unfold ofNumber ofSigned
    split
    · split <;> rfl
    · rfl
  | string s => cases h; rfl
  | array items =>
    obtain ⟨ns, -, rfl⟩ := Option.map_eq_some_iff.1 h
    rfl
  | object members =>
    obtain ⟨fields, -, rfl⟩ := Option.map_eq_some_iff.1 h
    rfl

theorem ofItems?_eq_some {items : List Json} {ns : List Nbt} :
    ofItems? items = some ns ↔ items.Forall₂ (fun v n => ofJson? v = some n) ns := by
  induction items generalizing ns with
  | nil => simp [ofItems?, eq_comm]
  | cons v items ih =>
    simp only [ofItems?, Option.bind_eq_bind, Option.bind_eq_some_iff, List.forall₂_cons_left_iff, ih]
    constructor
    · rintro ⟨n, hn, ns, hns, h⟩
      cases h
      exact ⟨n, ns, hn, hns, rfl⟩
    · rintro ⟨n, ns, hn, hns, rfl⟩
      exact ⟨n, hn, ns, hns, rfl⟩

/-- Lists come from the same results if their items do, one by one. -/
theorem forall₂_iff_forall₂ {α β : Type} {S : α → β → Prop} {R : α → α → Prop} {xs : List α}
    {bs : List β} (hxs : xs.Forall₂ S bs) (h : ∀ x ∈ xs, ∀ b, S x b → ∀ y, S y b ↔ R x y)
    {ys : List α} : ys.Forall₂ S bs ↔ xs.Forall₂ R ys := by
  induction hxs generalizing ys with
  | nil => rw [List.forall₂_nil_right_iff, List.forall₂_nil_left_iff]
  | @cons x b xs bs hx _ ih =>
    have hhead := h x List.mem_cons_self b hx
    have htail := fun {zs} => @ih (fun z hz => h z (List.mem_cons_of_mem x hz)) zs
    rw [List.forall₂_cons_right_iff, List.forall₂_cons_left_iff]
    simp only [hhead, htail]

theorem ofItems?_eq_iff {items items' : List Json} {ns : List Nbt} (hns : ofItems? items = some ns)
    (h : ∀ v ∈ items, ∀ a, ofJson? v = some a → ∀ w, ofJson? w = some a ↔ v.SameTree w) :
    ofItems? items' = some ns ↔ items.Forall₂ Json.SameTree items' := by
  rw [ofItems?_eq_some] at hns ⊢
  exact forall₂_iff_forall₂ hns h

theorem ofMembers?_eq_iff {members members' : List (String × Json)} {fields : List (String × Nbt)}
    (hfields : ofMembers? members = some fields)
    (h : ∀ m ∈ members, ∀ a, ofJson? m.2 = some a → ∀ w, ofJson? w = some a ↔ m.2.SameTree w) :
    ofMembers? members' = some fields ↔ members.Forall₂ Json.SameMember members' := by
  rw [ofMembers?_eq, ArgumentValue.mapMembers?_eq_some] at hfields ⊢
  apply forall₂_iff_forall₂ hfields
  rintro ⟨name, v⟩ hv ⟨_, a⟩ ⟨rfl, ha⟩ ⟨name', w⟩
  have hvalue : ofJson? w = some a ↔ v.SameTree w := h _ hv a ha w
  constructor
  · rintro ⟨rfl, hw⟩
    exact .mk _ (hvalue.1 hw)
  · rintro ⟨_, hvw⟩
    exact ⟨rfl, hvalue.2 hvw⟩

theorem ofJson?_eq_iff_of_form {v : Json} {a : Nbt} (ha : ofJson? v = some a)
    (h : ∀ w : Json, v.form = w.form → (ofJson? w = some a ↔ v.SameTree w)) (w : Json) :
    ofJson? w = some a ↔ v.SameTree w := by
  by_cases hform : v.form = w.form
  · exact h w hform
  · refine iff_of_false (fun hw => hform ?_) fun hvw => hform hvw.form_eq
    rw [form_of_ofJson? ha, form_of_ofJson? hw]

/-- What is converted to the same tree as a value is the same tree. -/
theorem ofJson?_eq_iff_sameTree {v : Json} {a : Nbt} (ha : ofJson? v = some a) (w : Json) :
    ofJson? w = some a ↔ v.SameTree w := by
  have hbit : ∀ c b : Bool, (if c then 1 else 0 : Int8) = (if b then 1 else 0) → c = b := by decide
  induction v generalizing a w with
  | null => cases ha
  | bool b =>
    refine ofJson?_eq_iff_of_form ha (fun w hform => ?_) w
    cases w with
    | bool c =>
      cases ha
      constructor
      · intro h
        obtain rfl := hbit c b (Nbt.byte.inj (Option.some.inj h))
        exact .bool c
      · intro h
        cases h
        rfl
    | _ => cases hform
  | number n =>
    refine ofJson?_eq_iff_of_form ha (fun w hform => ?_) w
    cases w with
    | number m =>
      rw [ofJson?_number] at ha ⊢
      cases ha
      rw [Option.some_inj, ofNumber_eq_iff_same, Json.sameTree_number]
    | _ => cases hform
  | string s =>
    refine ofJson?_eq_iff_of_form ha (fun w hform => ?_) w
    cases w with
    | string t =>
      cases ha
      constructor
      · intro h
        obtain rfl := Nbt.string.inj (Option.some.inj h)
        exact .string t
      · intro h
        cases h
        rfl
    | _ => cases hform
  | array items ih =>
    refine ofJson?_eq_iff_of_form ha (fun w hform => ?_) w
    cases w with
    | array items' =>
      obtain ⟨ns, hns, rfl⟩ := Option.map_eq_some_iff.1 ha
      have hitems : ofItems? items' = some ns ↔ items.Forall₂ Json.SameTree items' :=
        ofItems?_eq_iff hns fun v hv _ ha w => ih v hv ha w
      rw [Json.sameTree_array, ← hitems]
      simp only [ofJson?, Option.map_eq_some_iff, Nbt.list.injEq, exists_eq_right]
    | _ => cases hform
  | object members ih =>
    refine ofJson?_eq_iff_of_form ha (fun w hform => ?_) w
    cases w with
    | object members' =>
      obtain ⟨fields, hfields, rfl⟩ := Option.map_eq_some_iff.1 ha
      have hmembers : ofMembers? members' = some fields ↔
          members.Forall₂ Json.SameMember members' :=
        ofMembers?_eq_iff hfields fun m hm _ ha w => ih m hm ha w
      rw [Json.sameTree_object, ← hmembers]
      simp only [ofJson?, Option.map_eq_some_iff, Nbt.compound.injEq, exists_eq_right]
    | _ => cases hform

/-- Two values that are converted have the same text exactly if they are the same tree. -/
theorem text_eq_iff_sameTree {v w : Json} {a b : Nbt} (ha : ofJson? v = some a)
    (hb : ofJson? w = some b) : a.text = b.text ↔ v.SameTree w := by
  rw [← ofJson?_eq_iff_sameTree ha, hb, Option.some_inj]
  constructor
  · exact fun h => ((decodes a).eq h).symm
  · intro h
    rw [h]

/-- An object without null has one segment. -/
theorem exists_segment {members : List (String × Json)}
    (h : ¬ (Json.object members).Contains .null) :
    ∃ a, ofJson? (.object members) = some a ∧
      ArgumentValue.ofJson (.known .nbt) (.object members) = .ok (.nbt a) ∧
      (ArgumentKey.known .nbt).segments (.nbt a) = .ok ["nbt=" ++ a.text] := by
  obtain ⟨a, ha⟩ := Option.isSome_iff_exists.1 (isSome_ofJson?_iff.2 h)
  refine ⟨a, ha, ArgumentValue.ofJson_eq_ok.2 ?_, ArgumentKey.segments_eq_ok.2 ⟨rfl, rfl⟩⟩
  exact Option.map_eq_some_iff.2 ⟨a, ha, rfl⟩

/-- Objects without null get the same segment exactly if they are the same tree. An integer of 64
signed bits is written with a suffix exactly if it does not fit into 32, and nothing else has its
text. -/
theorem segment_eq_iff_sameTree :
    (∀ ms ns : List (String × Json), ¬ (Json.object ms).Contains .null →
      ¬ (Json.object ns).Contains .null → ∃ v w s t,
        ArgumentValue.ofJson (.known .nbt) (.object ms) = .ok v ∧
        ArgumentValue.ofJson (.known .nbt) (.object ns) = .ok w ∧
        (ArgumentKey.known .nbt).segments v = .ok [s] ∧
        (ArgumentKey.known .nbt).segments w = .ok [t] ∧
        (s = t ↔ (Json.object ms).SameTree (.object ns))) ∧
    ∀ (n : JsonNumber) (i : Int), n.signed? = some i → ∃ a, ofJson? (.number n) = some a ∧
      a.text = i.repr ++ (if -0x80000000 ≤ i ∧ i < 0x80000000 then "" else "L") ∧
      ∀ w b, ofJson? w = some b → b.text = a.text → ∃ m, w = .number m ∧ m.signed? = some i := by
  constructor
  · intro ms ns hms hns
    obtain ⟨a, ha, hv, hs⟩ := exists_segment hms
    obtain ⟨b, hb, hw, ht⟩ := exists_segment hns
    refine ⟨_, _, _, _, hv, hw, hs, ht, ?_⟩
    rw [String.append_right_inj, text_eq_iff_sameTree ha hb]
  · intro n i hn
    refine ⟨ofNumber n, ofJson?_number n, ?_, ?_⟩
    · rw [ofNumber_of_signed? hn, text_ofSigned (JsonNumber.range_of_signed? hn)]
    · intro w b hb htext
      have hsame := (text_eq_iff_sameTree (ofJson?_number n) hb).1 htext.symm
      cases hsame with
      | @number _ m h =>
        cases h with
        | signed hn' hm => exact ⟨m, rfl, hm.trans (hn'.symm.trans hn)⟩
        | binary hn' => cases hn.symm.trans hn'

/-- Integers at the limits of the widths. Beyond 64 signed bits an integer is the same as the
floating-point value that it converts to. -/
theorem segment_eq_iff_sameTree_limits :
    let wide : JsonNumber := .integer 0x80000000 (by decide)
    let beyond : JsonNumber := .integer 0x8000000000000000 (by decide)
    let float : JsonNumber := .float (.ofNat 0x8000000000000000) (by decide +kernel)
    let ms := [("", Json.number wide), ("a", .array [.number beyond])]
    let ns := [("", Json.number wide), ("a", .array [.number float])]
    (∃ v w s, ArgumentValue.ofJson (.known .nbt) (.object ms) = .ok v ∧
      ArgumentValue.ofJson (.known .nbt) (.object ns) = .ok w ∧
      (ArgumentKey.known .nbt).segments v = .ok [s] ∧
      (ArgumentKey.known .nbt).segments w = .ok [s]) ∧
      ∃ a, ofJson? (.number wide) = some a ∧ a.text = "2147483648L" ∧
        ofJson? (.number beyond) ≠ some a := by
  intro wide beyond float ms ns
  obtain ⟨hobjects, hintegers⟩ := segment_eq_iff_sameTree
  have hnumbers : beyond.Same float := .binary rfl rfl (by decide +kernel)
  have hsame : (Json.object ms).SameTree (.object ns) :=
    .object (.cons (.mk "" (.number (.signed rfl rfl)))
      (.cons (.mk "a" (.array (.cons (.number hnumbers) .nil))) .nil))
  obtain ⟨v, w, s, t, hv, hw, hs, ht, heq⟩ := hobjects ms ns
    (isSome_ofJson?_iff.1 rfl) (isSome_ofJson?_iff.1 rfl)
  obtain ⟨a, ha, htext, honly⟩ := hintegers wide 0x80000000 rfl
  refine ⟨⟨v, w, s, hv, hw, hs, heq.2 hsame ▸ ht⟩, a, ha, htext, ?_⟩
  intro hbeyond
  obtain ⟨m, hm, hsigned⟩ := honly _ _ hbeyond rfl
  cases hm
  cases hsigned

end Nbt

end TargetSelector
