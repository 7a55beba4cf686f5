import TargetSelector.Proofs.Argument.DistinctNames
import TargetSelector.Proofs.Comparison
import TargetSelector.Proofs.Range.Text
import TargetSelector.Proofs.Selector.Floats

/-!
Equality of trees, argument values and selectors is symmetric and transitive and does not depend on the
order of any map, and a value is equal to itself unless it has NaN somewhere.
-/
namespace TargetSelector

namespace Nbt

mutual

/-- The fields of compounds in another order, at any depth. -/
inductive Reordered : Nbt → Nbt → Prop where
  | same (n : Nbt) : Reordered n n
  | list {xs ys : List Nbt} (h : xs.Forall₂ Reordered ys) : Reordered (.list xs) (.list ys)
  | compound {fs gs hs : List (String × Nbt)} (hperm : fs.Perm gs)
    (hfields : gs.Forall₂ ReorderedField hs) : Reordered (.compound fs) (.compound hs)

inductive ReorderedField : String × Nbt → String × Nbt → Prop where
  | mk (name : String) {n m : Nbt} (h : Reordered n m) : ReorderedField (name, n) (name, m)

end

def comparison : Comparison Nbt where
  eqv := eqv
  distinct n := n.hasDistinctNames
  reordered := Reordered
  numeric n := n.everyFloat fun _ => Binary.isNumber

theorem eqvItems_eq_isEqv (xs ys : List Nbt) : eqvItems xs ys = xs.isEqv ys eqv := by
  induction xs generalizing ys with
  | nil => cases ys <;> rfl
  | cons x xs ih =>
    cases ys with
    | nil => rfl
    | cons y ys => rw [eqvItems, ih, List.isEqv_cons_cons]

theorem eqvFields_iff {fs gs : List (String × Nbt)} :
    eqvFields fs gs ↔ ∀ f ∈ fs, ∃ w, OrderedMap.get? f.1 gs = some w ∧ f.2.eqv w := by
  induction fs with
  | nil => simp [eqvFields]
  | cons f fs ih =>
    obtain ⟨name, value⟩ := f
    rw [eqvFields, Bool.and_eq_true, ih, List.forall_mem_cons]
    cases OrderedMap.get? name gs <;> simp

theorem eqv_compound (fs gs : List (String × Nbt)) :
    (compound fs).eqv (compound gs) = OrderedMap.eqv eqv fs gs := by
  rw [eqv, Bool.eq_iff_iff, Bool.and_eq_true, decide_eq_true_eq, eqvFields_iff, OrderedMap.eqv_iff]

theorem reordered_list {xs : List Nbt} {n : Nbt} (h : (list xs).Reordered n) :
    ∃ ys, n = list ys ∧ xs.Forall₂ Reordered ys := by
  cases h with
  | same => exact ⟨xs, rfl, List.forall₂_same.2 fun x _ => .same x⟩
  | list h => exact ⟨_, rfl, h⟩

theorem reordered_compound {fs : List (String × Nbt)} {n : Nbt} (h : (compound fs).Reordered n) :
    ∃ gs, n = compound gs ∧ OrderedMap.Reordered Reordered fs gs := by
  cases h with
  | same => exact ⟨fs, rfl, OrderedMap.reordered_of_perm .same (.refl fs)⟩
  | @compound _ gs hs hperm hfields =>
    refine ⟨hs, rfl, gs, hperm, hfields.imp ?_⟩
    rintro _ _ ⟨name, h⟩
    exact ⟨rfl, h⟩

theorem embeds_float : (Comparison.binary .binary32).Embeds comparison float where
  kind v n := by
    cases n with
    | float w => exact Or.inl ⟨w, rfl⟩
    | _ => exact Or.inr ⟨rfl, rfl⟩
  eqv_eq v w := rfl
  distinct_iff v := iff_of_true rfl trivial
  reordered v n h := by
    cases h
    exact ⟨v, rfl, rfl⟩
  numeric_iff v := Binary.isNumber_iff

theorem embeds_double : (Comparison.binary .binary64).Embeds comparison double where
  kind v n := by
    cases n with
    | double w => exact Or.inl ⟨w, rfl⟩
    | _ => exact Or.inr ⟨rfl, rfl⟩
  eqv_eq v w := rfl
  distinct_iff v := iff_of_true rfl trivial
  reordered v n h := by
    cases h
    exact ⟨v, rfl, rfl⟩
  numeric_iff v := Binary.isNumber_iff

theorem embeds_list : comparison.lists.Embeds comparison list where
  kind xs n := by
    cases n with
    | list ys => exact Or.inl ⟨ys, rfl⟩
    | _ => exact Or.inr ⟨rfl, rfl⟩
  eqv_eq := eqvItems_eq_isEqv
  distinct_iff xs := hasDistinctNames_list
  reordered xs n h := reordered_list h
  numeric_iff xs := everyFloat_list _

theorem embeds_compound : (comparison.maps String).Embeds comparison compound where
  kind fs n := by
    cases n with
    | compound gs => exact Or.inl ⟨gs, rfl⟩
    | _ => exact Or.inr ⟨rfl, rfl⟩
  eqv_eq := eqv_compound
  distinct_iff fs := hasDistinctNames_compound
  reordered fs n h := reordered_compound h
  numeric_iff fs := everyFloat_compound _

theorem lawfulAt (n : Nbt) : comparison.LawfulAt n := by
  induction n with
  | byte v | short v | int v | long v | string v | byteArray v | intArray v | longArray v =>
    refine Comparison.lawfulAt_of_eq (fun m => ?_) (fun m => ?_) (fun m h => ?_) rfl
    · cases m <;> simp [comparison, eqv]
    · cases m <;> simp [comparison, eqv]
    · cases h
      rfl
  | float v => exact embeds_float.lawfulAt (Comparison.lawfulAt_binary v)
  | double v => exact embeds_double.lawfulAt (Comparison.lawfulAt_binary v)
  | list xs ih => exact embeds_list.lawfulAt (Comparison.lawfulAt_lists ih)
  | compound fs ih => exact embeds_compound.lawfulAt (Comparison.lawfulAt_maps ih)

end Nbt

namespace Range

def comparison : Comparison Range where
  eqv := eqv
  distinct _ := True
  reordered := Eq
  numeric r := ∀ x ∈ r.bounds, x.isNumber

theorem lawfulAt (r : Range) : comparison.LawfulAt r where
  symm q _ _ := r.eqv_comm q
  trans q p _ _ _ hrq hqp := by
    obtain ⟨hr, hrq⟩ := eqv_iff_canonical.1 hrq
    obtain ⟨-, hqp⟩ := eqv_iff_canonical.1 hqp
    exact eqv_iff_canonical.2 ⟨hr, hrq.trans hqp⟩
  unordered := by
    rintro r' q _ _ rfl
    rfl
  refl_iff _ := by
    change r.eqv r ↔ ∀ x ∈ r.bounds, x.isNumber
    simp only [eqv_iff_canonical, and_true, Binary.isNumber_iff]
  distinct_of_reordered _ _ _ := trivial

end Range

namespace Advancement

inductive Reordered : Advancement → Advancement → Prop where
  | done (b : Bool) : Reordered (.done b) (.done b)
  | criteria {cs ds : OrderedMap String Bool} (h : cs.Perm ds) :
    Reordered (.criteria cs) (.criteria ds)

theorem reordered_self (a : Advancement) : a.Reordered a := by
  cases a with
  | done b => exact .done b
  | criteria cs => exact .criteria (.refl cs)

def comparison : Comparison Advancement where
  eqv := eqv
  distinct a := a.hasDistinctNames
  reordered := Reordered
  numeric _ := True

theorem embeds_criteria : ((Comparison.plain Bool).maps String).Embeds comparison criteria where
  kind cs a := by
    cases a with
    | done b => exact Or.inr ⟨rfl, rfl⟩
    | criteria ds => exact Or.inl ⟨ds, rfl⟩
  eqv_eq cs ds := rfl
  distinct_iff cs := hasDistinctNames_criteria.trans (and_iff_left fun _ _ => trivial).symm
  reordered cs a h := by
    cases h with
    | @criteria _ ds h => exact ⟨ds, rfl, OrderedMap.reordered_of_perm (fun _ => rfl) h⟩
  numeric_iff cs := iff_of_true trivial fun _ _ => trivial

theorem lawfulAt (a : Advancement) : comparison.LawfulAt a := by
  cases a with
  | done b =>
    refine Comparison.lawfulAt_of_eq (fun a => ?_) (fun a => ?_) (fun a h => ?_) trivial
    · cases a <;> simp [comparison, eqv]
    · cases a <;> simp [comparison, eqv]
    · cases h
      rfl
  | criteria cs =>
    exact embeds_criteria.lawfulAt (Comparison.lawfulAt_maps fun e _ => Comparison.lawfulAt_plain e.2)

end Advancement

namespace ArgumentValue

/-- The entries of the maps of a value in another order, at any depth. -/
inductive Reordered : ArgumentValue → ArgumentValue → Prop where
  | same (v : ArgumentValue) : Reordered v v
  | flags {m n : OrderedMap String Bool} (h : m.Perm n) : Reordered (.flags m) (.flags n)
  | scores {m n : OrderedMap String Range} (h : m.Perm n) : Reordered (.scores m) (.scores n)
  | advancements {m n : OrderedMap String Advancement}
    (h : OrderedMap.Reordered Advancement.Reordered m n) :
    Reordered (.advancements m) (.advancements n)
  | nbt {a b : Nbt} (h : a.Reordered b) : Reordered (.nbt a) (.nbt b)

def comparison : Comparison ArgumentValue where
  eqv := eqv
  distinct v := v.hasDistinctNames
  reordered := Reordered
  numeric v := v.everyFloat fun _ => Binary.isNumber

theorem reordered_advancements {m : OrderedMap String Advancement} {v : ArgumentValue}
    (h : (advancements m).Reordered v) :
    ∃ n, v = advancements n ∧ OrderedMap.Reordered Advancement.Reordered m n := by
  cases h with
  | same => exact ⟨m, rfl, OrderedMap.reordered_of_perm Advancement.reordered_self (.refl m)⟩
  | advancements h => exact ⟨_, rfl, h⟩

theorem embeds_float : (Comparison.binary .binary64).Embeds comparison float where
  kind x v := by
    cases v with
    | float y => exact Or.inl ⟨y, rfl⟩
    | _ => exact Or.inr ⟨rfl, rfl⟩
  eqv_eq x y := rfl
  distinct_iff x := iff_of_true rfl trivial
  reordered x v h := by
    cases h
    exact ⟨x, rfl, rfl⟩
  numeric_iff x := Binary.isNumber_iff

theorem embeds_range : Range.comparison.Embeds comparison range where
  kind r v := by
    cases v with
    | range q => exact Or.inl ⟨q, rfl⟩
    | _ => exact Or.inr ⟨rfl, rfl⟩
  eqv_eq r q := rfl
  distinct_iff r := iff_of_true rfl trivial
  reordered r v h := by
    cases h
    exact ⟨r, rfl, rfl⟩
  numeric_iff r := List.all_eq_true

theorem embeds_flags : ((Comparison.plain Bool).maps String).Embeds comparison flags where
  kind m v := by
    cases v with
    | flags n => exact Or.inl ⟨n, rfl⟩
    | _ => exact Or.inr ⟨rfl, rfl⟩
  eqv_eq m n := rfl
  distinct_iff m := hasDistinctNames_flags.trans (and_iff_left fun _ _ => trivial).symm
  reordered m v h := by
    cases h with
    | same => exact ⟨m, rfl, OrderedMap.reordered_of_perm (fun _ => rfl) (.refl m)⟩
    | @flags _ n h => exact ⟨n, rfl, OrderedMap.reordered_of_perm (fun _ => rfl) h⟩
  numeric_iff m := iff_of_true rfl fun _ _ => trivial

theorem embeds_scores : (Range.comparison.maps String).Embeds comparison scores where
  kind m v := by
    cases v with
    | scores n => exact Or.inl ⟨n, rfl⟩
    | _ => exact Or.inr ⟨rfl, rfl⟩
  eqv_eq m n := rfl
  distinct_iff m := hasDistinctNames_scores.trans (and_iff_left fun _ _ => trivial).symm
  reordered m v h := by
    cases h with
    | same => exact ⟨m, rfl, OrderedMap.reordered_of_perm (fun _ => rfl) (.refl m)⟩
    | @scores _ n h => exact ⟨n, rfl, OrderedMap.reordered_of_perm (fun _ => rfl) h⟩
  numeric_iff m := everyFloat_scores _

theorem embeds_advancements :
    (Advancement.comparison.maps String).Embeds comparison advancements where
  kind m v := by
    cases v with
    | advancements n => exact Or.inl ⟨n, rfl⟩
    | _ => exact Or.inr ⟨rfl, rfl⟩
  eqv_eq m n := rfl
  distinct_iff m := hasDistinctNames_advancements
  reordered m v h := reordered_advancements h
  numeric_iff m := iff_of_true rfl fun _ _ => trivial

theorem embeds_nbt : Nbt.comparison.Embeds comparison nbt where
  kind n v := by
    cases v with
    | nbt m => exact Or.inl ⟨m, rfl⟩
    | _ => exact Or.inr ⟨rfl, rfl⟩
  eqv_eq n m := rfl
  distinct_iff n := Iff.rfl
  reordered n v h := by
    cases h with
    | same => exact ⟨n, rfl, .same n⟩
    | @nbt _ m h => exact ⟨m, rfl, h⟩
  numeric_iff n := Iff.rfl

theorem lawfulAt (v : ArgumentValue) : comparison.LawfulAt v := by
  cases v with
  | int v | text v | bool v =>
    refine Comparison.lawfulAt_of_eq (fun w => ?_) (fun w => ?_) (fun w h => ?_) rfl
    · cases w <;> simp [comparison, eqv]
    · cases w <;> simp [comparison, eqv]
    · cases h
      rfl
  | float x => exact embeds_float.lawfulAt (Comparison.lawfulAt_binary x)
  | range r => exact embeds_range.lawfulAt r.lawfulAt
  | flags m =>
    exact embeds_flags.lawfulAt (Comparison.lawfulAt_maps fun e _ => Comparison.lawfulAt_plain e.2)
  | scores m => exact embeds_scores.lawfulAt (Comparison.lawfulAt_maps fun e _ => e.2.lawfulAt)
  | advancements m =>
    exact embeds_advancements.lawfulAt (Comparison.lawfulAt_maps fun e _ => e.2.lawfulAt)
  | nbt n => exact embeds_nbt.lawfulAt n.lawfulAt

end ArgumentValue

namespace Selector

/-- Distinct keys, and distinct names in the maps of the values. -/
def hasDistinctNames (s : Selector) : Bool :=
  decide (OrderedMap.keys s.arguments).Nodup && s.arguments.all fun a => a.2.hasDistinctNames

/-- The same target, and the arguments and what is in them in another order. -/
def Reordered (s u : Selector) : Prop :=
  s.target = u.target ∧ OrderedMap.Reordered ArgumentValue.Reordered s.arguments u.arguments

def comparison : Comparison Selector where
  eqv := eqv
  distinct s := s.hasDistinctNames
  reordered := Reordered
  numeric s := s.everyFloat fun _ => Binary.isNumber

theorem distinct_iff {s : Selector} :
    s.hasDistinctNames ↔ (ArgumentValue.comparison.maps ArgumentKey).distinct s.arguments := by
  rw [hasDistinctNames, Bool.and_eq_true, decide_eq_true_eq, List.all_eq_true]
  rfl

theorem eqv_iff {s u : Selector} : s.eqv u ↔
    s.target = u.target ∧ (ArgumentValue.comparison.maps ArgumentKey).eqv s.arguments u.arguments := by
  rw [eqv, Bool.and_eq_true, decide_eq_true_eq]
  rfl

theorem lawfulAt (s : Selector) : comparison.LawfulAt s := by
  have hargs : (ArgumentValue.comparison.maps ArgumentKey).LawfulAt s.arguments :=
    Comparison.lawfulAt_maps fun a _ => a.2.lawfulAt
  constructor
  · intro u hs hu
    have hsymm := hargs.symm u.arguments (distinct_iff.1 hs) (distinct_iff.1 hu)
    change s.eqv u = u.eqv s
    rw [Bool.eq_iff_iff, eqv_iff, eqv_iff, hsymm, eq_comm]
  · intro u w hs hu hw hsu huw
    obtain ⟨htarget, hsu⟩ := eqv_iff.1 hsu
    obtain ⟨htarget', huw⟩ := eqv_iff.1 huw
    have htrans := hargs.trans u.arguments w.arguments (distinct_iff.1 hs) (distinct_iff.1 hu)
      (distinct_iff.1 hw) hsu huw
    exact eqv_iff.2 ⟨htarget.trans htarget', htrans⟩
  · rintro s' u hs hu ⟨htarget, hreordered⟩
    have hunordered := hargs.unordered s'.arguments u.arguments (distinct_iff.1 hs)
      (distinct_iff.1 hu) hreordered
    change s.eqv u = s'.eqv u
    rw [Bool.eq_iff_iff, eqv_iff, eqv_iff, hunordered, htarget]
  · intro hs
    have hself := hargs.refl_iff (distinct_iff.1 hs)
    change s.eqv s ↔ s.everyFloat (fun _ => Binary.isNumber)
    rw [eqv_iff, hself, everyFloat_iff, and_iff_right rfl]
    rfl
  · rintro s' ⟨-, hreordered⟩ hs
    exact distinct_iff.2 (hargs.distinct_of_reordered _ hreordered (distinct_iff.1 hs))

/-- Equality of trees, of argument values and of selectors with distinct names is symmetric and
transitive. Another order of the entries of any map, at any depth, changes no comparison. A value is
equal to itself exactly if NaN is nowhere in it. -/
theorem eqv_lawful :
    Nbt.comparison.Lawful ∧ ArgumentValue.comparison.Lawful ∧ comparison.Lawful :=
  ⟨Comparison.lawful_of_lawfulAt Nbt.lawfulAt, Comparison.lawful_of_lawfulAt ArgumentValue.lawfulAt,
    Comparison.lawful_of_lawfulAt lawfulAt⟩

/-- Arguments in another order, one of them data with fields in another order, and a NaN deep in data. -/
theorem eqv_lawful_nested :
    let zero : Binary64 := .finite true ⟨0, by decide⟩
    let data := Nbt.list [.compound [("a", .double zero), ("b", .int 1)]]
    let data' := Nbt.list [.compound [("b", .int 1), ("a", .double zero)]]
    let s : Selector := ⟨.entities, [(.known .nbt, .nbt data), (.known .limit, .int 1)]⟩
    let u : Selector := ⟨.entities, [(.known .limit, .int 1), (.known .nbt, .nbt data')]⟩
    let t : Selector := ⟨.entities, [(.known .nbt, .nbt (.compound [("a", .list [.float .nan])]))]⟩
    s.eqv u ∧ u.eqv s ∧ ¬ t.eqv t := by
  intro zero data data' s u t
  obtain ⟨-, -, hlawful⟩ := eqv_lawful
  have hdata : data.Reordered data' :=
    .list (.cons (.compound (.swap _ _ _) (.cons ⟨_, .same _⟩ (.cons ⟨_, .same _⟩ .nil))) .nil)
  have hself : s.Reordered s := ⟨rfl, OrderedMap.reordered_of_perm .same (.refl _)⟩
  have hreordered : s.Reordered u :=
    ⟨rfl, _, .swap _ _ _, .cons ⟨rfl, .same _⟩ (.cons ⟨rfl, .nbt hdata⟩ .nil)⟩
  have hs : s.hasDistinctNames := by decide
  have hu : u.hasDistinctNames := by decide
  have ht : t.hasDistinctNames := by decide
  have hnumbers : s.everyFloat fun _ => Binary.isNumber := by decide
  have hss : s.eqv s := (hlawful.refl_iff s hs).2 hnumbers
  have hsu : s.eqv u := by
    have hsame : s.eqv s = s.eqv u := hlawful.unordered s s s u hs hs hself hreordered
    rwa [← hsame]
  refine ⟨hsu, hlawful.symm s u hs hu hsu, fun htt => ?_⟩
  have hnan : t.everyFloat fun _ => Binary.isNumber := (hlawful.refl_iff t ht).1 htt
  revert hnan
  decide

end Selector

end TargetSelector
