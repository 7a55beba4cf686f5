import TargetSelector.Proofs.Argument.DistinctNames
import TargetSelector.Proofs.Argument.Unambiguous
import TargetSelector.Proofs.Range.Text

/-!
Equal argument values are admitted by the same shapes and get as many texts, and the same texts where
their maps list the names in the same order. For NBT this says nothing of the texts.
-/
namespace TargetSelector

private theorem Binary.isFinite_eq_of_ieeeEq {F : FloatFormat} {x y : Binary F} (h : x.ieeeEq y) :
    x.isFinite = y.isFinite := by
  rw [← isFinite_canonical x, (ieeeEq_iff_canonical.1 h).2, isFinite_canonical]

namespace Range

theorem isFinite_canonical (r : Range) : r.canonical.isFinite = r.isFinite := by
  cases r <;> simp [canonical, isFinite, min?, max?, Binary.isFinite_canonical]

theorem isFinite_eq_of_eqv {r q : Range} (h : r.eqv q) : r.isFinite = q.isFinite := by
  rw [← isFinite_canonical r, (eqv_iff_canonical.1 h).2, isFinite_canonical]

end Range

namespace Advancement

def names : Advancement → List String
  | .done _ => []
  | .criteria cs => OrderedMap.keys cs

theorem eq_of_eqv {a b : Advancement} (ha : a.hasDistinctNames) (h : a.eqv b)
    (hnames : a.names = b.names) : a = b := by
  cases a with
  | done x =>
    cases b with
    | done y => rw [of_decide_eq_true h]
    | criteria ds => cases h
  | criteria cs =>
    cases b with
    | done y => cases h
    | criteria ds =>
      have heqv : OrderedMap.eqv (· = ·) cs ds := h
      rw [OrderedMap.eq_of_eqv (hasDistinctNames_criteria.1 ha) heqv hnames
        fun _ _ _ _ _ => of_decide_eq_true]

end Advancement

namespace ArgumentValue

/-- Values that `eqv` takes for equal. -/
inductive Equal : ArgumentValue → ArgumentValue → Prop where
  | int (v : Int64) : Equal (.int v) (.int v)
  | float {v w : Binary64} (h : v.ieeeEq w) : Equal (.float v) (.float w)
  | text (v : String) : Equal (.text v) (.text v)
  | bool (v : Bool) : Equal (.bool v) (.bool v)
  | range {v w : Range} (h : v.eqv w) : Equal (.range v) (.range w)
  | flags {m n : OrderedMap String Bool} (h : OrderedMap.eqv (· = ·) m n) : Equal (.flags m) (.flags n)
  | scores {m n : OrderedMap String Range} (h : OrderedMap.eqv Range.eqv m n) :
    Equal (.scores m) (.scores n)
  | advancements {m n : OrderedMap String Advancement} (h : OrderedMap.eqv Advancement.eqv m n) :
    Equal (.advancements m) (.advancements n)
  | nbt {v w : Nbt} (h : v.eqv w) : Equal (.nbt v) (.nbt w)

theorem equal_of_eqv {v w : ArgumentValue} (h : v.eqv w) : v.Equal w := by
  unfold eqv at h
  split at h
  · rw [of_decide_eq_true h]
    exact .int _
  · exact .float h
  · rw [of_decide_eq_true h]
    exact .text _
  · rw [of_decide_eq_true h]
    exact .bool _
  · exact .range h
  · exact .flags h
  · exact .scores h
  · exact .advancements h
  · exact .nbt h
  · cases h

/-- The names in the maps of a value, in order: those of its own map, each with the names below it. -/
def names : ArgumentValue → List (String × List String)
  | .flags m => m.map fun (name, _) => (name, [])
  | .scores m => m.map fun (name, _) => (name, [])
  | .advancements m => m.map fun (name, a) => (name, a.names)
  | .int _ | .float _ | .text _ | .bool _ | .range _ | .nbt _ => []

section Equal

variable {v w : ArgumentValue}

theorem Equal.admits_eq (h : v.Equal w) (hv : v.hasDistinctNames) (sh : Shape) :
    sh.admits v = sh.admits w := by
  cases h with
  | int v | text v | bool v => rfl
  | float h =>
    cases sh with
    | scalar => exact Binary.isFinite_eq_of_ieeeEq h
    | _ => rfl
  | range h =>
    cases sh with
    | scalar | range => exact Range.isFinite_eq_of_eqv h
    | _ => rfl
  | scores h =>
    cases sh with
    | scores =>
      exact OrderedMap.all_eq_of_eqv (hasDistinctNames_scores.1 hv) h
        fun _ _ _ _ => Range.isFinite_eq_of_eqv
    | _ => rfl
  | flags h | advancements h | nbt h => cases sh <;> rfl

/-- A map has a text for each of its entries, or one if it has any, so its size decides. -/
theorem Equal.length_texts_eq (h : v.Equal w) (sh : Shape) :
    (v.texts sh).length = (w.texts sh).length := by
  cases h with
  | int v | text v | bool v => rfl
  | float h | range h | nbt h => cases sh <;> rfl
  | flags h =>
    have hlength := (OrderedMap.eqv_iff.1 h).1
    cases sh with
    | flags => simpa [texts] using hlength
    | _ => rfl
  | @scores m n h =>
    have hlength := (OrderedMap.eqv_iff.1 h).1
    cases sh with
    | scores => cases m <;> cases n <;> first | rfl | cases hlength
    | _ => rfl
  | @advancements m n h =>
    have hlength := (OrderedMap.eqv_iff.1 h).1
    cases sh with
    | advancements => cases m <;> cases n <;> first | rfl | cases hlength
    | _ => rfl

/-- Equal maps with the names in the same order have the same entries, up to ranges that print the
same. -/
theorem Equal.texts_eq (h : v.Equal w) (hv : v.hasDistinctNames) (hnames : v.names = w.names)
    (hnbt : ∀ n, v ≠ .nbt n) (sh : Shape) : v.texts sh = w.texts sh := by
  cases h with
  | int v | text v | bool v => rfl
  | @float x y h =>
    have hdisplay : display (.float x) = display (.float y) :=
      congrArg Binary.text (Binary.ieeeEq_iff_canonical.1 h).2
    cases sh <;> exact congrArg (fun t => [t]) hdisplay
  | @range r q h =>
    have hdisplay : display (.range r) = display (.range q) := Range.text_eq_of_eqv h
    cases sh <;> exact congrArg (fun t => [t]) hdisplay
  | flags h =>
    have hkeys := OrderedMap.keys_eq_of_map_eq (f := fun _ => []) hnames
    rw [OrderedMap.eq_of_eqv (hasDistinctNames_flags.1 hv) h hkeys
      fun _ _ _ _ _ => of_decide_eq_true]
  | scores h =>
    have hkeys := OrderedMap.keys_eq_of_map_eq (f := fun _ => []) hnames
    refine texts_eq_of_sameEntries (.scores ?_) sh
    refine OrderedMap.map_eq_of_eqv (hasDistinctNames_scores.1 hv) h hkeys fun k r q _ _ hrq => ?_
    rw [Range.text_eq_of_eqv hrq]
  | advancements h =>
    obtain ⟨hm, hvalues⟩ := hasDistinctNames_advancements.1 hv
    have hkeys := OrderedMap.keys_eq_of_map_eq hnames
    rw [OrderedMap.eq_of_eqv hm h hkeys fun k a b ha hb hab => ?_]
    have hcriteria : a.names = b.names := OrderedMap.value_eq_of_map_eq hnames hm ha hb
    exact Advancement.eq_of_eqv (hvalues _ ha) hab hcriteria
  | nbt h => exact absurd rfl (hnbt _)

end Equal

end ArgumentValue

namespace ArgumentKey

variable {v w : ArgumentValue}

/-- Equal values have as many segments, or are both malformed. -/
theorem length_segments_of_eqv (key : ArgumentKey) (hv : v.hasDistinctNames) (h : v.eqv w) :
    (key.segments v).map List.length = (key.segments w).map List.length := by
  have hequal : v.Equal w := ArgumentValue.equal_of_eqv h
  rw [segments_eq, segments_eq, hequal.admits_eq hv]
  split
  · simp only [Except.map, List.length_map, hequal.length_texts_eq]
  · rfl

theorem segments_of_eqv (key : ArgumentKey) (hv : v.hasDistinctNames) (h : v.eqv w)
    (hnames : v.names = w.names) (hnbt : ∀ n, v ≠ .nbt n) : key.segments v = key.segments w := by
  have hequal : v.Equal w := ArgumentValue.equal_of_eqv h
  rw [segments_eq, segments_eq, hequal.admits_eq hv, hequal.texts_eq hv hnames hnbt]

end ArgumentKey

end TargetSelector
