import TargetSelector.Proofs.Argument.OfJson
import TargetSelector.Proofs.Argument.Table

/-!
The JSON form of ranges. A finite range is read back as it was, but for an interval of one point. A
bound that is not finite is written as null, which is read as no bound.
-/
namespace TargetSelector

theorem Json.ofBinary_of_isFinite {x : Binary64} (h : x.isFinite) :
    ofBinary x = .number (.float x h) := by
  rw [ofBinary, JsonNumber.float?, dif_pos h]

theorem Json.ofBinary_of_not_isFinite {x : Binary64} (h : ¬ x.isFinite) : ofBinary x = .null := by
  rw [ofBinary, JsonNumber.float?, dif_neg h]

namespace Range

inductive IsPoint : Range → Prop where
  | between {lo hi : Binary64} (h : lo.ieeeEq hi) : IsPoint (.between lo hi)

def SameBound : Option Binary64 → Option Binary64 → Prop := Option.Rel fun x y => x.ieeeEq y

theorem sameBound_self {x? : Option Binary64} (h : x?.all Binary.isFinite) : SameBound x? x? := by
  cases x? with
  | none => exact .none
  | some x =>
    have hx : x ≠ .nan := by
      rintro rfl
      cases h
    exact .some ((Binary.ieeeEq_self_iff x).2 hx)

theorem filter_some_of_not_isFinite {x : Binary64} (h : ¬ x.isFinite) :
    (some x).filter Binary.isFinite = none :=
  Option.filter_some_neg (eq_false_of_ne_true h)

/-- The members that write two optional bounds. -/
def boundMembers (lo? hi? : Option Binary64) : List (String × Json) :=
  (lo?.map fun lo => ("min", .ofBinary lo)).toList ++ (hi?.map fun hi => ("max", .ofBinary hi)).toList

theorem bound_of_get? {name : String} {members : List (String × Json)} {x? : Option Binary64}
    (h : OrderedMap.get? name members = x?.map Json.ofBinary) :
    bound name members = .ok (x?.filter Binary.isFinite) := by
  unfold bound
  cases x? with
  | none =>
    rw [h]
    rfl
  | some x =>
    rw [h, Option.map_some]
    by_cases hx : x.isFinite
    · rw [Json.ofBinary_of_isFinite hx, Option.filter_some_pos hx]
      rfl
    · rw [Json.ofBinary_of_not_isFinite hx, filter_some_of_not_isFinite hx]

/-- Written bounds are read as the range of those that are finite. -/
theorem ofJson_boundMembers (lo? hi? : Option Binary64) {q : Range} :
    ofJson (.object (boundMembers lo? hi?)) = .ok q ↔
      ofBounds? (lo?.filter Binary.isFinite) (hi?.filter Binary.isFinite) = some q := by
  have hmin : bound "min" (boundMembers lo? hi?) = .ok (lo?.filter Binary.isFinite) :=
    bound_of_get? (by cases lo? <;> cases hi? <;> rfl)
  have hmax : bound "max" (boundMembers lo? hi?) = .ok (hi?.filter Binary.isFinite) :=
    bound_of_get? (by cases lo? <;> cases hi? <;> rfl)
  rw [ofJson, hmin, hmax]
  simp only [bind, Except.bind]
  cases ofBounds? (lo?.filter Binary.isFinite) (hi?.filter Binary.isFinite) <;>
    simp [pure, Except.pure]

section Bounds

variable {lo hi : Binary64}

private theorem ofJson_toJson_exact (h : lo.isFinite) :
    ofJson (exact lo).toJson = .ok (.exact lo) := by
  rw [toJson, Json.ofBinary_of_isFinite h]
  rfl

private theorem ofJson_toJson_atLeast (h : lo.isFinite) :
    ofJson (atLeast lo).toJson = .ok (.atLeast lo) := by
  apply (ofJson_boundMembers (some lo) none).2
  rw [Option.filter_some_pos h, Option.filter_none, ofBounds?]

private theorem ofJson_toJson_atMost (h : hi.isFinite) :
    ofJson (atMost hi).toJson = .ok (.atMost hi) := by
  apply (ofJson_boundMembers none (some hi)).2
  rw [Option.filter_some_pos h, Option.filter_none, ofBounds?]

theorem ofJson_toJson_between (hlo : lo.isFinite) (hhi : hi.isFinite) :
    ofJson (between lo hi).toJson = .ok (if lo.ieeeEq hi then .exact lo else .between lo hi) := by
  apply (ofJson_boundMembers (some lo) (some hi)).2
  rw [Option.filter_some_pos hlo, Option.filter_some_pos hhi, ofBounds?]

end Bounds

/-- A finite range is read back from its JSON, unless it is an interval of one point. -/
theorem ofJson_toJson {r : Range} (h : r.isFinite) (hpoint : ¬ r.IsPoint) : ofJson r.toJson = .ok r := by
  have hfinite : ∀ x ∈ r.bounds, x.isFinite := isFinite_iff.1 h
  cases r with
  | exact v => exact ofJson_toJson_exact (hfinite v List.mem_cons_self)
  | between lo hi =>
    have hlo : lo.isFinite := hfinite lo List.mem_cons_self
    have hhi : hi.isFinite := hfinite hi (List.mem_cons_of_mem _ List.mem_cons_self)
    have hne : ¬ lo.ieeeEq hi := fun heq => hpoint (.between heq)
    rw [ofJson_toJson_between hlo hhi, if_neg hne]
  | atLeast lo => exact ofJson_toJson_atLeast (hfinite lo List.mem_cons_self)
  | atMost hi => exact ofJson_toJson_atMost (hfinite hi List.mem_cons_self)

theorem ofJson_toJson_point {lo hi : Binary64} (h : (between lo hi).isFinite) (heq : lo.ieeeEq hi) :
    ofJson (between lo hi).toJson = .ok (.exact lo) := by
  have hfinite : ∀ x ∈ (between lo hi).bounds, x.isFinite := isFinite_iff.1 h
  have hlo : lo.isFinite := hfinite lo List.mem_cons_self
  have hhi : hi.isFinite := hfinite hi (List.mem_cons_of_mem _ List.mem_cons_self)
  rw [ofJson_toJson_between hlo hhi, if_pos heq]

private theorem not_isPoint_of_ofBounds? {lo hi : Option Binary64} {q : Range}
    (h : ofBounds? lo hi = some q) :
    ¬ q.IsPoint := by
  intro hpoint
  cases hpoint with
  | between heq =>
    cases lo with
    | none => cases hi <;> cases h
    | some x =>
      cases hi with
      | none => cases h
      | some y =>
        simp only [ofBounds?, Option.some.injEq] at h
        split at h
        · cases h
        · next hne =>
          cases h
          exact hne heq

private theorem not_isPoint_of_ofJson {v : Json} {q : Range} (h : ofJson v = .ok q) :
    ¬ q.IsPoint := by
  cases v with
  | number n =>
    cases h
    intro hpoint
    cases hpoint
  | object members =>
    obtain ⟨lo, -, h⟩ := bind_eq_ok.1 h
    obtain ⟨hi, -, h⟩ := bind_eq_ok.1 h
    split at h
    · next hq =>
      cases h
      exact not_isPoint_of_ofBounds? hq
    · cases h
  | _ => cases h

/-- A finite range is read back from its JSON bit for bit, and an interval of one point as its lower
bound; the bounds are the same numbers either way. What is read from any JSON is finite and no interval
of one point, and is read back from its own JSON. -/
theorem ofJson_toJson_of_isFinite :
    (∀ r : Range, r.isFinite → ∃ q, ofJson r.toJson = .ok q ∧ (¬ r.IsPoint → q = r) ∧
      (∀ lo hi, r = .between lo hi → lo.ieeeEq hi → q = .exact lo) ∧
      SameBound q.min? r.min? ∧ SameBound q.max? r.max?) ∧
    ∀ v q, ofJson v = .ok q → q.isFinite ∧ ¬ q.IsPoint ∧ ofJson q.toJson = .ok q := by
  constructor
  · intro r h
    obtain ⟨hmin, hmax⟩ := Bool.and_eq_true_iff.1 h
    by_cases hpoint : r.IsPoint
    · cases hpoint with
      | @between lo hi heq =>
        refine ⟨.exact lo, ofJson_toJson_point h heq, fun hne => absurd (.between heq) hne, ?_, ?_, ?_⟩
        · intro lo' hi' hr _
          cases hr
          rfl
        · exact sameBound_self hmin
        · exact .some heq
    · refine ⟨r, ofJson_toJson h hpoint, fun _ => rfl, ?_, sameBound_self hmin, sameBound_self hmax⟩
      rintro lo hi rfl heq
      exact absurd (.between heq) hpoint
  · intro v q h
    have hfinite : q.isFinite := isFinite_of_ofJson h
    have hpoint : ¬ q.IsPoint := not_isPoint_of_ofJson h
    exact ⟨hfinite, hpoint, ofJson_toJson hfinite hpoint⟩

/-- The interval between the two zeros, and bounds that are equal as numbers but not as JSON. -/
theorem ofJson_toJson_of_isFinite_zeros :
    let zero : Binary64 := .ofNat 0
    let r := between zero.neg zero
    let v := Json.object [("max", .number (.integer 1 (by decide))), ("min", .ofBinary (.ofNat 1))]
    (r.isFinite ∧ zero.neg ≠ zero ∧ ofJson r.toJson = .ok (.exact zero.neg)) ∧
      ∃ q, ofJson v = .ok q ∧ q.isFinite ∧ ¬ q.IsPoint ∧ ofJson q.toJson = .ok q := by
  intro zero r v
  obtain ⟨hwritten, hread⟩ := ofJson_toJson_of_isFinite
  have hfinite : r.isFinite := by decide +kernel
  have hne : zero.neg ≠ zero := by decide +kernel
  have heq : zero.neg.ieeeEq zero := by decide +kernel
  obtain ⟨q, hq, -, hpoint, -⟩ := hwritten r hfinite
  rw [hpoint _ _ rfl heq] at hq
  refine ⟨⟨hfinite, hne, hq⟩, ?_⟩
  have hok : (ofJson v).isOk = true := by decide +kernel
  cases h : ofJson v with
  | error e =>
    rw [h] at hok
    cases hok
  | ok p => exact ⟨p, rfl, hread v p h⟩

/-! ### Bounds that are not finite -/

/-- What becomes of an interval with one finite bound: the other one is lost. -/
inductive LosesBound : Range → Range → Prop where
  | upper {lo hi : Binary64} (hlo : lo.isFinite) (hhi : ¬ hi.isFinite) :
    LosesBound (.between lo hi) (.atLeast lo)
  | lower {lo hi : Binary64} (hlo : ¬ lo.isFinite) (hhi : hi.isFinite) :
    LosesBound (.between lo hi) (.atMost hi)

theorem LosesBound.isFinite {r q : Range} (h : r.LosesBound q) : q.isFinite := by
  cases h with
  | upper hlo hhi => exact isFinite_iff.2 (List.forall_mem_singleton.2 hlo)
  | lower hlo hhi => exact isFinite_iff.2 (List.forall_mem_singleton.2 hhi)

theorem LosesBound.ofJson_toJson {r q : Range} (h : r.LosesBound q) : ofJson r.toJson = .ok q := by
  cases h with
  | @upper lo hi hlo hhi =>
    apply (ofJson_boundMembers (some lo) (some hi)).2
    rw [Option.filter_some_pos hlo, filter_some_of_not_isFinite hhi, ofBounds?]
  | @lower lo hi hlo hhi =>
    apply (ofJson_boundMembers (some lo) (some hi)).2
    rw [filter_some_of_not_isFinite hlo, Option.filter_some_pos hhi, ofBounds?]

theorem losesBound_of_ofJson {r q : Range} (h : ¬ r.isFinite) (hq : ofJson r.toJson = .ok q) :
    r.LosesBound q := by
  rw [isFinite_iff] at h
  cases r with
  | exact v =>
    have hv : ¬ v.isFinite := fun hv => h (List.forall_mem_singleton.2 hv)
    rw [toJson, Json.ofBinary_of_not_isFinite hv] at hq
    cases hq
  | atLeast lo =>
    have hlo : ¬ lo.isFinite := fun hlo => h (List.forall_mem_singleton.2 hlo)
    have hbounds := (ofJson_boundMembers (some lo) none).1 hq
    rw [filter_some_of_not_isFinite hlo] at hbounds
    cases hbounds
  | atMost hi =>
    have hhi : ¬ hi.isFinite := fun hhi => h (List.forall_mem_singleton.2 hhi)
    have hbounds := (ofJson_boundMembers none (some hi)).1 hq
    rw [filter_some_of_not_isFinite hhi] at hbounds
    cases hbounds
  | between lo hi =>
    have hbounds := (ofJson_boundMembers (some lo) (some hi)).1 hq
    by_cases hlo : lo.isFinite
    · have hhi : ¬ hi.isFinite := fun hhi =>
        h (List.forall_mem_cons.2 ⟨hlo, List.forall_mem_singleton.2 hhi⟩)
      rw [Option.filter_some_pos hlo, filter_some_of_not_isFinite hhi] at hbounds
      cases hbounds
      exact .upper hlo hhi
    · rw [filter_some_of_not_isFinite hlo] at hbounds
      by_cases hhi : hi.isFinite
      · rw [Option.filter_some_pos hhi] at hbounds
        cases hbounds
        exact .lower hlo hhi
      · rw [filter_some_of_not_isFinite hhi] at hbounds
        cases hbounds

/-- A range with a bound that is not finite is read back from its JSON exactly if it is an interval
with one finite bound, and comes back with that bound alone. A key that takes ranges then accepts it,
where it did not accept the range that was written. -/
theorem ofJson_toJson_of_not_isFinite {r : Range} (h : ¬ r.isFinite) (q : Range) :
    (ofJson r.toJson = .ok q ↔ r.LosesBound q) ∧
      (ofJson r.toJson = .ok q → ∀ k ∈ Shape.scalar.keys ++ Shape.range.keys,
        ¬ (ArgumentKey.known k).Accepts (.range r) ∧ (ArgumentKey.known k).Accepts (.range q)) := by
  refine ⟨⟨losesBound_of_ofJson h, LosesBound.ofJson_toJson⟩, fun hq k hk => ⟨?_, ?_⟩⟩
  · intro haccepts
    cases haccepts with
    | range _ hr => exact h (isFinite_iff.2 hr)
  · exact .range hk (isFinite_iff.1 (losesBound_of_ofJson h hq).isFinite)

/-- An interval with no number for its lower bound. -/
theorem ofJson_toJson_of_not_isFinite_nan :
    let r := between .nan (.ofNat 5)
    ¬ r.isFinite ∧ ofJson r.toJson = .ok (.atMost (.ofNat 5)) ∧
      ¬ (ArgumentKey.known .level).Accepts (.range r) ∧
      (ArgumentKey.known .level).Accepts (.range (.atMost (.ofNat 5))) := by
  intro r
  have hfinite : ¬ r.isFinite := by decide +kernel
  have hlost : r.LosesBound (.atMost (.ofNat 5)) := .lower (by decide) (by decide +kernel)
  obtain ⟨hread, haccepts⟩ := ofJson_toJson_of_not_isFinite hfinite (.atMost (.ofNat 5))
  exact ⟨hfinite, hread.2 hlost, haccepts (hread.2 hlost) .level (by decide)⟩

/-- A range that `level` refuses comes back from its JSON as one that it prints. -/
theorem exists_ofJson_toJson_printed :
    ∃ r q, ¬ r.isFinite ∧ ofJson r.toJson = .ok q ∧
      (ArgumentKey.known .level).segments (.range r) = .error ⟨.known .level⟩ ∧
      (ArgumentKey.known .level).segments (.range q) = .ok ["level=..5"] := by
  refine ⟨.between .nan (.ofNat 5), .atMost (.ofNat 5), by decide +kernel, ?_, by decide +kernel,
    by decide +kernel⟩
  have hlost : (between .nan (.ofNat 5)).LosesBound (.atMost (.ofNat 5)) :=
    .lower (by decide) (by decide +kernel)
  exact hlost.ofJson_toJson

end Range

end TargetSelector
