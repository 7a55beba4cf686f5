import Mathlib.Data.List.Forall2
import TargetSelector.Argument.OfJson
import TargetSelector.Proofs.Argument.Admission
import TargetSelector.Proofs.Numeric.Magnitude
import TargetSelector.Proofs.Results

/-! What is read from JSON for a shape is admitted by the shape, as numbers of JSON are finite. -/
namespace TargetSelector

namespace Range

theorem isFinite_of_bound {name : String} {members : List (String × Json)} {bound? : Option Binary64}
    (h : bound name members = .ok bound?) : bound?.all Binary.isFinite := by
  unfold bound at h
  split at h
  · cases h
    rfl
  · cases h
    rfl
  · next n _ =>
    cases h
    exact n.isFinite_toBinary
  · cases h

private theorem isFinite_of_ofBounds? {lo hi : Option Binary64} {r : Range}
    (h : ofBounds? lo hi = some r)
    (hlo : lo.all Binary.isFinite) (hhi : hi.all Binary.isFinite) : r.isFinite := by
  cases lo with
  | none =>
    cases hi with
    | none => cases h
    | some y =>
      cases h
      exact hhi
  | some x =>
    have hx : x.isFinite := hlo
    cases hi with
    | none =>
      cases h
      simp [isFinite, min?, max?, hx]
    | some y =>
      have hy : y.isFinite := hhi
      cases h
      split <;> simp [isFinite, min?, max?, hx, hy]

theorem isFinite_of_ofJson {v : Json} {r : Range} (h : Range.ofJson v = .ok r) : r.isFinite := by
  cases v with
  | number n =>
    cases h
    simp [isFinite, min?, max?, n.isFinite_toBinary]
  | object members =>
    obtain ⟨lo, hlo, h⟩ := bind_eq_ok.1 h
    obtain ⟨hi, hhi, h⟩ := bind_eq_ok.1 h
    split at h
    · next q hq =>
      cases h
      exact isFinite_of_ofBounds? hq (isFinite_of_bound hlo) (isFinite_of_bound hhi)
    · cases h
  | _ => cases h

end Range

theorem ArgumentKey.jsonShape_eq (key : ArgumentKey) : key.jsonShape = key.shape := by
  cases key with
  | known k => cases k <;> rfl
  | other name unknown => rfl

namespace ArgumentValue

theorem isFinite_of_range? {v : Json} {r : Range} (h : range? v = some r) : r.isFinite := by
  apply Range.isFinite_of_ofJson (v := v)
  unfold range? at h
  cases hr : Range.ofJson v with
  | error e => simp [hr, Except.toOption] at h
  | ok q => simpa [hr, Except.toOption] using h

theorem mapMembers?_eq_some {α : Type} {f : Json → Option α} {members : List (String × Json)}
    {m : OrderedMap String α} : mapMembers? f members = some m ↔
      members.Forall₂ (fun d e => e.1 = d.1 ∧ f d.2 = some e.2) m := by
  induction members generalizing m with
  | nil => simp [mapMembers?, eq_comm]
  | cons member members ih =>
    obtain ⟨name, v⟩ := member
    simp only [mapMembers?, Option.bind_eq_bind, Option.bind_eq_some_iff]
    constructor
    · rintro ⟨a, ha, as, has, h⟩
      cases h
      exact .cons ⟨rfl, ha⟩ (ih.1 has)
    · intro h
      cases h with
      | @cons _ e _ es hmember hrest =>
        obtain ⟨rfl, ha⟩ := hmember
        exact ⟨e.2, ha, es, ih.2 hrest, rfl⟩

theorem keys_of_mapMembers? {α : Type} {f : Json → Option α} {members : List (String × Json)}
    {m : OrderedMap String α} (h : mapMembers? f members = some m) :
    OrderedMap.keys m = OrderedMap.keys members := by
  have hentries := mapMembers?_eq_some.1 h
  clear h
  induction hentries with
  | nil => rfl
  | cons hmember _ ih => rw [OrderedMap.keys_cons, OrderedMap.keys_cons, ih, hmember.1]

theorem exists_of_mapMembers? {α : Type} {f : Json → Option α} {members : List (String × Json)}
    {m : OrderedMap String α} (h : mapMembers? f members = some m) :
    ∀ e ∈ m, ∃ d ∈ members, f d.2 = some e.2 := by
  have hentries := mapMembers?_eq_some.1 h
  clear h
  induction hentries with
  | nil => exact fun e he => nomatch he
  | @cons d _ _ _ hmember _ ih =>
    intro e he
    rcases List.mem_cons.1 he with rfl | he
    · exact ⟨d, List.mem_cons_self, hmember.2⟩
    · obtain ⟨d', hd', he⟩ := ih e he
      exact ⟨d', List.mem_cons_of_mem _ hd', he⟩

theorem admits_of_scalar? {v : Json} {a : ArgumentValue} (h : scalar? v = some a) :
    Shape.scalar.admits a := by
  cases v with
  | number n =>
    obtain ⟨rfl⟩ := Option.some.inj h
    cases hn : n.toInt64? with
    | some i => rfl
    | none => exact n.isFinite_toBinary
  | string s =>
    cases h
    rfl
  | _ => cases h

/-- Reading for a shape and admission by it go through the same cases. -/
theorem admits_of_ofShape? {sh : Shape} {v : Json} {a : ArgumentValue}
    (h : ofShape? sh v = some a) : sh.admits a := by
  cases sh with
  | scalar =>
    cases v with
    | object members =>
      obtain ⟨r, hr, rfl⟩ := Option.map_eq_some_iff.1 h
      exact isFinite_of_range? hr
    | number n => exact admits_of_scalar? (v := .number n) h
    | string s => exact admits_of_scalar? (v := .string s) h
    | _ => cases h
  | scores =>
    cases v with
    | object members =>
      obtain ⟨m, hm, rfl⟩ := Option.map_eq_some_iff.1 h
      apply List.all_eq_true.2
      intro e he
      obtain ⟨d, -, hd⟩ := exists_of_mapMembers? hm e he
      exact isFinite_of_range? hd
    | _ => cases h
  | range =>
    obtain ⟨r, hr, rfl⟩ := Option.map_eq_some_iff.1 h
    exact isFinite_of_range? hr
  | flags =>
    obtain ⟨m, -, rfl⟩ := Option.map_eq_some_iff.1 h
    rfl
  | advancements =>
    cases v with
    | object members =>
      obtain ⟨m, -, rfl⟩ := Option.map_eq_some_iff.1 h
      rfl
    | _ => cases h
  | nbt =>
    cases v with
    | object members =>
      obtain ⟨n, -, rfl⟩ := Option.map_eq_some_iff.1 h
      rfl
    | _ => cases h
  | anything => rfl

theorem ofJson_eq_ok {key : ArgumentKey} {v : Json} {a : ArgumentValue} :
    ofJson key v = .ok a ↔ ofShape? key.shape v = some a := by
  rw [ofJson, key.jsonShape_eq]
  cases ofShape? key.shape v <;> simp

theorem ofJson_eq_error {key : ArgumentKey} {v : Json} {e : MalformedArgument} :
    ofJson key v = .error e ↔ ofShape? key.shape v = none ∧ e = ⟨key⟩ := by
  rw [ofJson, key.jsonShape_eq]
  cases ofShape? key.shape v <;> simp [eq_comm]

theorem exists_segments_of_ofJson {key : ArgumentKey} {v : Json} {a : ArgumentValue}
    (h : ofJson key v = .ok a) : ∃ ss, key.segments a = .ok ss := by
  rw [ArgumentKey.segments_eq, if_pos (admits_of_ofShape? (ofJson_eq_ok.1 h))]
  exact ⟨_, rfl⟩

end ArgumentValue

end TargetSelector
