import TargetSelector.Proofs.Results
import TargetSelector.Target

/-! Reading of targets. A target is written as its letter, with or without one `@` before it. -/
namespace TargetSelector

namespace Target

def IsWritten (t : Target) (s : String) : Prop := s = t.text ∨ s = "@" ++ t.text

theorem isWritten_of_parse {s : String} {t : Target} (h : parse s = .ok t) : t.IsWritten s := by
  unfold parse at h
  dsimp only at h
  split at h
  · next u hu =>
    cases h
    have htag := ofLetters?_eq_some.1 hu
    split at htag
    · next r hs =>
      right
      rw [← String.toList_inj, hs, htag, String.toList_append, text, String.toList_singleton]
      rfl
    · left
      rw [← String.toList_inj, htag, text, String.toList_singleton]
  · cases h

theorem parse_eq_ok {s : String} {t : Target} : parse s = .ok t ↔ t.IsWritten s := by
  constructor
  · exact isWritten_of_parse
  · rintro (rfl | rfl)
    · cases t <;> rfl
    · cases t <;> rfl

theorem parse_eq_error {s : String} {e : UnknownName} :
    parse s = .error e ↔ e = ⟨.target, s⟩ ∧ ∀ t : Target, ¬ t.IsWritten s := by
  have hwhole : ∀ e, parse s = .error e → e = ⟨.target, s⟩ := by
    intro e he
    unfold parse at he
    dsimp only at he
    split at he
    · cases he
    · exact (Except.error.inj he).symm
  simp only [← parse_eq_ok]
  exact eq_error_iff_of_unique hwhole

theorem forall_not_isWritten_iff {s : String} : (∀ t : Target, ¬ t.IsWritten s) ↔
    ∀ c ∈ ['p', 'r', 'a', 'e', 's'], s ≠ String.singleton c ∧ s ≠ "@" ++ String.singleton c := by
  have htags : ['p', 'r', 'a', 'e', 's'] = all.map tag := rfl
  have hall : ∀ t : Target, t ∈ all := by
    intro t
    cases t <;> decide
  rw [htags, List.forall_mem_map]
  simp only [hall, forall_const, IsWritten, text, not_or]

end Target

end TargetSelector
