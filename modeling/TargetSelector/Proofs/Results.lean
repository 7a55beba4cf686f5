/-! Results that end with the first error, taken apart step by step and item by item. -/
namespace TargetSelector

variable {ε α β : Type}

theorem bind_eq_ok {x : Except ε α} {f : α → Except ε β} {b : β} :
    x >>= f = .ok b ↔ ∃ a, x = .ok a ∧ f a = .ok b := by
  cases x with
  | error e => simp [bind, Except.bind]
  | ok a => simp [bind, Except.bind]

theorem bind_eq_error {x : Except ε α} {f : α → Except ε β} {e : ε} :
    x >>= f = .error e ↔ x = .error e ∨ ∃ a, x = .ok a ∧ f a = .error e := by
  cases x with
  | error e => simp [bind, Except.bind]
  | ok a => simp [bind, Except.bind]

theorem map_eq_ok {x : Except ε α} {f : α → β} {b : β} :
    x.map f = .ok b ↔ ∃ a, x = .ok a ∧ f a = b := by
  cases x with
  | error e => simp [Except.map]
  | ok a => simp [Except.map]

theorem mapError_eq_ok {δ : Type} {x : Except ε α} {f : ε → δ} {a : α} :
    x.mapError f = .ok a ↔ x = .ok a := by
  cases x with
  | error e =>
    constructor
    · intro h
      cases h
    · intro h
      cases h
  | ok b =>
    constructor
    · intro h
      cases h
      rfl
    · intro h
      cases h
      rfl

theorem mapError_eq_error {δ : Type} {x : Except ε α} {f : ε → δ} {d : δ} :
    x.mapError f = .error d ↔ ∃ e, x = .error e ∧ f e = d := by
  cases x with
  | error e =>
    constructor
    · intro h
      exact ⟨e, rfl, Except.error.inj h⟩
    · rintro ⟨e, h, rfl⟩
      cases h
      rfl
  | ok a =>
    constructor
    · intro h
      cases h
    · rintro ⟨e, h, -⟩
      cases h

/-- A result that can fail in one way only fails exactly if it has no value. -/
theorem eq_error_iff_of_unique {x : Except ε α} {e₀ e : ε} (h : ∀ e, x = .error e → e = e₀) :
    x = .error e ↔ e = e₀ ∧ ∀ a, x ≠ .ok a := by
  cases x with
  | error e' =>
    rw [h e' rfl]
    simp [eq_comm]
  | ok a => simp

theorem toOption_eq_some {x : Except ε α} {a : α} : x.toOption = some a ↔ x = .ok a := by
  cases x <;> simp [Except.toOption]

theorem mapM_eq_ok {f : α → Except ε β} {xs : List α} {ys : List β} :
    xs.mapM f = .ok ys ↔ xs.map f = ys.map .ok := by
  induction xs generalizing ys with
  | nil =>
    rw [List.mapM_nil, List.map_nil, eq_comm (a := []), List.map_eq_nil_iff]
    constructor
    · intro h
      cases h
      rfl
    · rintro rfl
      rfl
  | cons x xs ih =>
    rw [List.mapM_cons, bind_eq_ok, List.map_cons]
    constructor
    · rintro ⟨y, hy, h⟩
      obtain ⟨zs, hzs, h⟩ := bind_eq_ok.1 h
      cases h
      rw [hy, ih.1 hzs, List.map_cons]
    · intro h
      cases ys with
      | nil => cases h
      | cons y ys =>
        obtain ⟨hy, hys⟩ := List.cons_eq_cons.1 h
        exact ⟨y, hy, bind_eq_ok.2 ⟨ys, ih.2 hys, rfl⟩⟩

theorem mapM_eq_error {f : α → Except ε β} {xs : List α} {e : ε} :
    xs.mapM f = .error e ↔ ∃ before x after, xs = before ++ x :: after ∧
      (∀ b ∈ before, ∃ y, f b = .ok y) ∧ f x = .error e := by
  induction xs with
  | nil =>
    rw [List.mapM_nil]
    constructor
    · intro h
      cases h
    · rintro ⟨before, x, after, h, -⟩
      simp at h
  | cons x xs ih =>
    rw [List.mapM_cons, bind_eq_error]
    constructor
    · rintro (hx | ⟨y, hy, h⟩)
      · exact ⟨[], x, xs, rfl, fun b hb => (nomatch hb), hx⟩
      · rcases bind_eq_error.1 h with hxs | ⟨ys, _, h⟩
        · obtain ⟨before, z, after, rfl, hbefore, hz⟩ := ih.1 hxs
          refine ⟨x :: before, z, after, rfl, ?_, hz⟩
          intro b hb
          rcases List.mem_cons.1 hb with rfl | hb
          · exact ⟨y, hy⟩
          · exact hbefore b hb
        · cases h
    · rintro ⟨before, z, after, h, hbefore, hz⟩
      cases before with
      | nil =>
        obtain ⟨rfl, -⟩ := List.cons_eq_cons.1 h
        exact Or.inl hz
      | cons b before =>
        obtain ⟨rfl, hrest⟩ := List.cons_eq_cons.1 h
        obtain ⟨y, hy⟩ := hbefore x List.mem_cons_self
        have hxs : xs.mapM f = .error e :=
          ih.2 ⟨before, z, after, hrest, fun c hc => hbefore c (List.mem_cons_of_mem x hc), hz⟩
        exact Or.inr ⟨y, hy, bind_eq_error.2 (Or.inl hxs)⟩

end TargetSelector
