import TargetSelector.Proofs.Argument.Admission
import TargetSelector.Proofs.Numeric.Text

/-!
The text of a range determines the range, up to the sign of a zero. The first two points that stand side
by side are those of the range.
-/
namespace TargetSelector

/-- What may follow the number at the front of a range: nothing, or two points and more. -/
def IsRangeTail (r : List Char) : Prop := r = [] ∨ ∃ s, r = '.' :: '.' :: s

theorem eq_point_of_mem_head? {fraction r : List Char} (hr : IsRangeTail r) {c : Char}
    (hc : c ∈ (Decimal.fractionText fraction ++ r).head?) : c = '.' := by
  unfold Decimal.fractionText at hc
  split at hc
  · rcases hr with rfl | ⟨s, rfl⟩
    · cases hc
    · exact (Option.some.inj hc).symm
  · exact (Option.some.inj hc).symm

/-- The tail of a range is not taken for a fraction: a digit follows the point of that. -/
theorem fraction_ne_tail {d : Char} (hd : d.isDigit) {r : List Char} (hr : IsRangeTail r)
    (fraction s : List Char) : r ≠ Decimal.fractionText (d :: fraction) ++ s := by
  rintro rfl
  rcases hr with hnil | ⟨t, hcons⟩
  · cases hnil
  · obtain ⟨-, htail⟩ := List.cons_eq_cons.1 hcons
    obtain ⟨rfl, -⟩ := List.cons_eq_cons.1 htail
    cases hd

/-- A fraction ends where the tail of a range begins. -/
theorem fraction_unique {f g r s : List Char} (hf : ∀ c ∈ f, c.isDigit) (hg : ∀ c ∈ g, c.isDigit)
    (hr : IsRangeTail r) (hs : IsRangeTail s)
    (h : Decimal.fractionText f ++ r = Decimal.fractionText g ++ s) : f = g ∧ r = s := by
  have hbreak : ∀ {t : List Char}, IsRangeTail t → ∀ c ∈ t.head?, ¬ c.isDigit := by
    rintro t (rfl | ⟨u, rfl⟩) c hc
    · cases hc
    · cases hc
      decide
  cases f with
  | nil =>
    cases g with
    | nil => exact ⟨rfl, h⟩
    | cons d g => exact absurd h (fraction_ne_tail (hg d List.mem_cons_self) hr g s)
  | cons d f =>
    cases g with
    | nil => exact absurd h.symm (fraction_ne_tail (hf d List.mem_cons_self) hs f r)
    | cons e g => exact run_unique hf hg (hbreak hr) (hbreak hs) (List.cons_eq_cons.1 h).2

/-- A part without a point, and perhaps a fraction behind it. -/
def HasParts (t : List Char) : Prop :=
  ∃ whole fraction : List Char, t = whole ++ Decimal.fractionText fraction ∧ whole ≠ [] ∧
    (∀ c ∈ whole, c ≠ '.') ∧ ∀ c ∈ fraction, c.isDigit

theorem hasParts_word {t : List Char} (hne : t ≠ []) (h : t.all (· ≠ '.')) : HasParts t :=
  ⟨t, [], (List.append_nil t).symm, hne, fun c hc => of_decide_eq_true (List.all_eq_true.1 h c hc),
    fun _ hc => nomatch hc⟩

namespace Binary

variable {F : FloatFormat}

theorem hasParts_unsignedText (x : Binary F) : HasParts x.unsignedText.toList := by
  have hnan : HasParts "NaN".toList := hasParts_word (by decide) rfl
  have hinf : HasParts "inf".toList := hasParts_word (by decide) rfl
  cases x with
  | nan => exact hnan
  | infinite s => exact hinf
  | finite s k =>
    obtain ⟨whole, fraction, htext, hne, hwhole, hfraction⟩ := (F.shortest .upward k).exists_parts
    refine ⟨whole, fraction, htext, hne, ?_, hfraction⟩
    rintro c hc rfl
    exact absurd (hwhole _ hc) (by decide)

theorem hasParts_text (x : Binary F) : HasParts x.text.toList := by
  obtain ⟨whole, fraction, htext, hne, hwhole, hfraction⟩ := x.hasParts_unsignedText
  have hsign : (if x.isNegative then "-" else "").toList.all (· ≠ '.') := by
    cases x.isNegative <;> rfl
  refine ⟨(if x.isNegative then "-" else "").toList ++ whole, fraction, ?_, ?_, ?_, hfraction⟩
  · rw [text_eq, String.toList_append, htext, List.append_assoc]
  · exact List.append_ne_nil_of_right_ne_nil _ hne
  · intro c hc
    rcases List.mem_append.1 hc with hc | hc
    · exact of_decide_eq_true (List.all_eq_true.1 hsign c hc)
    · exact hwhole c hc

theorem point_ne_text_append (x : Binary F) (r s : List Char) : '.' :: r ≠ x.text.toList ++ s := by
  obtain ⟨whole, fraction, htext, hne, hwhole, -⟩ := x.hasParts_text
  obtain ⟨c, cs, rfl⟩ := List.exists_cons_of_ne_nil hne
  intro h
  rw [htext] at h
  exact hwhole c List.mem_cons_self (List.cons_eq_cons.1 h).1.symm

/-- A number at the front of a range ends where the tail begins. -/
theorem text_append_unique {x y : Binary F} {r s : List Char} (hr : IsRangeTail r)
    (hs : IsRangeTail s) (h : x.text.toList ++ r = y.text.toList ++ s) : x = y ∧ r = s := by
  obtain ⟨whole, fraction, hx, -, hwhole, hfraction⟩ := x.hasParts_text
  obtain ⟨whole', fraction', hy, -, hwhole', hfraction'⟩ := y.hasParts_text
  rw [hx, hy, List.append_assoc, List.append_assoc] at h
  obtain ⟨rfl, hrest⟩ := run_unique hwhole hwhole'
    (fun c hc => not_not_intro (eq_point_of_mem_head? hr hc))
    (fun c hc => not_not_intro (eq_point_of_mem_head? hs hc)) h
  obtain ⟨rfl, htail⟩ := fraction_unique hfraction hfraction' hr hs hrest
  exact ⟨text_injective (String.toList_inj.1 (hx.trans hy.symm)), htail⟩

end Binary

namespace Range

def canonical : Range → Range
  | .exact v => .exact v.canonical
  | .between lo hi => .between lo.canonical hi.canonical
  | .atLeast lo => .atLeast lo.canonical
  | .atMost hi => .atMost hi.canonical

/-- Away from NaN, ranges are equal if their canonical forms are. -/
theorem eqv_iff_canonical {r q : Range} :
    r.eqv q ↔ (∀ x ∈ r.bounds, x ≠ .nan) ∧ r.canonical = q.canonical := by
  cases r <;> cases q <;> simp [eqv, canonical, bounds, Binary.ieeeEq_iff_canonical, and_and_and_comm]

theorem text_canonical (r : Range) : r.canonical.text = r.text := by
  cases r <;> simp only [canonical, text, Binary.canonical_canonical]

theorem text_eq_of_eqv {r q : Range} (h : r.eqv q) : r.text = q.text := by
  rw [← text_canonical r, (eqv_iff_canonical.1 h).2, text_canonical]

/-- The text of a range behind its lower bound or its one value. -/
def tail : Range → List Char
  | .exact _ => []
  | .between _ hi | .atMost hi => '.' :: '.' :: hi.canonical.text.toList
  | .atLeast _ => ['.', '.']

theorem isRangeTail_tail (r : Range) : IsRangeTail r.tail := by
  cases r with
  | exact v => exact Or.inl rfl
  | between lo hi => exact Or.inr ⟨_, rfl⟩
  | atLeast lo => exact Or.inr ⟨_, rfl⟩
  | atMost hi => exact Or.inr ⟨_, rfl⟩

theorem toList_text (r : Range) :
    r.text.toList = (r.min?.elim [] fun lo => lo.canonical.text.toList) ++ r.tail := by
  cases r with
  | exact v => exact (List.append_nil _).symm
  | between lo hi =>
    rw [text, String.toList_append, String.toList_append, List.append_assoc]
    rfl
  | atLeast lo =>
    rw [text, String.toList_append]
    rfl
  | atMost hi =>
    rw [text, String.toList_append]
    rfl

/-- Without a lower bound the two points come first. -/
theorem exists_tail_of_min? {r : Range} (h : r.min? = none) : ∃ s, r.tail = '.' :: s := by
  cases r with
  | atMost hi => exact ⟨_, rfl⟩
  | _ => cases h

theorem parts_eq_of_text_eq {r q : Range} (h : r.text = q.text) :
    r.min?.map Binary.canonical = q.min?.map Binary.canonical ∧ r.tail = q.tail := by
  have hlist : r.text.toList = q.text.toList := congrArg String.toList h
  rw [toList_text, toList_text] at hlist
  cases hr : r.min? with
  | none =>
    rw [hr] at hlist
    cases hq : q.min? with
    | none =>
      rw [hq] at hlist
      exact ⟨rfl, hlist⟩
    | some y =>
      obtain ⟨s, hs⟩ := exists_tail_of_min? hr
      rw [hq, hs] at hlist
      exact absurd hlist (y.canonical.point_ne_text_append _ _)
  | some x =>
    rw [hr] at hlist
    cases hq : q.min? with
    | none =>
      obtain ⟨s, hs⟩ := exists_tail_of_min? hq
      rw [hq, hs] at hlist
      exact absurd hlist.symm (x.canonical.point_ne_text_append _ _)
    | some y =>
      rw [hq] at hlist
      obtain ⟨hxy, htail⟩ := Binary.text_append_unique r.isRangeTail_tail q.isRangeTail_tail hlist
      exact ⟨congrArg some hxy, htail⟩

/-- Ranges with the same text have the same form and, zeros aside, the same bounds. -/
theorem canonical_eq_of_text_eq {r q : Range} (h : r.text = q.text) : r.canonical = q.canonical := by
  obtain ⟨hmin, htail⟩ := parts_eq_of_text_eq h
  have hupper : ∀ {x y : Binary64}, '.' :: '.' :: x.text.toList = '.' :: '.' :: y.text.toList →
      x = y := by
    intro x y h
    exact Binary.text_injective (String.toList_inj.1 (by simpa using h))
  have hpoints : ∀ x : Binary64, '.' :: '.' :: x.text.toList ≠ ['.', '.'] := by
    intro x h
    exact x.isToken_text.1 (by simpa using h)
  cases r with
  | exact v =>
    cases q with
    | exact w => exact congrArg exact (Option.some.inj hmin)
    | _ => cases htail
  | between lo hi =>
    cases q with
    | exact w => cases htail
    | between lo' hi' => rw [canonical, canonical, Option.some.inj hmin, hupper htail]
    | atLeast lo' => exact absurd htail (hpoints _)
    | atMost hi' => cases hmin
  | atLeast lo =>
    cases q with
    | exact w => cases htail
    | between lo' hi' => exact absurd htail.symm (hpoints _)
    | atLeast lo' => exact congrArg atLeast (Option.some.inj hmin)
    | atMost hi' => cases hmin
  | atMost hi =>
    cases q with
    | atMost hi' => exact congrArg atMost (hupper htail)
    | _ => cases hmin

/-- Two ranges are equal exactly if no bound of either is NaN and they have the same text. So away from
NaN a text stands for one form of range, and for bounds that are equal as numbers: those that differ
only in the sign of a zero print the same, and no others do. -/
theorem eqv_iff_text_eq (r q : Range) :
    r.eqv q ↔ (∀ x ∈ r.bounds ++ q.bounds, x ≠ .nan) ∧ r.text = q.text := by
  constructor
  · intro h
    have hr : ∀ x ∈ r.bounds, x ≠ .nan := (eqv_iff_canonical.1 h).1
    rw [eqv_comm] at h
    have hq : ∀ x ∈ q.bounds, x ≠ .nan := (eqv_iff_canonical.1 h).1
    exact ⟨List.forall_mem_append.2 ⟨hr, hq⟩, (text_eq_of_eqv h).symm⟩
  · rintro ⟨hnan, htext⟩
    exact eqv_iff_canonical.2 ⟨(List.forall_mem_append.1 hnan).1, canonical_eq_of_text_eq htext⟩

-- The point of a fraction stands beside the points of the range.
example : (Range.between (.ofDecimal false 5 (-1)) (.ofDecimal false 25 (-2))).text = "0.5..0.25" := by
  decide +kernel

end Range

end TargetSelector
