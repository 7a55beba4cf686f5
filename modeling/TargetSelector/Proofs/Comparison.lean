import Mathlib.Data.List.Forall2
import TargetSelector.Numeric.Binary
import TargetSelector.Proofs.OrderedMap

/-!
Comparisons that ignore order and compare numbers as numbers. The laws are stated for one value at a
time, so that an induction over trees can carry them.
-/
namespace TargetSelector

structure Comparison (α : Type) where
  eqv : α → α → Bool
  /-- No map of a value has a name twice. -/
  distinct : α → Prop
  /-- The entries of the maps of a value, in another order. -/
  reordered : α → α → Prop
  /-- Every number of a value is a number. -/
  numeric : α → Prop

namespace Comparison

variable {α β : Type}

/-- The laws of a comparison at a value on the left. -/
structure LawfulAt (C : Comparison α) (a : α) : Prop where
  symm : ∀ b, C.distinct a → C.distinct b → C.eqv a b = C.eqv b a
  trans : ∀ b c, C.distinct a → C.distinct b → C.distinct c → C.eqv a b → C.eqv b c → C.eqv a c
  unordered : ∀ a' b, C.distinct a → C.distinct b → C.reordered a a' → C.eqv a b = C.eqv a' b
  refl_iff : C.distinct a → (C.eqv a a ↔ C.numeric a)
  distinct_of_reordered : ∀ a', C.reordered a a' → C.distinct a → C.distinct a'

/-- A comparison that is symmetric and transitive, in which the order of entries does not matter on
either side, and in which the values that equal themselves are those without NaN. -/
structure Lawful (C : Comparison α) : Prop where
  symm : ∀ a b, C.distinct a → C.distinct b → C.eqv a b → C.eqv b a
  trans : ∀ a b c, C.distinct a → C.distinct b → C.distinct c → C.eqv a b → C.eqv b c → C.eqv a c
  unordered : ∀ a a' b b', C.distinct a → C.distinct b → C.reordered a a' → C.reordered b b' →
    C.eqv a b = C.eqv a' b'
  refl_iff : ∀ a, C.distinct a → (C.eqv a a ↔ C.numeric a)

/-- Symmetry carries what holds of values on the left over to those on the right. -/
theorem lawful_of_lawfulAt {C : Comparison α} (h : ∀ a, C.LawfulAt a) : C.Lawful where
  symm a b ha hb hab := by
    rw [← (h a).symm b ha hb]
    exact hab
  trans a := (h a).trans
  unordered a a' b b' ha hb haa' hbb' := by
    have ha' : C.distinct a' := (h a).distinct_of_reordered a' haa' ha
    have hb' : C.distinct b' := (h b).distinct_of_reordered b' hbb' hb
    calc C.eqv a b = C.eqv a' b := (h a).unordered a' b ha hb haa'
      _ = C.eqv b a' := (h a').symm b ha' hb
      _ = C.eqv b' a' := (h b).unordered b' a' hb ha' hbb'
      _ = C.eqv a' b' := (h b').symm a' hb' ha'
  refl_iff a := (h a).refl_iff

/-- The values that a constructor makes are told apart from all others and compared by their contents. -/
structure Embeds (C : Comparison α) (D : Comparison β) (f : α → β) : Prop where
  kind : ∀ a b, (∃ a', b = f a') ∨ D.eqv (f a) b = false ∧ D.eqv b (f a) = false
  eqv_eq : ∀ a a', D.eqv (f a) (f a') = C.eqv a a'
  distinct_iff : ∀ a, D.distinct (f a) ↔ C.distinct a
  reordered : ∀ a b, D.reordered (f a) b → ∃ a', b = f a' ∧ C.reordered a a'
  numeric_iff : ∀ a, D.numeric (f a) ↔ C.numeric a

section Embeds

variable {C : Comparison α} {D : Comparison β} {f : α → β} (h : C.Embeds D f)
include h

theorem Embeds.exists_of_eqv {a : α} {b : β} (hab : D.eqv (f a) b) : ∃ a', b = f a' := by
  rcases h.kind a b with hb | ⟨hfalse, -⟩
  · exact hb
  · rw [hfalse] at hab
    cases hab

theorem Embeds.lawfulAt {a : α} (ha : C.LawfulAt a) : D.LawfulAt (f a) where
  symm b hda hdb := by
    rcases h.kind a b with ⟨a', rfl⟩ | ⟨hab, hba⟩
    · rw [h.eqv_eq, h.eqv_eq]
      exact ha.symm a' ((h.distinct_iff a).1 hda) ((h.distinct_iff a').1 hdb)
    · rw [hab, hba]
  trans b c hda hdb hdc hab hbc := by
    obtain ⟨a', rfl⟩ := h.exists_of_eqv hab
    obtain ⟨a'', rfl⟩ := h.exists_of_eqv hbc
    rw [h.eqv_eq] at hab hbc ⊢
    rw [h.distinct_iff] at hda hdb hdc
    exact ha.trans a' a'' hda hdb hdc hab hbc
  unordered b c hda hdc hab := by
    obtain ⟨a', rfl, haa'⟩ := h.reordered a b hab
    rw [h.distinct_iff] at hda
    rcases h.kind a c with ⟨a'', rfl⟩ | ⟨hac, hca⟩
    · rw [h.distinct_iff] at hdc
      rw [h.eqv_eq, h.eqv_eq]
      exact ha.unordered a' a'' hda hdc haa'
    · rcases h.kind a' c with ⟨a'', rfl⟩ | ⟨hac', -⟩
      · rw [h.distinct_iff] at hdc
        rw [h.eqv_eq, h.eqv_eq]
        exact ha.unordered a' a'' hda hdc haa'
      · rw [hac, hac']
  refl_iff hda := by
    rw [h.eqv_eq, h.numeric_iff]
    exact ha.refl_iff ((h.distinct_iff a).1 hda)
  distinct_of_reordered b hab hda := by
    obtain ⟨a', rfl, haa'⟩ := h.reordered a b hab
    exact (h.distinct_iff a').2 (ha.distinct_of_reordered a' haa' ((h.distinct_iff a).1 hda))

end Embeds

theorem lawfulAt_of_eq {C : Comparison α} {a : α} (heqv : ∀ b, C.eqv a b ↔ a = b)
    (heqv' : ∀ b, C.eqv b a ↔ b = a) (hreordered : ∀ b, C.reordered a b → a = b)
    (hnumeric : C.numeric a) : C.LawfulAt a where
  symm b _ _ := Bool.eq_iff_iff.2 ((heqv b).trans (eq_comm.trans (heqv' b).symm))
  trans b c _ _ _ hab hbc := by
    obtain rfl := (heqv b).1 hab
    exact hbc
  unordered b c _ _ hab := by rw [hreordered b hab]
  refl_iff _ := iff_of_true ((heqv a).2 rfl) hnumeric
  distinct_of_reordered b hab ha := hreordered b hab ▸ ha

def plain (α : Type) [DecidableEq α] : Comparison α where
  eqv a b := a = b
  distinct _ := True
  reordered := Eq
  numeric _ := True

theorem lawfulAt_plain [DecidableEq α] (a : α) : (plain α).LawfulAt a :=
  lawfulAt_of_eq (fun _ => decide_eq_true_iff) (fun _ => decide_eq_true_iff)
    (fun _ => id) trivial

def binary (F : FloatFormat) : Comparison (Binary F) where
  eqv := Binary.ieeeEq
  distinct _ := True
  reordered := Eq
  numeric x := x ≠ .nan

theorem lawfulAt_binary {F : FloatFormat} (x : Binary F) : (binary F).LawfulAt x where
  symm y _ _ := x.ieeeEq_comm y
  trans y z _ _ _ hxy hyz := by
    obtain ⟨hx, hxy⟩ := Binary.ieeeEq_iff_canonical.1 hxy
    obtain ⟨-, hyz⟩ := Binary.ieeeEq_iff_canonical.1 hyz
    exact Binary.ieeeEq_iff_canonical.2 ⟨hx, hxy.trans hyz⟩
  unordered := by
    rintro x' y _ _ rfl
    rfl
  refl_iff _ := x.ieeeEq_self_iff
  distinct_of_reordered _ _ _ := trivial

def lists (C : Comparison α) : Comparison (List α) where
  eqv xs ys := xs.isEqv ys C.eqv
  distinct xs := ∀ x ∈ xs, C.distinct x
  reordered := List.Forall₂ C.reordered
  numeric xs := ∀ x ∈ xs, C.numeric x

theorem lawfulAt_lists {C : Comparison α} {xs : List α} (h : ∀ x ∈ xs, C.LawfulAt x) :
    C.lists.LawfulAt xs := by
  induction xs with
  | nil =>
    constructor
    · intro ys _ _
      cases ys <;> rfl
    · intro ys zs _ _ _ hxy hyz
      cases ys with
      | nil => exact hyz
      | cons y ys => cases hxy
    · intro xs' ys _ _ hxs'
      cases hxs'
      rfl
    · exact fun _ => iff_of_true rfl fun x hx => nomatch hx
    · intro xs' hxs' _
      cases hxs'
      exact fun x hx => nomatch hx
  | cons x xs ih =>
    obtain ⟨hx, hxs⟩ := List.forall_mem_cons.1 h
    have ih := ih hxs
    constructor
    · intro ys hdistinct hys
      cases ys with
      | nil => rfl
      | cons y ys =>
        obtain ⟨hdx, hdxs⟩ := List.forall_mem_cons.1 hdistinct
        obtain ⟨hdy, hdys⟩ := List.forall_mem_cons.1 hys
        exact congrArg₂ and (hx.symm y hdx hdy) (ih.symm ys hdxs hdys)
    · intro ys zs hdistinct hys hzs hxy hyz
      cases ys with
      | nil => cases hxy
      | cons y ys =>
        cases zs with
        | nil => cases hyz
        | cons z zs =>
          obtain ⟨hdx, hdxs⟩ := List.forall_mem_cons.1 hdistinct
          obtain ⟨hdy, hdys⟩ := List.forall_mem_cons.1 hys
          obtain ⟨hdz, hdzs⟩ := List.forall_mem_cons.1 hzs
          obtain ⟨hxy, hxys⟩ := Bool.and_eq_true_iff.1 hxy
          obtain ⟨hyz, hyzs⟩ := Bool.and_eq_true_iff.1 hyz
          have hhead : C.eqv x z := hx.trans y z hdx hdy hdz hxy hyz
          have htail : C.lists.eqv xs zs := ih.trans ys zs hdxs hdys hdzs hxys hyzs
          exact Bool.and_eq_true_iff.2 ⟨hhead, htail⟩
    · intro xs' ys hdistinct hys hxs'
      cases hxs' with
      | @cons _ x' _ xs' hreordered hrest =>
        cases ys with
        | nil => rfl
        | cons y ys =>
          obtain ⟨hdx, hdxs⟩ := List.forall_mem_cons.1 hdistinct
          obtain ⟨hdy, hdys⟩ := List.forall_mem_cons.1 hys
          exact congrArg₂ and (hx.unordered x' y hdx hdy hreordered)
            (ih.unordered xs' ys hdxs hdys hrest)
    · intro hdistinct
      obtain ⟨hdx, hdxs⟩ := List.forall_mem_cons.1 hdistinct
      have hself : C.lists.eqv (x :: xs) (x :: xs) ↔ C.eqv x x ∧ C.lists.eqv xs xs :=
        Bool.and_eq_true_iff
      rw [hself, hx.refl_iff hdx, ih.refl_iff hdxs]
      exact List.forall_mem_cons.symm
    · intro xs' hxs' hdistinct
      cases hxs' with
      | @cons _ x' _ xs' hreordered hrest =>
        obtain ⟨hdx, hdxs⟩ := List.forall_mem_cons.1 hdistinct
        exact List.forall_mem_cons.2 ⟨hx.distinct_of_reordered x' hreordered hdx,
          ih.distinct_of_reordered xs' hrest hdxs⟩

end Comparison

namespace OrderedMap

variable {κ α : Type}

/-- The same keys in another order, with related values. -/
def Reordered (R : α → α → Prop) (m n : OrderedMap κ α) : Prop :=
  ∃ l : OrderedMap κ α, m.Perm l ∧ l.Forall₂ (fun e f => e.1 = f.1 ∧ R e.2 f.2) n

theorem reordered_of_perm {R : α → α → Prop} (hR : ∀ a, R a a) {m n : OrderedMap κ α}
    (h : m.Perm n) : m.Reordered R n :=
  ⟨n, h, List.forall₂_same.2 fun e _ => ⟨rfl, hR e.2⟩⟩

theorem keys_eq_of_forall₂ {R : α → α → Prop} {m n : OrderedMap κ α}
    (h : m.Forall₂ (fun e f => e.1 = f.1 ∧ R e.2 f.2) n) : keys m = keys n := by
  induction h with
  | nil => rfl
  | cons hentry _ ih => rw [keys_cons, keys_cons, hentry.1, ih]

private theorem Reordered.perm_keys {R : α → α → Prop} {m n : OrderedMap κ α} (h : m.Reordered R n) :
    (keys m).Perm (keys n) := by
  obtain ⟨l, hperm, hentries⟩ := h
  rw [← keys_eq_of_forall₂ hentries]
  exact hperm.map _

private theorem Reordered.exists_of_mem {R : α → α → Prop} {m n : OrderedMap κ α}
    (h : m.Reordered R n)
    {f : κ × α} (hf : f ∈ n) : ∃ e ∈ m, e.1 = f.1 ∧ R e.2 f.2 := by
  obtain ⟨l, hperm, hentries⟩ := h
  suffices hl : ∃ e ∈ l, e.1 = f.1 ∧ R e.2 f.2 by
    obtain ⟨e, he, hef⟩ := hl
    exact ⟨e, hperm.mem_iff.2 he, hef⟩
  clear hperm
  induction hentries with
  | nil => cases hf
  | @cons e f' _ _ hentry _ ih =>
    rcases List.mem_cons.1 hf with rfl | hf
    · exact ⟨e, List.mem_cons_self, hentry⟩
    · obtain ⟨e', he', hef⟩ := ih hf
      exact ⟨e', List.mem_cons_of_mem e he', hef⟩

end OrderedMap

namespace Comparison

section Maps

open OrderedMap

variable {κ α : Type} [DecidableEq κ]

def maps (κ : Type) [DecidableEq κ] (C : Comparison α) : Comparison (OrderedMap κ α) where
  eqv := OrderedMap.eqv C.eqv
  distinct m := (keys m).Nodup ∧ ∀ e ∈ m, C.distinct e.2
  reordered := OrderedMap.Reordered C.reordered
  numeric m := ∀ e ∈ m, C.numeric e.2

/-- A value that comes in place of another under its key is compared alike. -/
theorem eqv_of_forall₂ {C : Comparison α} {l m n : OrderedMap κ α} (hn : (keys n).Nodup)
    (h : l.Forall₂ (fun e f => e.1 = f.1 ∧ C.reordered e.2 f.2) m)
    (hvalues : ∀ e ∈ l, ∀ a, C.reordered e.2 a → ∀ f ∈ n, C.eqv e.2 f.2 = C.eqv a f.2) :
    OrderedMap.eqv C.eqv l n = OrderedMap.eqv C.eqv m n := by
  have hall : (∀ e ∈ l, ∃ b, get? e.1 n = some b ∧ C.eqv e.2 b) ↔
      ∀ e ∈ m, ∃ b, get? e.1 n = some b ∧ C.eqv e.2 b := by
    induction h with
    | nil => rfl
    | @cons e f l m hentry _ ih =>
      obtain ⟨he, hl⟩ := List.forall_mem_cons.1 hvalues
      rw [List.forall_mem_cons, List.forall_mem_cons, ih hl, hentry.1]
      refine and_congr_left' (exists_congr fun b => and_congr_right fun hb => ?_)
      rw [he f.2 hentry.2 (f.1, b) ((mem_iff_get? hn).2 hb)]
  rw [Bool.eq_iff_iff, eqv_iff, eqv_iff, h.length_eq, hall]

theorem lawfulAt_maps {C : Comparison α} {m : OrderedMap κ α} (h : ∀ e ∈ m, C.LawfulAt e.2) :
    (C.maps κ).LawfulAt m where
  symm n hm hn := by
    refine Bool.eq_iff_iff.2 ⟨fun hmn => ?_, fun hnm => ?_⟩
    · refine OrderedMap.eqv_symm hm.1 hmn fun k a b ha hb hab => ?_
      rwa [← (h _ ha).symm b (hm.2 _ ha) (hn.2 _ hb)]
    · refine OrderedMap.eqv_symm hn.1 hnm fun k b a hb ha hba => ?_
      rwa [(h _ ha).symm b (hm.2 _ ha) (hn.2 _ hb)]
  trans n p hm hn hp hmn hnp :=
    OrderedMap.eqv_trans hn.1 hp.1 hmn hnp fun k a b c ha hb hc =>
      (h _ ha).trans b c (hm.2 _ ha) (hn.2 _ hb) (hp.2 _ hc)
  unordered m' n hm hn := by
    rintro ⟨l, hperm, hentries⟩
    calc (C.maps κ).eqv m n = (C.maps κ).eqv l n := OrderedMap.eqv_of_perm hperm
      _ = (C.maps κ).eqv m' n := by
        refine eqv_of_forall₂ hn.1 hentries fun e he a hea f hf => ?_
        have hem : e ∈ m := hperm.mem_iff.2 he
        exact (h e hem).unordered a f.2 (hm.2 e hem) (hn.2 f hf) hea
  refl_iff hm := by
    have hself : (C.maps κ).eqv m m ↔ ∀ e ∈ m, C.eqv e.2 e.2 := OrderedMap.eqv_self_iff hm.1
    rw [hself]
    exact forall₂_congr fun e he => (h e he).refl_iff (hm.2 e he)
  distinct_of_reordered m' hm' hm := by
    refine ⟨hm'.perm_keys.nodup_iff.1 hm.1, fun f hf => ?_⟩
    obtain ⟨e, he, -, hef⟩ := hm'.exists_of_mem hf
    exact (h e he).distinct_of_reordered f.2 hef (hm.2 e he)

end Maps

end Comparison

end TargetSelector
