import Mathlib.Data.List.Induction
import Mathlib.Data.List.Nodup
import Mathlib.Data.List.Perm.Subperm
import TargetSelector.OrderedMap

/-!
Ordered maps as functions of their keys. Changes at several keys act on each key apart from the others,
and the keys come in the order in which they were first changed.
-/
namespace TargetSelector

namespace OrderedMap

variable {κ α : Type} [DecidableEq κ]

omit [DecidableEq κ] in
theorem mem_keys {k : κ} {m : OrderedMap κ α} : k ∈ keys m ↔ ∃ a, (k, a) ∈ m := by
  simp [keys]

theorem get?_eq_none_iff {k : κ} {m : OrderedMap κ α} : get? k m = none ↔ k ∉ keys m := by
  induction m with
  | nil => simp [get?]
  | cons e m ih =>
    rw [get?, keys_cons, List.mem_cons, not_or, ← ih]
    by_cases h : e.1 = k
    · simp [h]
    · rw [if_neg h]
      exact (and_iff_right fun h' => h h'.symm).symm

theorem mem_iff_get? {k : κ} {a : α} {m : OrderedMap κ α} (h : (keys m).Nodup) :
    (k, a) ∈ m ↔ get? k m = some a := by
  induction m with
  | nil => simp [get?]
  | cons e m ih =>
    obtain ⟨l, b⟩ := e
    obtain ⟨hl, hm⟩ := List.nodup_cons.1 h
    rw [List.mem_cons, ih hm, get?]
    by_cases hk : l = k
    · subst hk
      have hnone : get? l m = none := get?_eq_none_iff.2 hl
      simp [hnone, eq_comm]
    · rw [if_neg hk]
      exact or_iff_right fun h => hk (congrArg Prod.fst h).symm

theorem perm_of_get?_eq {m n : OrderedMap κ α} (hm : (keys m).Nodup) (hn : (keys n).Nodup)
    (h : ∀ k, get? k m = get? k n) : m.Perm n := by
  rw [List.perm_ext_iff_of_nodup (List.Nodup.of_map _ hm) (List.Nodup.of_map _ hn)]
  rintro ⟨k, a⟩
  rw [mem_iff_get? hm, mem_iff_get? hn, h]

theorem alter_of_not_mem {k : κ} {f : Option α → α} {m : OrderedMap κ α} (h : k ∉ keys m) :
    m.alter k f = m ++ [(k, f none)] := by
  induction m with
  | nil => rfl
  | cons e m ih =>
    rw [keys_cons, List.mem_cons, not_or] at h
    rw [alter, if_neg fun h' => h.1 h'.symm, ih h.2, List.cons_append]

theorem exists_of_mem_alter {k : κ} {f : Option α → α} {m : OrderedMap κ α} {e : κ × α}
    (he : e ∈ m.alter k f) : e ∈ m ∨ ∃ a?, (∀ a ∈ a?, (k, a) ∈ m) ∧ e = (k, f a?) := by
  induction m with
  | nil => exact Or.inr ⟨none, fun _ ha => (nomatch ha), List.mem_singleton.1 he⟩
  | cons d m ih =>
    unfold alter at he
    split at he
    · next hd =>
      rcases List.mem_cons.1 he with rfl | he
      · refine Or.inr ⟨some d.2, fun a ha => ?_, by rw [hd]⟩
        rw [← Option.some.inj ha, ← hd]
        exact List.mem_cons_self
      · exact Or.inl (List.mem_cons_of_mem _ he)
    · rcases List.mem_cons.1 he with rfl | he
      · exact Or.inl List.mem_cons_self
      · rcases ih he with he | ⟨a?, ha, he⟩
        · exact Or.inl (List.mem_cons_of_mem _ he)
        · exact Or.inr ⟨a?, fun a h => List.mem_cons_of_mem _ (ha a h), he⟩

theorem forall_alter {P : α → Prop} {k : κ} {f : Option α → α} {m : OrderedMap κ α}
    (hm : ∀ e ∈ m, P e.2) (hf : ∀ a?, (∀ a ∈ a?, P a) → P (f a?)) : ∀ e ∈ m.alter k f, P e.2 := by
  intro e he
  rcases exists_of_mem_alter he with he | ⟨a?, ha, rfl⟩
  · exact hm e he
  · exact hf a? fun a h => hm _ (ha a h)

theorem nodup_keys_ofList (es : List (κ × α)) : (keys (ofList es)).Nodup :=
  List.foldlRecOn (motive := fun m : OrderedMap κ α => (keys m).Nodup) es _ List.nodup_nil
    fun _ hm _ _ => nodup_keys_alter _ _ hm

theorem forall_ofList {P : α → Prop} {es : List (κ × α)} (h : ∀ e ∈ es, P e.2) :
    ∀ e ∈ ofList es, P e.2 := by
  have hnil : ∀ e ∈ ([] : OrderedMap κ α), P e.2 := fun _ he => nomatch he
  refine List.foldlRecOn (motive := fun m : OrderedMap κ α => ∀ e ∈ m, P e.2) es _ hnil ?_
  intro m hm e he
  exact forall_alter hm fun _ _ => h e he

/-- The value at a key is made by the changes at that key. -/
theorem get?_foldl_alter (k : κ) (cs : List (κ × (Option α → α))) (m : OrderedMap κ α) :
    get? k (cs.foldl (fun m c => m.alter c.1 c.2) m) =
      (cs.filter (·.1 = k)).foldl (fun a? c => some (c.2 a?)) (get? k m) := by
  induction cs generalizing m with
  | nil => rfl
  | cons c cs ih =>
    rw [List.foldl_cons, ih, get?_alter]
    by_cases h : c.1 = k
    · rw [if_pos h, List.filter_cons_of_pos (by simpa using h), List.foldl_cons, h]
    · rw [if_neg h, List.filter_cons_of_neg (by simpa using h)]

/-- `ks` are the keys that were changed so far, with repetitions. -/
theorem keys_alter_eq_eraseDups {ks : List κ} {m : OrderedMap κ α} (h : keys m = ks.eraseDups)
    (k : κ) (f : Option α → α) : keys (m.alter k f) = (ks ++ [k]).eraseDups := by
  rw [keys_alter, h, List.eraseDups_append, List.removeAll]
  by_cases hk : k ∈ ks
  · rw [if_pos (List.mem_eraseDups.2 hk)]
    simp [hk]
  · rw [if_neg (mt List.mem_eraseDups.1 hk)]
    simp [hk, List.eraseDups_cons]

theorem keys_foldl_alter (cs : List (κ × (Option α → α))) {ks : List κ} {m : OrderedMap κ α}
    (h : keys m = ks.eraseDups) :
    keys (cs.foldl (fun m c => m.alter c.1 c.2) m) = (ks ++ cs.map (·.1)).eraseDups := by
  induction cs generalizing ks m with
  | nil => simpa using h
  | cons c cs ih =>
    rw [List.foldl_cons, ih (keys_alter_eq_eraseDups h c.1 c.2), List.map_cons, List.append_assoc,
      List.singleton_append]

theorem nodup_keys_foldl_alter (cs : List (κ × (Option α → α))) {m : OrderedMap κ α}
    (h : (keys m).Nodup) : (keys (cs.foldl (fun m c => m.alter c.1 c.2) m)).Nodup :=
  List.foldlRecOn (motive := fun m : OrderedMap κ α => (keys m).Nodup) cs _ h
    fun _ hm _ _ => nodup_keys_alter _ _ hm

theorem keys_prefix_alter (k : κ) (f : Option α → α) (m : OrderedMap κ α) :
    keys m <+: keys (m.alter k f) := by
  rw [keys_alter]
  split
  · exact List.prefix_rfl
  · exact List.prefix_append _ _

theorem keys_prefix_foldl_alter (cs : List (κ × (Option α → α))) (m : OrderedMap κ α) :
    keys m <+: keys (cs.foldl (fun m c => m.alter c.1 c.2) m) :=
  List.foldlRecOn (motive := fun n : OrderedMap κ α => keys m <+: keys n) cs _ List.prefix_rfl
    fun n hn c _ => hn.trans (keys_prefix_alter c.1 c.2 n)

/-- What setting the entries of a list makes of a map: its own keys, then the new ones in the order in
which they first come, each with the value that was set last. -/
structure Extends (base : OrderedMap κ α) (es : List (κ × α)) (m : OrderedMap κ α) : Prop where
  keys_eq : keys m = keys base ++ (es.map (·.1)).eraseDups.filter (· ∉ keys base)
  get?_eq : ∀ k, get? k m = (get? k es.reverse).or (get? k base)
  nodup : (keys base).Nodup → (keys m).Nodup

theorem Extends.refl (m : OrderedMap κ α) : m.Extends [] m := by
  refine ⟨?_, fun k => rfl, id⟩
  rw [List.map_nil, List.eraseDups_nil, List.filter_nil, List.append_nil]

theorem Extends.insert {base m : OrderedMap κ α} {es : List (κ × α)} (h : base.Extends es m) (k : κ)
    (a : α) : base.Extends (es ++ [(k, a)]) (m.insert k a) := by
  refine ⟨?_, ?_, fun hbase => nodup_keys_alter k _ (h.nodup hbase)⟩
  · have hmem : k ∈ keys m ↔ k ∈ keys base ∨ k ∈ es.map (·.1) := by
      rw [h.keys_eq, List.mem_append, List.mem_filter, List.mem_eraseDups, decide_eq_true_eq]
      tauto
    rw [OrderedMap.insert, keys_alter, List.map_append, List.eraseDups_append, List.filter_append,
      ← List.append_assoc, ← h.keys_eq, List.removeAll]
    -- The key is new exactly if it comes neither from the map nor from an entry that was set before.
    by_cases hbase : k ∈ keys base
    · rw [if_pos (hmem.2 (Or.inl hbase))]
      by_cases hes : k ∈ es.map (·.1) <;> simp [hbase, hes, List.eraseDups_cons]
    · by_cases hes : k ∈ es.map (·.1)
      · rw [if_pos (hmem.2 (Or.inr hes))]
        simp [hes]
      · have hk : k ∉ keys m := fun hk => (hmem.1 hk).elim hbase hes
        rw [if_neg hk]
        simp [hbase, hes, List.eraseDups_cons]
  · intro l
    rw [OrderedMap.insert, get?_alter, h.get?_eq, List.reverse_append]
    by_cases hl : k = l
    · simp [get?, hl]
    · simp [get?, hl]

theorem extends_ofList (es : List (κ × α)) : Extends [] es (ofList es) := by
  induction es using List.reverseRecOn with
  | nil => exact .refl []
  | append_singleton es e ih =>
    rw [ofList, List.foldl_append]
    exact ih.insert e.1 e.2

theorem eq_of_get?_eq {m n : OrderedMap κ α} (hn : (keys n).Nodup) (hkeys : keys m = keys n)
    (h : ∀ k, get? k m = get? k n) : m = n := by
  induction m generalizing n with
  | nil => exact (List.map_eq_nil_iff.1 hkeys.symm).symm
  | cons e m ih =>
    obtain ⟨d, n, rfl, (hkey : d.1 = e.1), hrest⟩ := List.map_eq_cons_iff.1 hkeys.symm
    have hvalue : e.2 = d.2 := by
      have hget := h e.1
      rw [get?, get?, if_pos rfl, if_pos hkey] at hget
      exact Option.some.inj hget
    rw [keys_cons] at hn
    obtain ⟨hd, hn⟩ := List.nodup_cons.1 hn
    have hget : ∀ k, get? k m = get? k n := by
      intro k
      by_cases hk : e.1 = k
      · have hnone : get? k n = none := get?_eq_none_iff.2 (by rwa [← hk, ← hkey])
        rw [hnone, get?_eq_none_iff, ← hk, ← hkey, keys, ← hrest]
        exact hd
      · have hne : d.1 ≠ k := fun h => hk (hkey.symm.trans h)
        have hrest := h k
        rwa [get?, get?, if_neg hk, if_neg hne] at hrest
    rw [ih hn hrest.symm hget, Prod.ext hkey.symm hvalue]

theorem eq_ofList {es : List (κ × α)} {m : OrderedMap κ α} (h : Extends [] es m) : m = ofList es := by
  refine eq_of_get?_eq (nodup_keys_ofList es) ?_ fun k => ?_
  · rw [h.keys_eq, (extends_ofList es).keys_eq]
  · rw [h.get?_eq, (extends_ofList es).get?_eq]

/-! ### Equality -/

section Equality

variable {eq : α → α → Bool} {m n : OrderedMap κ α}

theorem eqv_iff : m.eqv eq n ↔
    m.length = n.length ∧ ∀ e ∈ m, ∃ b, get? e.1 n = some b ∧ eq e.2 b := by
  rw [eqv, Bool.and_eq_true, decide_eq_true_eq, List.all_eq_true]
  refine and_congr_right' (forall₂_congr fun e _ => ?_)
  dsimp only
  cases get? e.1 n <;> simp

/-- The keys of `m` are among those of `n`, and there are as many. -/
theorem perm_keys_of_eqv (hm : (keys m).Nodup) (h : m.eqv eq n) : (keys m).Perm (keys n) := by
  obtain ⟨hlength, hfound⟩ := eqv_iff.1 h
  have hsubset : keys m ⊆ keys n := by
    intro k hk
    obtain ⟨a, ha⟩ := mem_keys.1 hk
    obtain ⟨b, hb, -⟩ := hfound _ ha
    by_contra hnone
    rw [get?_eq_none_iff.2 hnone] at hb
    cases hb
  have hlengths : (keys n).length ≤ (keys m).length := by
    rw [keys, keys, List.length_map, List.length_map]
    exact Nat.le_of_eq hlength.symm
  exact (hm.subperm hsubset).perm_of_length_le hlengths

/-- Equal maps have the same keys, with equal values at each of them. -/
theorem eqv_iff_get? (hm : (keys m).Nodup) : m.eqv eq n ↔
    (keys n).Nodup ∧ ∀ k, Option.Rel (fun a b => eq a b) (get? k m) (get? k n) := by
  constructor
  · intro h
    have hperm : (keys m).Perm (keys n) := perm_keys_of_eqv hm h
    refine ⟨hperm.nodup_iff.1 hm, fun k => ?_⟩
    cases hk : get? k m with
    | none =>
      have hnone : k ∉ keys n := fun hmem => get?_eq_none_iff.1 hk (hperm.mem_iff.2 hmem)
      rw [get?_eq_none_iff.2 hnone]
      exact .none
    | some a =>
      obtain ⟨b, hb, heq⟩ := (eqv_iff.1 h).2 _ ((mem_iff_get? hm).2 hk)
      rw [hb]
      exact .some heq
  · rintro ⟨hn, hrel⟩
    have hmem : ∀ k, k ∈ keys m ↔ k ∈ keys n := by
      intro k
      have hvalues := hrel k
      rw [← not_iff_not, ← get?_eq_none_iff, ← get?_eq_none_iff]
      generalize get? k m = a? at hvalues ⊢
      generalize get? k n = b? at hvalues ⊢
      cases hvalues <;> simp
    have hlength : (keys m).length = (keys n).length :=
      ((List.perm_ext_iff_of_nodup hm hn).2 hmem).length_eq
    rw [keys, keys, List.length_map, List.length_map] at hlength
    refine eqv_iff.2 ⟨hlength, fun e he => ?_⟩
    have hvalues := hrel e.1
    rw [(mem_iff_get? hm).1 he] at hvalues
    cases hb : get? e.1 n with
    | none =>
      rw [hb] at hvalues
      cases hvalues
    | some b =>
      rw [hb] at hvalues
      cases hvalues with
      | some heq => exact ⟨b, rfl, heq⟩

theorem eq_of_eqv_of_mem (hm : (keys m).Nodup) (h : m.eqv eq n) {k : κ} {a b : α} (ha : (k, a) ∈ m)
    (hb : (k, b) ∈ n) : eq a b := by
  obtain ⟨hn, hrel⟩ := (eqv_iff_get? hm).1 h
  have hvalues := hrel k
  rw [(mem_iff_get? hm).1 ha, (mem_iff_get? hn).1 hb] at hvalues
  cases hvalues with
  | some heq => exact heq

/-- Equality read from the other side: the values at each key are the same two. -/
theorem eqv_symm (hm : (keys m).Nodup) (h : m.eqv eq n)
    (hvalues : ∀ k a b, (k, a) ∈ m → (k, b) ∈ n → eq a b → eq b a) : n.eqv eq m := by
  have hperm : (keys m).Perm (keys n) := perm_keys_of_eqv hm h
  refine eqv_iff.2 ⟨(eqv_iff.1 h).1.symm, ?_⟩
  rintro ⟨k, b⟩ hb
  obtain ⟨a, ha⟩ := mem_keys.1 (hperm.mem_iff.2 (mem_keys.2 ⟨b, hb⟩))
  exact ⟨a, (mem_iff_get? hm).1 ha, hvalues k a b ha hb (eq_of_eqv_of_mem hm h ha hb)⟩

theorem eqv_trans {p : OrderedMap κ α} (hn : (keys n).Nodup) (hp : (keys p).Nodup)
    (hmn : m.eqv eq n) (hnp : n.eqv eq p)
    (hvalues : ∀ k a b c, (k, a) ∈ m → (k, b) ∈ n → (k, c) ∈ p → eq a b → eq b c → eq a c) :
    m.eqv eq p := by
  obtain ⟨hlength, hfound⟩ := eqv_iff.1 hmn
  obtain ⟨hlength', hfound'⟩ := eqv_iff.1 hnp
  refine eqv_iff.2 ⟨hlength.trans hlength', ?_⟩
  rintro ⟨k, a⟩ ha
  obtain ⟨b, hb, hab⟩ := hfound _ ha
  have hbn : (k, b) ∈ n := (mem_iff_get? hn).2 hb
  obtain ⟨c, hc, hbc⟩ := hfound' _ hbn
  exact ⟨c, hc, hvalues k a b c ha hbn ((mem_iff_get? hp).2 hc) hab hbc⟩

theorem eqv_self_iff (hm : (keys m).Nodup) : m.eqv eq m ↔ ∀ e ∈ m, eq e.2 e.2 := by
  rw [eqv_iff]
  refine ⟨fun h e he => ?_, fun h => ⟨rfl, fun e he => ⟨e.2, (mem_iff_get? hm).1 he, h e he⟩⟩⟩
  obtain ⟨b, hb, heq⟩ := h.2 e he
  rw [(mem_iff_get? hm).1 he, Option.some.injEq] at hb
  rwa [← hb] at heq

theorem eqv_of_perm {m' : OrderedMap κ α} (h : m.Perm m') : m.eqv eq n = m'.eqv eq n := by
  rw [Bool.eq_iff_iff, eqv_iff, eqv_iff, h.length_eq]
  simp only [h.mem_iff]

/-- A test that is passed alike under one key by equal values is passed alike by all entries of equal
maps. -/
theorem all_eq_of_eqv (hm : (keys m).Nodup) (h : m.eqv eq n) {p : κ × α → Bool}
    (hp : ∀ k a b, (k, a) ∈ m → eq a b → p (k, a) = p (k, b)) : m.all p = n.all p := by
  have hperm : (keys m).Perm (keys n) := perm_keys_of_eqv hm h
  rw [Bool.eq_iff_iff, List.all_eq_true, List.all_eq_true]
  constructor
  · rintro hall ⟨k, b⟩ hb
    obtain ⟨a, ha⟩ := mem_keys.1 (hperm.mem_iff.2 (mem_keys.2 ⟨b, hb⟩))
    rw [← hp k a b ha (eq_of_eqv_of_mem hm h ha hb)]
    exact hall _ ha
  · rintro hall ⟨k, a⟩ ha
    obtain ⟨b, hb⟩ := mem_keys.1 (hperm.mem_iff.1 (mem_keys.2 ⟨a, ha⟩))
    rw [hp k a b ha (eq_of_eqv_of_mem hm h ha hb)]
    exact hall _ hb

/-- What is made of the entries of equal maps in the same order is the same, if it is for every two
entries with one key and equal values. -/
theorem map_eq_of_eqv (hm : (keys m).Nodup) (h : m.eqv eq n) (hkeys : keys m = keys n) {γ : Type}
    {f : κ × α → γ}
    (hf : ∀ k a b, (k, a) ∈ m → (k, b) ∈ n → eq a b → f (k, a) = f (k, b)) : m.map f = n.map f := by
  refine List.ext_getElem ?_ fun i hi hi' => ?_
  · simpa [keys] using congrArg List.length hkeys
  · rw [List.length_map] at hi hi'
    have hkey : m[i].1 = n[i].1 := by
      simpa [keys] using List.getElem_of_eq hkeys (by rwa [keys, List.length_map])
    have ha : (m[i].1, m[i].2) ∈ m := List.getElem_mem hi
    have hb : (m[i].1, n[i].2) ∈ n := hkey ▸ List.getElem_mem hi'
    rw [List.getElem_map, List.getElem_map]
    calc f m[i] = f (m[i].1, n[i].2) := hf _ _ _ ha hb (eq_of_eqv_of_mem hm h ha hb)
      _ = f n[i] := by rw [hkey]

section Parts

variable {β : Type} {f : α → β}
  (h : m.map (fun e => (e.1, f e.2)) = n.map fun e => (e.1, f e.2))
include h

omit [DecidableEq κ] in
theorem keys_eq_of_map_eq : keys m = keys n := by
  have hfirst := congrArg (List.map Prod.fst) h
  rw [List.map_map, List.map_map] at hfirst
  exact hfirst

theorem value_eq_of_map_eq (hm : (keys m).Nodup) {k : κ} {a b : α} (ha : (k, a) ∈ m)
    (hb : (k, b) ∈ n) : f a = f b := by
  have hparts : (keys (m.map fun e => (e.1, f e.2))).Nodup := by
    rw [keys, List.map_map]
    exact hm
  have hpart : (k, f a) ∈ m.map fun e => (e.1, f e.2) := List.mem_map_of_mem ha
  have hpart' : (k, f b) ∈ m.map fun e => (e.1, f e.2) := h ▸ List.mem_map_of_mem hb
  rw [mem_iff_get? hparts] at hpart hpart'
  exact Option.some.inj (hpart.symm.trans hpart')

end Parts

/-- Equal maps in the same order are the same if equal values of one key are. -/
theorem eq_of_eqv (hm : (keys m).Nodup) (h : m.eqv eq n) (hkeys : keys m = keys n)
    (hvalues : ∀ k a b, (k, a) ∈ m → (k, b) ∈ n → eq a b → a = b) : m = n := by
  have hid : m.map id = n.map id := by
    refine map_eq_of_eqv hm h hkeys fun k a b ha hb hab => ?_
    rw [hvalues k a b ha hb hab]
  rwa [List.map_id, List.map_id] at hid

end Equality

end OrderedMap

end TargetSelector
