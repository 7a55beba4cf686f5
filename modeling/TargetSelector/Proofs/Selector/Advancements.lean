import Mathlib.Data.List.Induction
import TargetSelector.Proofs.Selector.Edits

/-!
Advancements by their history: the edits on an advancement count since the last one that asks for it as
a whole.
-/
namespace TargetSelector

/-- What one edit asks of an advancement. -/
inductive Requirement where
  | whole (done : Bool)
  | criterion (name : String) (met : Bool)

namespace Requirement

/-- The entry of the advancement, from the entry that was there. -/
def change : Requirement → Option Advancement → Advancement
  | .whole done => fun _ => .done done
  | .criterion name met => Change.criterion name met

/-- The entry that a history on one advancement amounts to: all or nothing if the last requirement is
on the whole, and otherwise the criteria that were asked for since the last one on the whole, in the
order in which they were first asked for, each with the answer asked for last. -/
inductive Settles : List Requirement → Advancement → Prop
  | whole (before : List Requirement) (done : Bool) :
      Settles (before ++ [.whole done]) (.done done)
  | criteria {before : List Requirement} {calls : List (String × Bool)}
      {entries : OrderedMap String Bool}
      (hbefore : before = [] ∨ ∃ earlier done, before = earlier ++ [.whole done])
      (hcalls : calls ≠ [])
      (hkeys : OrderedMap.keys entries = (calls.map (·.1)).eraseDups)
      (hvalues : ∀ c, OrderedMap.get? c entries = OrderedMap.get? c calls.reverse) :
      Settles (before ++ calls.map fun c => .criterion c.1 c.2) (.criteria entries)

theorem Settles.first {before : List Requirement}
    (hbefore : before = [] ∨ ∃ earlier done, before = earlier ++ [.whole done])
    (name : String) (met : Bool) :
    Settles (before ++ [.criterion name met]) (.criteria [(name, met)]) := by
  have hcalls : [(name, met)] ≠ [] := List.cons_ne_nil _ _
  have hkeys : OrderedMap.keys [(name, met)] = ([(name, met)].map (·.1)).eraseDups := by
    simp [List.eraseDups_cons]
  exact Settles.criteria hbefore hcalls hkeys fun _ => rfl

private theorem Settles.append_criterion {rs : List Requirement} {a : Advancement} (h : Settles rs a)
    (name : String) (met : Bool) :
    Settles (rs ++ [.criterion name met]) (Change.criterion name met (some a)) := by
  cases h with
  | whole before done => exact Settles.first (Or.inr ⟨before, done, rfl⟩) name met
  | @criteria before calls entries hbefore hcalls hkeys hvalues =>
    have hcalls' : calls ++ [(name, met)] ≠ [] := List.append_ne_nil_of_left_ne_nil hcalls _
    have hkeys' : OrderedMap.keys (entries.insert name met) =
        ((calls ++ [(name, met)]).map (·.1)).eraseDups := by
      rw [List.map_append]
      exact OrderedMap.keys_alter_eq_eraseDups hkeys name _
    have hvalues' : ∀ c, OrderedMap.get? c (entries.insert name met) =
        OrderedMap.get? c (calls ++ [(name, met)]).reverse := by
      intro c
      rw [List.reverse_append, OrderedMap.insert, OrderedMap.get?_alter, hvalues]
      rfl
    have := Settles.criteria hbefore hcalls' hkeys' hvalues'
    rwa [List.map_append, ← List.append_assoc] at this

/-- Requirements on one advancement, one after the other from no entry, leave the entry that their
history amounts to. The last requirement decides whether the entry starts anew. -/
theorem exists_settles {rs : List Requirement} (h : rs ≠ []) :
    ∃ a, rs.foldl (fun a? r => some (r.change a?)) none = some a ∧ Settles rs a := by
  induction rs using List.reverseRecOn with
  | nil => exact absurd rfl h
  | append_singleton rs r ih =>
    rw [List.foldl_append]
    cases r with
    | whole done => exact ⟨.done done, rfl, .whole rs done⟩
    | criterion name met =>
      -- A criterion starts the entry if it comes first, and else goes to the entry that is there.
      by_cases hrs : rs = []
      · subst hrs
        exact ⟨.criteria [(name, met)], rfl, .first (Or.inl rfl) name met⟩
      · obtain ⟨a, ha, hsettles⟩ := ih hrs
        rw [ha]
        exact ⟨_, rfl, hsettles.append_criterion name met⟩

/-- The map that requirements on several advancements leave, from the empty map. -/
def table (rs : List (String × Requirement)) : OrderedMap String Advancement :=
  (rs.map fun r => (r.1, r.2.change)).foldl (fun m c => m.alter c.1 c.2) []

theorem keys_table (rs : List (String × Requirement)) :
    OrderedMap.keys (table rs) = (rs.map (·.1)).eraseDups := by
  have hempty : OrderedMap.keys ([] : OrderedMap String Advancement) = [].eraseDups := rfl
  rw [table, OrderedMap.keys_foldl_alter _ hempty, List.nil_append, List.map_map]
  rfl

theorem nodup_keys_table (rs : List (String × Requirement)) : (OrderedMap.keys (table rs)).Nodup :=
  OrderedMap.nodup_keys_foldl_alter _ List.nodup_nil

private theorem get?_table (rs : List (String × Requirement)) (name : String) :
    OrderedMap.get? name (table rs) =
      ((rs.filter (·.1 = name)).map (·.2)).foldl (fun a? r => some (r.change a?)) none := by
  rw [table, OrderedMap.get?_foldl_alter, List.filter_map, List.foldl_map, List.foldl_map]
  rfl

theorem keys_table_prefix (rs more : List (String × Requirement)) :
    OrderedMap.keys (table rs) <+: OrderedMap.keys (table (rs ++ more)) := by
  rw [keys_table, keys_table, List.map_append, List.eraseDups_append]
  exact List.prefix_append _ _

/-- Each advancement that is asked for has the entry that its own requirements amount to. -/
theorem exists_settles_of_mem_table {rs : List (String × Requirement)} {name : String}
    (h : name ∈ OrderedMap.keys (table rs)) :
    ∃ a, OrderedMap.get? name (table rs) = some a ∧
      Settles ((rs.filter (·.1 = name)).map (·.2)) a := by
  rw [keys_table, List.mem_eraseDups, List.mem_map] at h
  obtain ⟨r, hr, hname⟩ := h
  have hmem : r ∈ rs.filter (·.1 = name) := List.mem_filter.2 ⟨hr, decide_eq_true hname⟩
  rw [get?_table]
  exact exists_settles (List.ne_nil_of_mem (List.mem_map_of_mem hmem))

end Requirement

namespace Edit

/-- The advancement that an edit is about, and what it asks of it. -/
def requirement? : Edit → Option (String × Requirement)
  | .advancement n done => some (n, .whole done)
  | .criterion n c met => some (n, .criterion c met)
  | _ => none

def requirements (es : List Edit) : List (String × Requirement) := es.filterMap requirement?

/-- The requirements on one advancement, in order. -/
def requirementsOn (name : String) (es : List Edit) : List Requirement :=
  ((requirements es).filter (·.1 = name)).map (·.2)

theorem requirements_append (es fs : List Edit) :
    requirements (es ++ fs) = requirements es ++ requirements fs := List.filterMap_append

private theorem changesAt_of_requirement? {e : Edit} {r : String × Requirement}
    (h : e.requirement? = some r) :
    changesAt (.known .advancements) [e] = [.advancement r.1 r.2.change] := by
  cases e <;> cases h <;> rfl

private theorem changesAt_advancements {es : List Edit}
    (h : ∀ e ∈ es, e.requirement? = none → ¬ e.touches (.known .advancements)) :
    changesAt (.known .advancements) es =
      (requirements es).map fun r => Change.advancement r.1 r.2.change := by
  induction es with
  | nil => rfl
  | cons e es ih =>
    obtain ⟨he, hes⟩ := List.forall_mem_cons.1 h
    rw [← List.singleton_append (l := es), changesAt_append, ih hes, requirements_append, List.map_append]
    congr 1
    cases hr : e.requirement? with
    | none =>
      rw [changesAt_eq_nil_iff.2 (he hr), requirements, List.filterMap_cons_none hr]
      rfl
    | some r =>
      rw [changesAt_of_requirement? hr, requirements, List.filterMap_cons_some hr]
      rfl

end Edit

namespace Selector

open Requirement Edit

/-- Changes of advancements act on the map that is there. -/
theorem foldl_advancement (rs : List (String × Requirement)) (m : OrderedMap String Advancement) :
    (rs.map fun r => Change.advancement r.1 r.2.change).foldl (fun a? c => some (c.2 a?))
        (some (.advancements m)) =
      some (.advancements
        ((rs.map fun r => (r.1, r.2.change)).foldl (fun m c => m.alter c.1 c.2) m)) := by
  induction rs generalizing m with
  | nil => rfl
  | cons r rs ih => exact ih (m.alter r.1 r.2.change)

theorem advancement_of_no_map {a? : Option ArgumentValue} (h : ∀ m, a? ≠ some (.advancements m))
    (name : String) (f : Option Advancement → Advancement) :
    (Change.advancement name f).2 a? = .advancements (OrderedMap.alter name f []) := by
  -- The second case of the match stands for all that the first is not, and `h` says that it applies.
  simp only [Change.advancement]
  rfl

theorem get?_run_advancements {s : Selector} {es : List Edit}
    (hs : ∀ m, OrderedMap.get? (.known .advancements) s.arguments ≠ some (.advancements m))
    (hes : ∀ e ∈ es, e.requirement? = none → ¬ e.touches (.known .advancements))
    (hne : requirements es ≠ []) :
    OrderedMap.get? (.known .advancements) (s.run es).arguments =
      some (.advancements (table (requirements es))) := by
  rw [get?_run, changesAt_advancements hes]
  cases hrs : requirements es with
  | nil => exact absurd hrs hne
  | cons r rs =>
    rw [List.map_cons, List.foldl_cons, advancement_of_no_map hs, foldl_advancement]
    rfl

/-- Edits that ask for advancements, among others that do not touch them, leave a map of the
advancements that were asked for, in the order in which they were first asked for, each with the entry
that its own requirements amount to. What was there before is no map of advancements. More such edits
put more advancements after these, and no edit moves a key of the selector. -/
theorem advancements_run (s : Selector) (es : List Edit)
    (hs : ∀ m, OrderedMap.get? (.known .advancements) s.arguments ≠ some (.advancements m))
    (hes : ∀ e ∈ es, e.requirement? = none → ¬ e.touches (.known .advancements))
    (hne : requirements es ≠ []) :
    ∃ m, OrderedMap.get? (.known .advancements) (s.run es).arguments = some (.advancements m) ∧
      OrderedMap.keys m = ((requirements es).map (·.1)).eraseDups ∧
      (OrderedMap.keys m).Nodup ∧
      (∀ name ∈ OrderedMap.keys m, ∃ a, OrderedMap.get? name m = some a ∧
        Settles (requirementsOn name es) a) ∧
      OrderedMap.keys s.arguments <+: OrderedMap.keys (s.run es).arguments ∧
      ∀ more, OrderedMap.keys (s.run es).arguments <+: OrderedMap.keys (s.run (es ++ more)).arguments ∧
        ((∀ e ∈ more, e.requirement? = none → ¬ e.touches (.known .advancements)) →
          ∃ m', OrderedMap.get? (.known .advancements) (s.run (es ++ more)).arguments =
              some (.advancements m') ∧
            OrderedMap.keys m <+: OrderedMap.keys m') := by
  refine ⟨table (requirements es), get?_run_advancements hs hes hne, keys_table _, nodup_keys_table _,
    fun name hname => exists_settles_of_mem_table hname, keys_prefix_run s es, fun more => ⟨?_, ?_⟩⟩
  · rw [run_append]
    exact keys_prefix_run (s.run es) more
  · intro hmore
    have hall : ∀ e ∈ es ++ more, e.requirement? = none → ¬ e.touches (.known .advancements) := by
      intro e he
      exact (List.mem_append.1 he).elim (hes e) (hmore e)
    have hne' : requirements (es ++ more) ≠ [] := by
      rw [requirements_append]
      exact List.append_ne_nil_of_left_ne_nil hne _
    refine ⟨table (requirements (es ++ more)), get?_run_advancements hs hall hne', ?_⟩
    rw [requirements_append]
    exact keys_table_prefix _ _

/-- From a text in the place of the map: one advancement is asked for as a whole between its criteria,
and an edit of another key comes in between. -/
theorem advancements_run_switch :
    let s : Selector := ⟨.allPlayers, [(.known .advancements, .text "none"), (.known .limit, .int 1)]⟩
    let es : List Edit := [.criterion "root" "old" true, .limit 3, .advancement "root" true,
      .advancement "nether" false, .criterion "root" "a" true, .criterion "root" "b" true,
      .criterion "root" "a" false]
    ∃ m, OrderedMap.get? (.known .advancements) (s.run es).arguments = some (.advancements m) ∧
      OrderedMap.keys m = ["root", "nether"] ∧
      ∃ a, OrderedMap.get? "root" m = some a ∧
        Settles [.criterion "old" true, .whole true, .criterion "a" true, .criterion "b" true,
          .criterion "a" false] a := by
  intro s es
  have hs : ∀ m, OrderedMap.get? (.known .advancements) s.arguments ≠ some (.advancements m) := by
    intro m h
    cases h
  have hes : ∀ e ∈ es, e.requirement? = none → ¬ e.touches (.known .advancements) := by
    simp [es, requirement?, touches, names, ArgumentKey.name, KnownKey.text]
  have hne : requirements es ≠ [] := List.cons_ne_nil _ _
  obtain ⟨m, hm, hkeys, -, hsettles, -⟩ := advancements_run s es hs hes hne
  have hnames : OrderedMap.keys m = ["root", "nether"] := hkeys.trans (by decide)
  exact ⟨m, hm, hnames, hsettles "root" (by simp [hnames])⟩

end Selector

end TargetSelector
