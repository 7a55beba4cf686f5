import Mathlib.Data.List.Induction
import TargetSelector.Proofs.Argument.Table
import TargetSelector.Proofs.Selector.Edits

/-!
Flags and scores by their history: the value that was last assigned to the key as a whole, and the
entries that were put into it since.
-/
namespace TargetSelector

/-- What entries that are put into a map one after the other make of the value that is there: nothing
changes without entries, and otherwise they extend the map that is there or else the empty map. -/
inductive Merged {α : Type} (wrap : OrderedMap String α → ArgumentValue) (v? : Option ArgumentValue) :
    List (String × α) → Option ArgumentValue → Prop
  | unchanged : Merged wrap v? [] v?
  | extended {entries : List (String × α)} {base m : OrderedMap String α} (hentries : entries ≠ [])
      (hbase : v? = some (wrap base) ∨ base = [] ∧ ∀ n, v? ≠ some (wrap n))
      (hm : base.Extends entries m) : Merged wrap v? entries (some (wrap m))

namespace Change

variable {α : Type}

/-- Puts an entry into a map of a kind, and replaces any other value by a map of that entry. -/
structure Merges (wrap : OrderedMap String α → ArgumentValue) (name : String) (a : α) (c : Change) :
    Prop where
  map : ∀ m, c.2 (some (wrap m)) = wrap (m.insert name a)
  other : ∀ v?, (∀ m, v? ≠ some (wrap m)) → c.2 v? = wrap [(name, a)]

private theorem merges_flag (k : KnownKey) (name : String) (on : Bool) :
    (flag k name on).Merges .flags name on := by
  refine ⟨fun m => rfl, fun v? h => ?_⟩
  -- The second case of the match stands for all that the first is not, and `h` says that it applies.
  simp only [flag]

private theorem merges_score (objective : String) (range : Range) :
    (score objective range).Merges .scores objective range := by
  refine ⟨fun m => rfl, fun v? h => ?_⟩
  simp only [score]

private theorem Merges.merged_append {wrap : OrderedMap String α → ArgumentValue} {name : String}
    {a : α}
    {c : Change} (hc : c.Merges wrap name a) {v? w? : Option ArgumentValue}
    {entries : List (String × α)} (h : Merged wrap v? entries w?) :
    Merged wrap v? (entries ++ [(name, a)]) (some (c.2 w?)) := by
  have hne : entries ++ [(name, a)] ≠ [] := List.append_ne_nil_of_right_ne_nil _ (List.cons_ne_nil _ _)
  cases h with
  | unchanged =>
    by_cases hmap : ∃ m, v? = some (wrap m)
    · obtain ⟨m, rfl⟩ := hmap
      rw [hc.map]
      exact .extended hne (Or.inl rfl) ((OrderedMap.Extends.refl m).insert name a)
    · have hother : ∀ m, v? ≠ some (wrap m) := fun m hm => hmap ⟨m, hm⟩
      rw [hc.other v? hother]
      exact .extended hne (Or.inr ⟨rfl, hother⟩) ((OrderedMap.Extends.refl []).insert name a)
  | extended hentries hbase hm =>
    rw [hc.map]
    exact .extended hne hbase (hm.insert name a)

end Change

namespace Edit

/-- The value that an edit assigns to a key as a whole. -/
def assigned? (key : ArgumentKey) : Edit → Option ArgumentValue
  | .argument k v => if k = key then some v else none
  | _ => none

/-- The value that was last assigned to a key. -/
def lastAssigned? (key : ArgumentKey) (es : List Edit) : Option ArgumentValue :=
  es.reverse.findSome? (assigned? key)

def sinceAssigned (key : ArgumentKey) (es : List Edit) : List Edit :=
  (es.reverse.takeWhile fun e => (e.assigned? key).isNone).reverse

/-- The flag that an edit sets, under the key that it belongs to. -/
def flag? : Edit → Option (KnownKey × String × Bool)
  | .team n on => some (.team, n, on)
  | .gamemode g on => some (.gamemode, g.name, on)
  | .name n on => some (.name, n, on)
  | .entityType e on => some (.type, e.text, on)
  | .tag n on => some (.tag, n, on)
  | .predicate n on => some (.predicate, n, on)
  | _ => none

def flagAt? (k : KnownKey) (e : Edit) : Option (String × Bool) :=
  e.flag?.bind fun f => if f.1 = k then some f.2 else none

def score? : Edit → Option (String × Range)
  | .score o r => some (o, r)
  | _ => none

section Append

variable {key : ArgumentKey} {es : List Edit} {e : Edit}

private theorem lastAssigned?_append_of_some {v : ArgumentValue} (h : e.assigned? key = some v) :
    lastAssigned? key (es ++ [e]) = some v := by
  simp [lastAssigned?, h]

theorem lastAssigned?_append_of_none (h : e.assigned? key = none) :
    lastAssigned? key (es ++ [e]) = lastAssigned? key es := by
  simp [lastAssigned?, h]

private theorem sinceAssigned_append_of_some {v : ArgumentValue} (h : e.assigned? key = some v) :
    sinceAssigned key (es ++ [e]) = [] := by
  simp [sinceAssigned, h]

theorem sinceAssigned_append_of_none (h : e.assigned? key = none) :
    sinceAssigned key (es ++ [e]) = sinceAssigned key es ++ [e] := by
  simp [sinceAssigned, h]

end Append

/-- The changes of one edit at a key: it assigns a value, puts an entry into a map, or does nothing. -/
inductive Acts {α : Type} (key : ArgumentKey) (wrap : OrderedMap String α → ArgumentValue) :
    Option ArgumentValue → Option (String × α) → List Change → Prop
  | assigns (v : ArgumentValue) (put? : Option (String × α)) :
    Acts key wrap (some v) put? [(key, fun _ => v)]
  | merges {name : String} {a : α} {c : Change} (hc : c.Merges wrap name a) :
    Acts key wrap none (some (name, a)) [c]
  | nothing : Acts key wrap none none []

theorem changesAt_of_assigned? {key : ArgumentKey} {e : Edit} {v : ArgumentValue}
    (h : e.assigned? key = some v) : changesAt key [e] = [(key, fun _ => v)] := by
  cases e with
  | argument k w =>
    by_cases hk : k = key
    · subst hk
      rw [assigned?, if_pos rfl] at h
      simp [changesAt, changes, Option.some.inj h]
    · rw [assigned?, if_neg hk] at h
      cases h
  | _ => cases h

theorem not_touches_of_assigned? {key l : ArgumentKey} {v : ArgumentValue}
    (h : (Edit.argument l v).assigned? key = none) : ¬ (Edit.argument l v).touches key := by
  intro htouches
  have hl : key = l := by simpa [touched, changes] using touches_iff.1 htouches
  rw [assigned?, if_pos hl.symm] at h
  cases h

theorem changes_of_flag? {e : Edit} {k : KnownKey} {name : String} {on : Bool}
    (h : e.flag? = some (k, name, on)) : e.changes = [.flag k name on] := by
  cases e <;> cases h <;> rfl

/-- Only edits that set a flag or assign a value touch a key of flags. -/
theorem not_touches_flags {k : KnownKey} (hk : k.shape = .flags) {e : Edit}
    (hassigned : e.assigned? (.known k) = none) (hflag : e.flag? = none) : ¬ e.touches (.known k) := by
  rw [touches_iff]
  intro hmem
  cases e with
  | argument l v => exact not_touches_of_assigned? hassigned (touches_iff.2 hmem)
  | team n on | gamemode g on | name n on | entityType t on | tag n on | predicate n on => cases hflag
  | volume dx dy dz =>
    have hextent : k = .dx ∨ k = .dy ∨ k = .dz := by simpa [touched, changes, Change.set] using hmem
    rcases hextent with rfl | rfl | rfl <;> cases hk
  | _ =>
    simp only [touched, changes, Change.set, Change.score, Change.advancement, List.map_cons,
      List.map_nil, List.mem_singleton, ArgumentKey.known.injEq] at hmem
    subst hmem
    cases hk

private theorem acts_flags {k : KnownKey} (hk : k.shape = .flags) (e : Edit) :
    Acts (.known k) .flags (e.assigned? (.known k)) (e.flagAt? k) (changesAt (.known k) [e]) := by
  cases hassigned : e.assigned? (.known k) with
  | some v =>
    rw [changesAt_of_assigned? hassigned]
    exact .assigns v _
  | none =>
    cases hflag : e.flag? with
    | none =>
      have hentry : e.flagAt? k = none := by rw [flagAt?, hflag, Option.bind_none]
      rw [hentry, changesAt_eq_nil_iff.2 (not_touches_flags hk hassigned hflag)]
      exact .nothing
    | some f =>
      obtain ⟨l, name, on⟩ := f
      by_cases hl : l = k
      · have hentry : e.flagAt? k = some (name, on) := by simp [flagAt?, hflag, hl]
        have hchanges : changesAt (.known k) [e] = [.flag k name on] := by
          simp [changesAt, changes_of_flag? hflag, Change.flag, hl]
        rw [hentry, hchanges]
        exact .merges (Change.merges_flag k name on)
      · have hentry : e.flagAt? k = none := by simp [flagAt?, hflag, hl]
        have hchanges : changesAt (.known k) [e] = [] := by
          simp [changesAt, changes_of_flag? hflag, Change.flag, hl]
        rw [hentry, hchanges]
        exact .nothing

/-- Only edits that set a score or assign a value touch the scores. -/
theorem acts_scores (e : Edit) :
    Acts (.known .scores) .scores (e.assigned? (.known .scores)) e.score?
      (changesAt (.known .scores) [e]) := by
  cases hassigned : e.assigned? (.known .scores) with
  | some v =>
    rw [changesAt_of_assigned? hassigned]
    exact .assigns v _
  | none =>
    cases e with
    | score o r => exact .merges (Change.merges_score o r)
    | argument l v =>
      rw [changesAt_eq_nil_iff.2 (not_touches_of_assigned? hassigned)]
      exact .nothing
    | _ => exact .nothing

end Edit

namespace Selector

open Edit

/-- The induction adds one edit at the end. An assignment starts a new history, and any other edit goes
on with the one that there is. -/
theorem merged_of_acts {α : Type} {key : ArgumentKey} {wrap : OrderedMap String α → ArgumentValue}
    {put? : Edit → Option (String × α)}
    (hacts : ∀ e, Acts key wrap (e.assigned? key) (put? e) (changesAt key [e])) (s : Selector)
    (es : List Edit) :
    Merged wrap ((lastAssigned? key es).or (OrderedMap.get? key s.arguments))
      ((sinceAssigned key es).filterMap put?) (OrderedMap.get? key (s.run es).arguments) := by
  induction es using List.reverseRecOn with
  | nil => exact .unchanged
  | append_singleton es e ih =>
    have h := hacts e
    rw [run_append, get?_run]
    generalize hassigned : e.assigned? key = v?, hentry : put? e = a?, changesAt key [e] = cs at h ⊢
    cases h with
    | assigns v a? =>
      rw [lastAssigned?_append_of_some hassigned, sinceAssigned_append_of_some hassigned]
      exact .unchanged
    | @merges name a c hc =>
      have hlast : [e].filterMap put? = [(name, a)] := List.filterMap_cons_some hentry
      rw [lastAssigned?_append_of_none hassigned, sinceAssigned_append_of_none hassigned,
        List.filterMap_append, hlast]
      exact hc.merged_append ih
    | nothing =>
      have hlast : [e].filterMap put? = [] := List.filterMap_cons_none hentry
      rw [lastAssigned?_append_of_none hassigned, sinceAssigned_append_of_none hassigned,
        List.filterMap_append, hlast, List.append_nil]
      exact ih

/-- After a run of edits, the value under a key of flags is the one that was last assigned to it, if
there is no flag since. Otherwise it is a map: the flags that were assigned or else no flags, and after
them the others in the order in which they were first set, each with the value that was set last. The
scores are merged in the same way. -/
theorem merged_run (s : Selector) (es : List Edit) :
    (∀ k ∈ Shape.flags.keys,
      Merged .flags ((lastAssigned? (.known k) es).or (OrderedMap.get? (.known k) s.arguments))
        ((sinceAssigned (.known k) es).filterMap (flagAt? k))
        (OrderedMap.get? (.known k) (s.run es).arguments)) ∧
    Merged .scores ((lastAssigned? (.known .scores) es).or (OrderedMap.get? (.known .scores) s.arguments))
      ((sinceAssigned (.known .scores) es).filterMap score?)
      (OrderedMap.get? (.known .scores) (s.run es).arguments) := by
  constructor
  · intro k hk
    have hshape : k.shape = .flags := Shape.mem_keys_iff.1 hk
    exact merged_of_acts (acts_flags hshape) s es
  · exact merged_of_acts acts_scores s es

/-- Flags that are assigned between flags that are set one by one: what was set before is gone, and what
is set afterwards changes a flag in place or goes to the end. -/
theorem merged_run_tag :
    let es : List Edit := [.tag "old" true, .argument (.ofName "tag") (.flags [("b", true), ("a", true)]),
      .limit 1, .tag "c" true, .tag "a" false, .score "a" (.atLeast (.ofNat 1)), .tag "c" false]
    .tag ∈ Shape.flags.keys ∧
      ∃ m, OrderedMap.get? (.known .tag) ((new .entities).run es).arguments = some (.flags m) ∧
        OrderedMap.keys m = ["b", "a", "c"] ∧ OrderedMap.get? "b" m = some true ∧
        OrderedMap.get? "a" m = some false ∧ OrderedMap.get? "c" m = some false := by
  intro es
  have htag : .tag ∈ Shape.flags.keys := by decide
  obtain ⟨hflags, -⟩ := merged_run (new .entities) es
  have h : Merged .flags (some (.flags [("b", true), ("a", true)]))
      [("c", true), ("a", false), ("c", false)] _ := hflags .tag htag
  refine ⟨htag, ?_⟩
  generalize OrderedMap.get? (.known .tag) ((new .entities).run es).arguments = w? at h
  cases h with
  | @extended _ base m hentries hbase hm =>
    have hbase : base = [("b", true), ("a", true)] := by
      rcases hbase with hbase | ⟨-, hother⟩
      · cases hbase
        rfl
      · exact absurd rfl (hother _)
    subst hbase
    exact ⟨m, rfl, hm.keys_eq.trans (by decide), hm.get?_eq "b", hm.get?_eq "a", hm.get?_eq "c"⟩

end Selector

end TargetSelector
