import TargetSelector.Proofs.Selector.Modes

/-!
Streams over one selector do not disturb each other: every stream of an interleaving gives what a stream
that is pulled alone gives.
-/
namespace TargetSelector

/-- A pull gives the item that the stream has at its place. -/
theorem FragmentStream.remaining_of_pulls {f : FragmentStream} {n j : Nat} {item : Option Fragment}
    (h : (f.pulls n)[j]? = some item) : f.remaining[j]? = item := by
  rw [pulls_eq, List.getElem?_map, Option.map_eq_some_iff] at h
  obtain ⟨i, hi, h⟩ := h
  obtain ⟨hj, rfl⟩ := List.getElem?_eq_some_iff.1 hi
  rwa [List.getElem_range] at h

namespace Selector

variable (s : Selector)

theorem length_fragmentList_of_error {k : Nat} {e : MalformedArgument}
    (h : s.fragmentList[k]? = some (.error e)) : s.fragmentList.length = k + 1 := by
  have hlist : s.fragmentList = _ := (s.fragments.toList_eq).symm.trans s.toList_fragments
  rw [hlist] at h ⊢
  rcases Nat.lt_or_ge k (s.okTexts.map (Except.ok (ε := MalformedArgument))).length with hk | hk
  · rw [List.getElem?_append_left hk, List.getElem?_map] at h
    cases ht : s.okTexts[k]? with
    | none => simp [ht] at h
    | some t => simp [ht] at h
  · rw [List.getElem?_append_right hk] at h
    cases hfirst : s.arguments.firstError? with
    | none => simp [hfirst] at h
    | some e' =>
      rw [hfirst, Option.map_some, Option.toList_some, List.getElem?_singleton] at h
      split at h
      · next hend =>
        rw [List.length_append, Option.map_some, Option.toList_some, List.length_singleton]
        omega
      · cases h

private theorem eq_none_of_pulls_error {n k : Nat} {e : MalformedArgument} {item : Option Fragment}
    (he : (s.fragments.pulls n)[k]? = some (some (.error e)))
    (hitem : item ∈ (s.fragments.pulls n).drop (k + 1)) : item = none := by
  have hget : ∀ {j : Nat} {x : Option Fragment}, (s.fragments.pulls n)[j]? = some x →
      s.fragmentList[j]? = x := FragmentStream.remaining_of_pulls
  have hlength : s.fragmentList.length = k + 1 := s.length_fragmentList_of_error (hget he)
  obtain ⟨j, hj⟩ := List.mem_iff_getElem?.1 hitem
  rw [List.getElem?_drop] at hj
  rw [← hget hj, List.getElem?_eq_none_iff, hlength]
  exact Nat.le_add_right _ _

section Interleaving

variable {ι : Type} [DecidableEq ι] (streams : OrderedMap ι FragmentStream)

/-- Where the stream of a label stands. One that was not pulled yet stands at the start. -/
def streamAt (i : ι) : FragmentStream := (OrderedMap.get? i streams).getD s.fragments

theorem streamAt_insert (i j : ι) (f : FragmentStream) :
    s.streamAt (streams.insert i f) j = if i = j then f else s.streamAt streams j := by
  rw [streamAt, OrderedMap.insert, OrderedMap.get?_alter]
  split
  · rfl
  · rfl

theorem interleaved_cons (i : ι) (ids : List ι) :
    s.interleaved streams (i :: ids) = (s.streamAt streams i).next.1 ::
      s.interleaved (streams.insert i (s.streamAt streams i).next.2) ids := rfl

/-- A pull is answered by that item of its stream whose number is the number of pulls of this stream
before it. -/
theorem getElem?_interleaved (ids : List ι) (n : Nat) :
    (s.interleaved streams ids)[n]? =
      ids[n]?.map fun i => (s.streamAt streams i).remaining[(ids.take n).count i]? := by
  induction ids generalizing streams n with
  | nil => rfl
  | cons i ids ih =>
    obtain ⟨hitem, hrest⟩ := (s.streamAt streams i).takes_next
    rw [interleaved_cons]
    cases n with
    | zero => simp [hitem, List.head?_eq_getElem?]
    | succ n =>
      rw [List.getElem?_cons_succ, List.getElem?_cons_succ, ih]
      refine congrArg (ids[n]?.map ·) (funext fun j => ?_)
      rw [List.take_succ_cons, streamAt_insert]
      -- The first pull takes an item from its own stream, and counts for that stream only.
      by_cases h : i = j
      · subst h
        rw [if_pos rfl, List.count_cons_self, hrest, List.getElem?_tail]
      · rw [if_neg h, List.count_cons_of_ne h]

/-- The items that the pulls of one stream give, in order. -/
def itemsOf (i : ι) (ids : List ι) (items : List (Option Fragment)) : List (Option Fragment) :=
  ((ids.zip items).filter (·.1 = i)).map (·.2)

private theorem itemsOf_interleaved (i : ι) (ids : List ι) :
    itemsOf i ids (s.interleaved streams ids) = (s.streamAt streams i).pulls (ids.count i) := by
  induction ids generalizing streams with
  | nil => rfl
  | cons j ids ih =>
    have ih := ih (streams.insert j (s.streamAt streams j).next.2)
    rw [streamAt_insert] at ih
    rw [interleaved_cons, itemsOf, List.zip_cons_cons]
    by_cases h : j = i
    · subst h
      rw [if_pos rfl] at ih
      rw [List.filter_cons_of_pos (by simp), List.map_cons, List.count_cons_self,
        FragmentStream.pulls, ← ih, itemsOf]
    · rw [if_neg h] at ih
      rw [List.filter_cons_of_neg (by simpa using h), List.count_cons_of_ne h, ← ih, itemsOf]

/-- Whatever is pulled from other streams before it, between or after, the pulls of a stream give what
as many pulls of a stream alone give: the fragments of the selector in order, and nothing after the
last one or after an error. -/
theorem interleaved_independent (ids : List ι) :
    (∀ n, (s.interleaved [] ids)[n]? =
      ids[n]?.map fun i => s.fragmentList[(ids.take n).count i]?) ∧
    ∀ i, itemsOf i ids (s.interleaved [] ids) = s.fragments.pulls (ids.count i) ∧
      ∀ (k : Nat) (e : MalformedArgument),
        (itemsOf i ids (s.interleaved [] ids))[k]? = some (some (.error e)) →
        ∀ item ∈ (itemsOf i ids (s.interleaved [] ids)).drop (k + 1), item = none := by
  refine ⟨s.getElem?_interleaved [] ids, fun i => ?_⟩
  have halone : itemsOf i ids (s.interleaved [] ids) = s.fragments.pulls (ids.count i) :=
    s.itemsOf_interleaved [] i ids
  refine ⟨halone, fun k e he item hitem => ?_⟩
  rw [halone] at he hitem
  exact s.eq_none_of_pulls_error he hitem

/-- Two streams of a selector whose second argument is malformed. -/
theorem interleaved_independent_malformed :
    let s : Selector := ⟨.allPlayers,
      [(.known .tag, .flags [("a", true), ("b", false)]), (.known .level, .text "x")]⟩
    let items := s.interleaved [] [0, 0, 1, 0, 0, 0, 1, 0, 0, 1]
    let first := itemsOf 0 [0, 0, 1, 0, 0, 0, 1, 0, 0, 1] items
    items[9]? = some (some (.ok "tag=a")) ∧ first = s.fragments.pulls 7 ∧
      first[5]? = some (some (.error ⟨.known .level⟩)) ∧ ∀ item ∈ first.drop 6, item = none := by
  intro s items first
  obtain ⟨hitems, hfirst⟩ := s.interleaved_independent [0, 0, 1, 0, 0, 0, 1, 0, 0, 1]
  have he : first[5]? = some (some (.error ⟨.known .level⟩)) := rfl
  exact ⟨hitems 9, (hfirst 0).1, he, (hfirst 0).2 5 _ he⟩

end Interleaving

end Selector

end TargetSelector
