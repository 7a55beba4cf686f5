import TargetSelector.Proofs.Selector.Modes

/-!
Writing a selector to a sink with limited room. The count of bytes that come before a malformed argument
decides whether it or the sink ends the writing.
-/
namespace TargetSelector

private theorem flatMap_utf8 (texts : List String) :
    texts.flatMap utf8 = utf8 (String.join texts) := by
  induction texts with
  | nil => rfl
  | cons text texts ih => rw [List.flatMap_cons, ih, String.join_cons, utf8_append]

namespace Selector

theorem flatMap_utf8_toList (s : Selector) :
    (s.fragments.toList.filterMap Except.toOption).flatMap utf8 = utf8 s.output := by
  have htexts : (s.okTexts.map Except.ok : List Fragment).filterMap Except.toOption = s.okTexts := by
    rw [List.filterMap_map]
    exact List.filterMap_some
  have herror : ((s.arguments.firstError?.map Except.error).toList : List Fragment).filterMap
      Except.toOption = [] := by
    cases s.arguments.firstError? <;> rfl
  rw [toList_fragments, List.filterMap_append, htexts, herror, List.append_nil, flatMap_utf8,
    join_okTexts]

/-- A sink of limited room takes the bytes of the fragments up to its limit, in whatever portions and
however often it interrupts a write before it answers. It is the sink that stops the writing if the bytes
are more than the limit, and a malformed argument otherwise. The writing comes to no other end, and it
comes to this one unless a write is interrupted for ever. -/
theorem writeTo_limited (s : Selector) (k : Sink) (limit : Nat) :
    let bytes := (s.fragments.toList.filterMap Except.toOption).flatMap fun text =>
      text.toUTF8.data.toList
    let sink := { k with room := some limit }
    let result := if limit < bytes.length then
        ({ sink with received := k.received ++ bytes.take limit, room := some 0 },
          some (.sink k.refusal.message))
      else
        ({ sink with received := k.received ++ bytes, room := some (limit - bytes.length) },
          s.arguments.firstError?.map .malformed)
    (∀ r, s.writeTo sink = some r → r = result) ∧
      ((∀ received offered, k.interruptions received offered ≠ none) →
        s.writeTo sink = some result) := by
  intro bytes sink result
  have hbytes : bytes = utf8 s.output := s.flatMap_utf8_toList
  have hresult : ∀ r, s.writeTo sink = some r → r = result := by
    intro r hr
    unfold result
    rw [hbytes]
    split
    · next h =>
      have hlen : ((utf8 s.output).take limit).length = limit := List.length_take_of_le (by omega)
      rw [← join_okTexts] at h hlen ⊢
      rw [writeTo, toList_fragments] at hr
      obtain ⟨rfl, -⟩ := full_of_writeFragments rfl h hr
      simp [sink, Sink.accepting, hlen]
    · next h =>
      have hfits : sink.Fits (utf8 s.output) := fun n hn => by
        cases hn
        omega
      exact eq_of_writeTo_of_fits hfits hr
  refine ⟨hresult, fun hanswers => ?_⟩
  have hsink : sink.Answers := hanswers
  obtain ⟨r, hr⟩ := exists_writeFragments hsink s.fragments.toList
  rw [← hresult r hr]
  exact hr

/-- A sink that is full within a character and interrupts every write twice. -/
theorem writeTo_limited_character :
    let s : Selector := ⟨.allPlayers, [(.known .name, .flags [("é", true)]), (.known .limit, .flags [])]⟩
    let sink : Sink := { Sink.limited 9 .acceptsNothing with interruptions := fun _ _ => some 2 }
    s.writeTo sink = some
      ({ sink with received := [64, 97, 91, 110, 97, 109, 101, 61, 195], room := some 0 },
        some (.sink "failed to write whole buffer")) := by
  intro s sink
  have hbytes : (s.fragments.toList.filterMap Except.toOption).flatMap
      (fun text => text.toUTF8.data.toList) = [64, 97, 91, 110, 97, 109, 101, 61, 195, 169] := by
    decide +kernel
  have hlimited := (s.writeTo_limited sink 9).2 fun _ _ => Option.some_ne_none 2
  rw [hbytes] at hlimited
  exact hlimited

/-- To interrupt a write is to ask for it again, and not to refuse it: writing to a full sink that
interrupts every write goes on for ever. -/
theorem writeTo_eq_none (s : Selector) (k : Sink) (limit : Nat) (h : limit < (utf8 s.output).length)
    (hendless : ∀ offered, k.interruptions (k.received ++ (utf8 s.output).take limit) offered = none) :
    s.writeTo { k with room := some limit } = none := by
  rw [← join_okTexts] at h hendless
  rw [Option.eq_none_iff_forall_not_mem]
  intro r hr
  rw [Option.mem_def, writeTo, toList_fragments] at hr
  obtain ⟨-, offered, hanswer⟩ := full_of_writeFragments rfl h hr
  exact hanswer (hendless offered)

end Selector

end TargetSelector
