import TargetSelector.Selector.Sink

/-!
What a sink holds after fragments that fit into it, and after fragments that do not, however it splits
what it is given.
-/
namespace TargetSelector

namespace Sink

def accepting (k : Sink) (bytes : List UInt8) : Sink :=
  { k with received := k.received ++ bytes, room := k.room.map (· - bytes.length) }

def Fits (k : Sink) (bytes : List UInt8) : Prop :=
  ∀ n, k.room = some n → bytes.length ≤ n

/-- No write is interrupted for ever. -/
def Answers (k : Sink) : Prop :=
  ∀ received bytes, k.interruptions received bytes ≠ none

@[simp] theorem accepting_nil (k : Sink) : k.accepting [] = k := by
  simp [accepting]

theorem accepting_append (k : Sink) (a b : List UInt8) :
    (k.accepting a).accepting b = k.accepting (a ++ b) := by
  simp [accepting, Function.comp_def, Nat.sub_sub]

theorem fits_of_room {k : Sink} (h : k.room = none) (bytes : List UInt8) : k.Fits bytes := by
  intro n hn
  rw [h] at hn
  cases hn

theorem room_accepting {k : Sink} (h : k.room = none) (bytes : List UInt8) :
    (k.accepting bytes).room = none := by
  rw [accepting, h]
  rfl

theorem room_accepting_of_some {k : Sink} {n : Nat} (h : k.room = some n) (bytes : List UInt8) :
    (k.accepting bytes).room = some (n - bytes.length) := by
  rw [accepting, h]
  rfl

theorem fits_append {k : Sink} {a b : List UInt8} :
    k.Fits (a ++ b) ↔ k.Fits a ∧ (k.accepting a).Fits b := by
  unfold Fits
  cases h : k.room with
  | none => simp [accepting, h]
  | some n =>
    simp only [room_accepting_of_some h, Option.some.injEq, forall_eq', List.length_append]
    omega

theorem length_take_taken (k : Sink) (bytes : List UInt8) :
    (bytes.take (k.taken bytes)).length = k.taken bytes := by
  rw [List.length_take, taken]
  omega

section

variable {k : Sink} {n : Nat} {bytes : List UInt8}

theorem write_eq_refused {message : String} (h : k.write n bytes = .refused message) :
    k.room = some 0 ∧ message = k.refusal.message := by
  unfold write at h
  split at h
  · cases h
  · split at h
    · next hroom =>
      cases h
      exact ⟨hroom, rfl⟩
    · cases h

theorem write_eq_took {left : List UInt8} {l : Sink} (h : k.write n bytes = .took left l) :
    ∃ front, bytes = front ++ left ∧ k.Fits front ∧ l = k.accepting front := by
  unfold write at h
  split at h
  · cases h
  · split at h
    · cases h
    · cases h
      have hlen := k.length_take_taken bytes
      refine ⟨bytes.take (k.taken bytes), (List.take_append_drop _ _).symm, ?_, ?_⟩
      · intro n hn
        rw [hlen, taken, hn, Option.getD_some]
        omega
      · rw [accepting, hlen]

end

/-- The ends that writing `bytes` may come to: the sink takes all of them, or it has taken as many as it
has room for and answers a write with a refusal. -/
inductive Ending (k : Sink) (bytes : List UInt8) : Sink × Option String → Prop where
  | all (h : k.Fits bytes) : Ending k bytes (k.accepting bytes, none)
  | full {n : Nat} (hroom : k.room = some n) (hlt : n < bytes.length)
    (hanswers : ∃ offered, k.interruptions (k.received ++ bytes.take n) offered ≠ none) :
    Ending k bytes (k.accepting (bytes.take n), some k.refusal.message)

theorem Ending.append {k : Sink} {front left : List UInt8} {r : Sink × Option String}
    (hfits : k.Fits front) (h : Ending (k.accepting front) left r) : Ending k (front ++ left) r := by
  cases h with
  | all h =>
    rw [accepting_append]
    exact .all (fits_append.2 ⟨hfits, h⟩)
  | @full m hroom hlt hanswers =>
    obtain ⟨n, hn, rfl⟩ := Option.map_eq_some_iff.1 hroom
    have hfront : front.length ≤ n := hfits n hn
    have htake : (front ++ left).take n = front ++ left.take (n - front.length) := by
      rw [List.take_append, List.take_of_length_le hfront]
    have hfull : Ending k (front ++ left) (k.accepting ((front ++ left).take n), some k.refusal.message) := by
      refine .full hn ?_ ?_
      · rw [List.length_append]
        omega
      · rw [htake, ← List.append_assoc]
        exact hanswers
    rw [htake] at hfull
    rw [accepting_append]
    exact hfull

/-- Whatever result there is, it is one of the two ends. -/
theorem ending_of_writeAllAfter {n : Nat} {k : Sink} {bytes : List UInt8} {r : Sink × Option String}
    (h : k.writeAllAfter n bytes = some r) : Ending k bytes r := by
  induction n, k, bytes using writeAllAfter.induct with
  | case1 n k =>
    rw [writeAllAfter, if_pos rfl] at h
    cases h
    have hall : Ending k [] (k.accepting [], none) := .all fun _ _ => Nat.zero_le _
    rwa [accepting_nil] at hall
  | case2 n k bytes hne hforever =>
    rw [writeAllAfter, if_neg hne, if_pos hforever] at h
    cases h
  | case3 n k bytes hne hanswers hwrite ih =>
    rw [writeAllAfter, if_neg hne, if_neg hanswers, hwrite] at h
    exact ih h
  | case4 n k bytes hne hanswers message hwrite =>
    rw [writeAllAfter, if_neg hne, if_neg hanswers, hwrite] at h
    cases h
    obtain ⟨hroom, rfl⟩ := write_eq_refused hwrite
    have hfull : Ending k bytes (k.accepting (bytes.take 0), some k.refusal.message) :=
      .full hroom (List.length_pos_iff.2 hne) ⟨bytes, by rwa [List.take_zero, List.append_nil]⟩
    rwa [List.take_zero, accepting_nil] at hfull
  | case5 n k bytes hne hanswers left l hwrite ih =>
    rw [writeAllAfter, if_neg hne, if_neg hanswers, hwrite] at h
    obtain ⟨front, rfl, hfits, rfl⟩ := write_eq_took hwrite
    exact (ih h).append hfits

theorem exists_writeAllAfter (n : Nat) {k : Sink} (hk : k.Answers) (bytes : List UInt8) :
    ∃ r, k.writeAllAfter n bytes = some r := by
  induction n, k, bytes using writeAllAfter.induct with
  | case1 n k => exact ⟨_, by rw [writeAllAfter, if_pos rfl]⟩
  | case2 n k bytes hne hforever => exact absurd hforever (hk _ _)
  | case3 n k bytes hne hanswers hwrite ih =>
    rw [writeAllAfter, if_neg hne, if_neg hanswers, hwrite]
    exact ih hk
  | case4 n k bytes hne hanswers message hwrite =>
    rw [writeAllAfter, if_neg hne, if_neg hanswers, hwrite]
    exact ⟨_, rfl⟩
  | case5 n k bytes hne hanswers left l hwrite ih =>
    rw [writeAllAfter, if_neg hne, if_neg hanswers, hwrite]
    obtain ⟨front, -, -, rfl⟩ := write_eq_took hwrite
    exact ih hk

theorem writeAll_of_fits {k : Sink} (hk : k.Answers) {bytes : List UInt8} (h : k.Fits bytes) :
    k.writeAll bytes = some (k.accepting bytes, none) := by
  obtain ⟨r, hr⟩ := exists_writeAllAfter 0 hk bytes
  cases ending_of_writeAllAfter hr with
  | all _ => exact hr
  | full hroom hlt _ => exact absurd (h _ hroom) (Nat.not_le_of_lt hlt)

end Sink

/-- A text is written before the next fragments are, or it is the one that does not fit. -/
private theorem cases_of_writeFragments_cons {k : Sink} {text : String} {fs : List Fragment}
    {r : Sink × Option WriteError} (h : writeFragments (.ok text :: fs) k = some r) :
    (k.Fits (utf8 text) ∧ writeFragments fs (k.accepting (utf8 text)) = some r) ∨
      ∃ n, k.room = some n ∧ n < (utf8 text).length ∧
        r = (k.accepting ((utf8 text).take n), some (.sink k.refusal.message)) ∧
        ∃ offered, k.interruptions (k.received ++ (utf8 text).take n) offered ≠ none := by
  rw [writeFragments] at h
  obtain ⟨r', hwrite, h⟩ := Option.bind_eq_some_iff.1 h
  cases Sink.ending_of_writeAllAfter hwrite with
  | all hfits => exact Or.inl ⟨hfits, h⟩
  | @full n hroom hlt hanswers => exact Or.inr ⟨n, hroom, hlt, (Option.some.inj h).symm, hanswers⟩

theorem exists_writeFragments {k : Sink} (hk : k.Answers) (fs : List Fragment) :
    ∃ r, writeFragments fs k = some r := by
  induction fs generalizing k with
  | nil => exact ⟨_, rfl⟩
  | cons f fs ih =>
    cases f with
    | error e => exact ⟨_, rfl⟩
    | ok text =>
      obtain ⟨r, hr⟩ := Sink.exists_writeAllAfter 0 hk (utf8 text)
      have hwrite : k.writeAll (utf8 text) = some r := hr
      rw [writeFragments, hwrite]
      cases Sink.ending_of_writeAllAfter hr with
      | all _ => exact ih hk
      | full _ _ _ => exact ⟨_, rfl⟩

theorem writeFragments_of_fits {k : Sink} {texts : List String} {fs : List Fragment}
    {r : Sink × Option WriteError} (hfits : k.Fits (utf8 (String.join texts)))
    (h : writeFragments (texts.map .ok ++ fs) k = some r) :
    writeFragments fs (k.accepting (utf8 (String.join texts))) = some r := by
  induction texts generalizing k with
  | nil => simpa [utf8_empty] using h
  | cons text texts ih =>
    rw [String.join_cons, utf8_append] at hfits ⊢
    obtain ⟨htext, hrest⟩ := Sink.fits_append.1 hfits
    rw [← Sink.accepting_append]
    rcases cases_of_writeFragments_cons h with ⟨-, h⟩ | ⟨n, hroom, hlt, -⟩
    · exact ih hrest h
    · exact absurd (htext n hroom) (Nat.not_le_of_lt hlt)

/-- Fragments after the first one that does not fit are never written, and neither is an error among
them seen. The full sink has answered, since the writing ended. -/
theorem full_of_writeFragments {k : Sink} {n : Nat} (hroom : k.room = some n) {texts : List String}
    {fs : List Fragment} {r : Sink × Option WriteError} (hlt : n < (utf8 (String.join texts)).length)
    (h : writeFragments (texts.map .ok ++ fs) k = some r) :
    r = (k.accepting ((utf8 (String.join texts)).take n), some (.sink k.refusal.message)) ∧
      ∃ offered, k.interruptions (k.received ++ (utf8 (String.join texts)).take n) offered ≠ none := by
  induction texts generalizing k n with
  | nil => simp [utf8_empty] at hlt
  | cons text texts ih =>
    rw [String.join_cons, utf8_append] at hlt ⊢
    rcases cases_of_writeFragments_cons h with ⟨hfits, h⟩ | ⟨m, hroom', hlt', rfl, hanswers⟩
    · have htext : (utf8 text).length ≤ n := hfits n hroom
      rw [List.length_append] at hlt
      rw [List.take_append, List.take_of_length_le htext, ← Sink.accepting_append, ← List.append_assoc]
      exact ih (Sink.room_accepting_of_some hroom _) (by omega) h
    · obtain rfl := Option.some.inj (hroom.symm.trans hroom')
      rw [List.take_append_of_le_length (Nat.le_of_lt hlt')]
      exact ⟨rfl, hanswers⟩

end TargetSelector
