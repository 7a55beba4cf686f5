import TargetSelector.Selector.FragmentStream

/-!
Writing a selector to a sink of bytes, fragment by fragment. What a write leaves over is written again,
and so is what an interrupted write was given; a full sink refuses.
-/
namespace TargetSelector

def utf8 (s : String) : List UInt8 := s.toUTF8.data.toList

theorem utf8_empty : utf8 "" = [] := rfl

@[simp] theorem utf8_append (s t : String) : utf8 (s ++ t) = utf8 s ++ utf8 t := by
  simp [utf8]

/-- How a full sink refuses bytes. An interruption is no refusal. -/
inductive Refusal where
  | fails (message : String)
  | acceptsNothing

def Refusal.message : Refusal → String
  | .fails m => m
  | .acceptsNothing => "failed to write whole buffer"

structure Sink where
  received : List UInt8
  /-- The count of bytes that still fit; `none` is no limit. -/
  room : Option Nat
  refusal : Refusal
  /-- The most bytes that a write takes, from those received so far and those offered. A write of which
  a byte fits takes one at least. -/
  portion : List UInt8 → List UInt8 → Nat := fun _ bytes => bytes.length
  /-- How many times a write of some bytes, after those received so far, is interrupted before it is
  answered; `none` is for ever. -/
  interruptions : List UInt8 → List UInt8 → Option Nat := fun _ _ => some 0

/-- What one write comes to. `left` are the bytes that were not taken. -/
inductive Attempt where
  | interrupted
  | refused (message : String)
  | took (left : List UInt8) (sink : Sink)

namespace Sink

def unlimited : Sink := { received := [], room := none, refusal := .acceptsNothing }

def limited (room : Nat) (refusal : Refusal) : Sink :=
  { received := [], room := some room, refusal := refusal }

def taken (k : Sink) (bytes : List UInt8) : Nat :=
  min (min (k.room.getD bytes.length) bytes.length) (max 1 (k.portion k.received bytes))

/-- One write, after `n` interruptions of it. -/
def write (k : Sink) (n : Nat) (bytes : List UInt8) : Attempt :=
  if (k.interruptions k.received bytes).all (n < ·) then .interrupted
  else if k.room = some 0 then .refused k.refusal.message
  else .took (bytes.drop (k.taken bytes))
    { k with
      received := k.received ++ bytes.take (k.taken bytes)
      room := k.room.map (· - k.taken bytes) }

section

variable {k : Sink} {n : Nat} {bytes : List UInt8}

theorem taken_pos (hne : bytes ≠ []) (hroom : k.room ≠ some 0) : 0 < k.taken bytes := by
  have hpos := List.length_pos_iff.2 hne
  unfold taken
  cases h : k.room with
  | none => simp only [Option.getD_none]; omega
  | some n =>
    have hn : n ≠ 0 := fun h0 => hroom (by rw [h, h0])
    simp only [Option.getD_some]
    omega

private theorem lt_of_write_eq_interrupted (hforever : k.interruptions k.received bytes ≠ none)
    (h : k.write n bytes = .interrupted) : n < (k.interruptions k.received bytes).getD 0 := by
  unfold write at h
  split at h
  · next hall =>
    obtain ⟨m, hm⟩ := Option.ne_none_iff_exists'.1 hforever
    rw [hm] at hall ⊢
    exact of_decide_eq_true hall
  · split at h <;> cases h

private theorem length_lt_of_write_eq_took (hne : bytes ≠ []) {left : List UInt8} {l : Sink}
    (h : k.write n bytes = .took left l) : left.length < bytes.length := by
  unfold write at h
  split at h
  · cases h
  · split at h
    · cases h
    · next hroom =>
      cases h
      have htaken := taken_pos hne hroom
      have hpos := List.length_pos_iff.2 hne
      rw [List.length_drop]
      omega

end

/-- Writes all bytes, with as many writes as it takes, after `n` interruptions of the first one. A refusal
ends it with a message. An interrupted write is made again, so that one that is interrupted for ever
leaves no result. -/
def writeAllAfter (n : Nat) (k : Sink) (bytes : List UInt8) : Option (Sink × Option String) :=
  if bytes = [] then some (k, none)
  else if k.interruptions k.received bytes = none then none
  else match hwrite : k.write n bytes with
    | .interrupted => k.writeAllAfter (n + 1) bytes
    | .refused message => some (k, some message)
    | .took left l => l.writeAllAfter 0 left
termination_by (bytes.length, (k.interruptions k.received bytes).getD 0 - n)
decreasing_by
  · have hlt := lt_of_write_eq_interrupted ‹_› hwrite
    exact Prod.Lex.right _ (by omega)
  · exact Prod.Lex.left _ _ (length_lt_of_write_eq_took ‹_› hwrite)

def writeAll (k : Sink) (bytes : List UInt8) : Option (Sink × Option String) := k.writeAllAfter 0 bytes

end Sink

inductive WriteError where
  | malformed (error : MalformedArgument)
  | sink (message : String)

def WriteError.message : WriteError → String
  | .malformed e => e.message
  | .sink m => "failed to write selector: " ++ m

/-- Writes fragments up to the first error, of a fragment or of the sink. -/
def writeFragments : List Fragment → Sink → Option (Sink × Option WriteError)
  | [], k => some (k, none)
  | .error e :: _, k => some (k, some (.malformed e))
  | .ok text :: fs, k => do
    match ← k.writeAll (utf8 text) with
    | (l, none) => writeFragments fs l
    | (l, some m) => return (l, some (.sink m))

def Selector.writeTo (s : Selector) (k : Sink) : Option (Sink × Option WriteError) :=
  writeFragments s.fragments.toList k

end TargetSelector
