import TargetSelector.Proofs.Argument.OfJson
import TargetSelector.Proofs.OrderedMap
import TargetSelector.Proofs.Selector.Modes
import TargetSelector.Selector.Document

/-!
Selectors that are loaded have a text: both the conversion from JSON and the rules for segments give a
key the shape that it expects.
-/
namespace TargetSelector

namespace Document

theorem textOf_eq_ok {v : Json} {s : String} : textOf v = .ok s ↔ v = .string s := by
  cases v <;> simp [textOf]

theorem membersOf_eq_ok {v : Json} {members : List (String × Json)} :
    membersOf v = .ok members ↔ v = .object members := by
  cases v <;> simp [membersOf]

theorem fields_eq_ok {members : List (String × Json)} (h : (OrderedMap.keys members).Nodup)
    {target? : Option String} {args? : Option (List (String × Json))} :
    fields members = .ok (target?, args?) ↔
      OrderedMap.get? "target" members = target?.map .string ∧
      OrderedMap.get? "arguments" members = args?.map .object := by
  induction members generalizing target? args? with
  | nil =>
    cases target? <;> cases args? <;> simp [fields, OrderedMap.get?]
  | cons member members ih =>
    obtain ⟨name, v⟩ := member
    obtain ⟨hname, hrest⟩ := List.nodup_cons.1 h
    have hnone : OrderedMap.get? name members = none := OrderedMap.get?_eq_none_iff.2 hname
    rw [fields]
    by_cases htarget : name = "target"
    · subst htarget
      have hother : "target" ≠ "arguments" := by decide
      rw [if_pos rfl, OrderedMap.get?, if_pos rfl, OrderedMap.get?, if_neg hother, bind_eq_ok]
      constructor
      · rintro ⟨target, hv, h⟩
        obtain ⟨⟨_, rest⟩, hfields, h⟩ := bind_eq_ok.1 h
        cases h
        exact ⟨congrArg some (textOf_eq_ok.1 hv), ((ih hrest).1 hfields).2⟩
      · rintro ⟨hv, hargs⟩
        obtain ⟨target, rfl, rfl⟩ := Option.map_eq_some_iff.1 hv.symm
        have hfields : fields members = .ok (none, args?) := (ih hrest).2 ⟨hnone, hargs⟩
        exact ⟨target, rfl, by rw [hfields]; rfl⟩
    · rw [if_neg htarget]
      by_cases harguments : name = "arguments"
      · subst harguments
        rw [if_pos rfl, OrderedMap.get?, if_neg htarget, OrderedMap.get?, if_pos rfl, bind_eq_ok]
        constructor
        · rintro ⟨args, hv, h⟩
          obtain ⟨⟨rest, _⟩, hfields, h⟩ := bind_eq_ok.1 h
          cases h
          exact ⟨((ih hrest).1 hfields).1, congrArg some (membersOf_eq_ok.1 hv)⟩
        · rintro ⟨htag, hv⟩
          obtain ⟨args, rfl, rfl⟩ := Option.map_eq_some_iff.1 hv.symm
          have hfields : fields members = .ok (target?, none) := (ih hrest).2 ⟨htag, hnone⟩
          exact ⟨args, rfl, by rw [hfields]; rfl⟩
      · rw [if_neg harguments, OrderedMap.get?, if_neg htarget, OrderedMap.get?, if_neg harguments]
        exact ih hrest

/-- A document that is an object is its text at `target` and its object at `arguments`. Missing
arguments are the empty object. -/
theorem ofJson_object_eq_ok {members : List (String × Json)}
    (h : (OrderedMap.keys members).Nodup) {d : Document} :
    ofJson (.object members) = .ok d ↔
      OrderedMap.get? "target" members = some (.string d.target) ∧
      (OrderedMap.get? "arguments" members).getD (.object []) = .object d.arguments := by
  change (fields members >>= _) = _ ↔ _
  rw [bind_eq_ok]
  constructor
  · rintro ⟨⟨target?, args?⟩, hfields, hd⟩
    obtain ⟨htag, hargs⟩ := (fields_eq_ok h).1 hfields
    cases target? with
    | none => cases hd
    | some target =>
      cases hd
      rw [hargs]
      exact ⟨htag, by cases args? <;> rfl⟩
  · rintro ⟨htag, hargs⟩
    have hargs : ∃ args?, OrderedMap.get? "arguments" members = Option.map .object args? ∧
        args?.getD [] = d.arguments := by
      cases hget : OrderedMap.get? "arguments" members with
      | none =>
        rw [hget] at hargs
        exact ⟨none, rfl, Json.object.inj hargs⟩
      | some args =>
        rw [hget] at hargs
        exact ⟨some d.arguments, congrArg some hargs, rfl⟩
    obtain ⟨args?, hget, hargs⟩ := hargs
    refine ⟨(some d.target, args?), (fields_eq_ok h).2 ⟨htag, hget⟩, ?_⟩
    exact congrArg (fun args => Except.ok (mk d.target args)) hargs

theorem fields_filter (members : List (String × Json)) :
    fields (members.filter fun m => m.1 = "target" ∨ m.1 = "arguments") = fields members := by
  induction members with
  | nil => rfl
  | cons member members ih =>
    obtain ⟨name, v⟩ := member
    by_cases hname : name = "target" ∨ name = "arguments"
    · rw [List.filter_cons_of_pos (by simpa using hname), fields, fields, ih]
    · rw [List.filter_cons_of_neg (by simpa using hname), fields, if_neg fun h => hname (Or.inl h),
        if_neg fun h => hname (Or.inr h), ih]

theorem ofJson_filter (members : List (String × Json)) :
    ofJson (.object (members.filter fun m => m.1 = "target" ∨ m.1 = "arguments")) =
      ofJson (.object members) := by
  simp only [ofJson, fields_filter]

theorem ofJson_array_eq_ok {items : List Json} {d : Document} :
    ofJson (.array items) = .ok d ↔
      items = [.string d.target] ∧ d.arguments = [] ∨
      items = [.string d.target, .object d.arguments] := by
  obtain ⟨target, arguments⟩ := d
  match items with
  | [] => simp [ofJson]
  | [t] =>
    simp only [ofJson, bind_eq_ok, textOf_eq_ok]
    simp [pure, Except.pure, eq_comm]
  | t :: args :: more =>
    simp only [ofJson, bind_eq_ok, textOf_eq_ok, membersOf_eq_ok]
    cases more <;> simp [pure, Except.pure]

private theorem exists_of_withMember {args args' : Arguments} {name : String} {v : Json}
    (h : withMember args (name, v) = .ok args') :
    ∃ value, ArgumentValue.ofJson (.ofName name) v = .ok value ∧
      args' = OrderedMap.insert (.ofName name) value args := by
  obtain ⟨value, hvalue, h⟩ := bind_eq_ok.1 h
  exact ⟨value, hvalue, (Except.ok.inj h).symm⟩

/-- Each argument that is read is the value of a member under the key of its name. -/
theorem exists_of_foldlM_withMember {members : List (String × Json)} {start args : Arguments}
    (h : members.foldlM withMember start = .ok args) :
    ∀ a ∈ args, a ∈ start ∨
      ∃ m ∈ members, a.1 = .ofName m.1 ∧ ArgumentValue.ofJson a.1 m.2 = .ok a.2 := by
  induction members generalizing start with
  | nil =>
    cases h
    exact fun a ha => Or.inl ha
  | cons member members ih =>
    obtain ⟨name, v⟩ := member
    obtain ⟨args', hset, h⟩ := bind_eq_ok.1 h
    obtain ⟨value, hvalue, rfl⟩ := exists_of_withMember hset
    intro a ha
    rcases ih h a ha with ha | ⟨m, hm, ha⟩
    · rcases OrderedMap.exists_of_mem_alter ha with ha | ⟨-, -, rfl⟩
      · exact Or.inl ha
      · exact Or.inr ⟨_, List.mem_cons_self, rfl, hvalue⟩
    · exact Or.inr ⟨m, List.mem_cons_of_mem _ hm, ha⟩

theorem exists_of_readArguments {members : List (String × Json)} {args : Arguments}
    (h : readArguments members = .ok args) :
    ∀ a ∈ args, ∃ m ∈ members, a.1 = .ofName m.1 ∧ ArgumentValue.ofJson a.1 m.2 = .ok a.2 :=
  fun a ha => (exists_of_foldlM_withMember h a ha).resolve_left List.not_mem_nil

/-- The argument that a member writes. -/
def readArgument (member : String × Json) :
    Except MalformedArgument (ArgumentKey × ArgumentValue) :=
  (ArgumentValue.ofJson (.ofName member.1) member.2).map (.ofName member.1, ·)

theorem readArgument_eq_ok {member : String × Json} {a : ArgumentKey × ArgumentValue} :
    readArgument member = .ok a ↔
      a.1 = .ofName member.1 ∧ ArgumentValue.ofJson a.1 member.2 = .ok a.2 := by
  rw [readArgument, map_eq_ok]
  constructor
  · rintro ⟨value, hvalue, rfl⟩
    exact ⟨rfl, hvalue⟩
  · rintro ⟨hkey, hvalue⟩
    rw [hkey] at hvalue
    exact ⟨a.2, hvalue, by rw [← hkey]⟩

theorem exists_readArgument_iff {member : String × Json} :
    (∃ a, readArgument member = .ok a) ↔
      ∃ value, ArgumentValue.ofJson (.ofName member.1) member.2 = .ok value := by
  constructor
  · rintro ⟨a, ha⟩
    obtain ⟨value, hvalue, -⟩ := map_eq_ok.1 ha
    exact ⟨value, hvalue⟩
  · rintro ⟨value, hvalue⟩
    exact ⟨_, map_eq_ok.2 ⟨value, hvalue, rfl⟩⟩

theorem readArgument_eq_error {member : String × Json} {e : MalformedArgument} :
    readArgument member = .error e ↔
      ArgumentValue.ofJson (.ofName member.1) member.2 = .error e := by
  unfold readArgument
  cases ArgumentValue.ofJson (.ofName member.1) member.2 <;> simp [Except.map]

/-- Distinct names have distinct keys, so that each member adds an argument of its own. The induction
carries the arguments that are set already. -/
theorem foldlM_withMember_eq {members : List (String × Json)} {start : Arguments}
    (hnames : (OrderedMap.keys members).Nodup)
    (hnew : ∀ name ∈ OrderedMap.keys members, .ofName name ∉ OrderedMap.keys start) :
    members.foldlM withMember start = (members.mapM readArgument).map (start ++ ·) := by
  induction members generalizing start with
  | nil => simp [Except.map, pure, Except.pure]
  | cons member members ih =>
    obtain ⟨name, v⟩ := member
    obtain ⟨hname, hrest⟩ := List.nodup_cons.1 hnames
    obtain ⟨hkey, hnew⟩ := List.forall_mem_cons.1 hnew
    rw [List.foldlM_cons, List.mapM_cons, withMember, readArgument]
    cases ArgumentValue.ofJson (.ofName name) v with
    | error e => rfl
    | ok value =>
      have hset : OrderedMap.insert (.ofName name) value start = start ++ [(.ofName name, value)] :=
        OrderedMap.alter_of_not_mem hkey
      have hnext : ∀ other ∈ OrderedMap.keys members,
          .ofName other ∉ OrderedMap.keys (start ++ [(.ofName name, value)]) := by
        intro other hother hmem
        rcases List.mem_append.1 (OrderedMap.keys_append _ _ ▸ hmem) with hmem | hmem
        · exact hnew other hother hmem
        · have hsame : other = name := ArgumentKey.ofName_injective (List.mem_singleton.1 hmem)
          exact hname (hsame ▸ hother)
      change members.foldlM withMember (OrderedMap.insert _ _ start) = _
      rw [hset, ih hrest hnext]
      cases members.mapM readArgument with
      | error e => rfl
      | ok args => simp [Except.map, bind, Except.bind, pure, Except.pure]

theorem readArguments_eq {members : List (String × Json)} (h : (OrderedMap.keys members).Nodup) :
    readArguments members = members.mapM readArgument := by
  rw [readArguments, foldlM_withMember_eq h fun _ _ => List.not_mem_nil]
  cases members.mapM readArgument <;> rfl

theorem readArguments_eq_ok {members : List (String × Json)} (h : (OrderedMap.keys members).Nodup)
    {args : Arguments} : readArguments members = .ok args ↔
      members.Forall₂ (fun m a => a.1 = .ofName m.1 ∧ ArgumentValue.ofJson a.1 m.2 = .ok a.2) args := by
  rw [readArguments_eq h, mapM_eq_ok, ← List.forall₂_eq_eq_eq, List.forall₂_map_left_iff,
    List.forall₂_map_right_iff]
  simp only [readArgument_eq_ok]

theorem readArguments_eq_error {members : List (String × Json)}
    (h : (OrderedMap.keys members).Nodup) {e : MalformedArgument} :
    readArguments members = .error e ↔ ∃ before m after, members = before ++ m :: after ∧
      (∀ b ∈ before, ∃ value, ArgumentValue.ofJson (.ofName b.1) b.2 = .ok value) ∧
      ArgumentValue.ofJson (.ofName m.1) m.2 = .error e := by
  rw [readArguments_eq h, mapM_eq_error]
  simp only [exists_readArgument_iff, readArgument_eq_error]

theorem exists_readArguments_eq_ok {members : List (String × Json)}
    (h : (OrderedMap.keys members).Nodup)
    (hvalues : ∀ m ∈ members, ∃ value, ArgumentValue.ofJson (.ofName m.1) m.2 = .ok value) :
    ∃ args, readArguments members = .ok args := by
  cases hread : readArguments members with
  | ok args => exact ⟨args, rfl⟩
  | error e =>
    obtain ⟨before, m, after, rfl, -, herror⟩ := (readArguments_eq_error h).1 hread
    obtain ⟨value, hvalue⟩ := hvalues m (by simp)
    rw [herror] at hvalue
    cases hvalue

private theorem firstError?_of_readArguments {members : List (String × Json)} {args : Arguments}
    (h : readArguments members = .ok args) : args.firstError? = none := by
  apply (Arguments.firstError?_eq_none_iff args).2
  intro a ha
  obtain ⟨m, -, -, hvalue⟩ := exists_of_readArguments h a ha
  exact ArgumentValue.exists_segments_of_ofJson hvalue

end Document

namespace Selector

theorem firstError?_of_ofJson {v : Json} {s : Selector} (h : ofJson v = .ok s) :
    s.arguments.firstError? = none := by
  obtain ⟨d, -, h⟩ := bind_eq_ok.1 h
  obtain ⟨target, -, h⟩ := bind_eq_ok.1 h
  obtain ⟨args, hargs, h⟩ := bind_eq_ok.1 h
  cases h
  exact Document.firstError?_of_readArguments (mapError_eq_ok.1 hargs)

/-- A selector that is loaded has a text: a value that is read for a key is never one that the key's
rule refuses, for its kind or for a number in it. -/
theorem exists_format_of_load :
    (∀ text s, load text = .ok s → ∃ out, s.format = .ok out) ∧
    ∀ key v a, ArgumentValue.ofJson key v = .ok a → ∃ ss, key.segments a = .ok ss := by
  constructor
  · intro text s h
    obtain ⟨v, -, hv⟩ := bind_eq_ok.1 h
    have herror : s.arguments.firstError? = none := firstError?_of_ofJson hv
    exact ⟨s.text, format_of_firstError? herror⟩
  · intro key v a h
    exact ArgumentValue.exists_segments_of_ofJson h

/-- A number above the signed integers, and a score range with one bound. -/
theorem exists_format_of_load_numbers :
    let text := "\x7b\"target\":\"a\",\"arguments\":\x7b\"x\":18446744073709551615," ++
      "\"scores\":\x7b\"k\":\x7b\"min\":-0.5\x7d\x7d\x7d\x7d"
    ∃ s out, load text = .ok s ∧ s.format = .ok out := by
  intro text
  have hok : (load text).isOk = true := by decide +kernel
  cases h : load text with
  | error e =>
    rw [h] at hok
    cases hok
  | ok s =>
    obtain ⟨out, hout⟩ := exists_format_of_load.1 text s h
    exact ⟨s, out, rfl, hout⟩

end Selector

end TargetSelector
