import TargetSelector.Proofs.Argument.Admission

/-!
The formatting table: the recognised keys by what they accept, and the segments that each accepted value
gets.
-/
namespace TargetSelector

def Shape.keys : Shape → List KnownKey
  | .scalar => [.x, .y, .z, .dx, .dy, .dz, .distance, .limit, .sort]
  | .scores => [.scores]
  | .range => [.level, .xRotation, .yRotation]
  | .flags => [.team, .gamemode, .name, .type, .tag, .predicate]
  | .advancements => [.advancements]
  | .nbt => [.nbt]
  | .anything => []

theorem Shape.mem_keys_iff {k : KnownKey} {sh : Shape} : k ∈ sh.keys ↔ k.shape = sh := by
  cases k <;> cases sh <;> decide

/-- A value has one text, its display, unless it is a map that is listed or left out. -/
theorem ArgumentValue.texts_eq_display {sh : Shape} {v : ArgumentValue} (hflags : sh ≠ .flags)
    (hscores : sh ≠ .scores ∨ v ≠ .scores [])
    (hadvancements : sh ≠ .advancements ∨ v ≠ .advancements []) : v.texts sh = [v.display] := by
  unfold texts
  split
  · exact absurd rfl hflags
  · simp at hscores
  · simp at hadvancements
  · rfl

namespace ArgumentKey

inductive Accepts : ArgumentKey → ArgumentValue → Prop where
  | int {k : KnownKey} (hk : k ∈ Shape.scalar.keys) (i : Int64) : Accepts (.known k) (.int i)
  | text {k : KnownKey} (hk : k ∈ Shape.scalar.keys) (t : String) : Accepts (.known k) (.text t)
  | float {k : KnownKey} (hk : k ∈ Shape.scalar.keys) {x : Binary64} (hx : x.isFinite) :
    Accepts (.known k) (.float x)
  | range {k : KnownKey} (hk : k ∈ Shape.scalar.keys ++ Shape.range.keys) {r : Range}
    (hr : ∀ x ∈ r.bounds, x.isFinite) : Accepts (.known k) (.range r)
  | scores {m : OrderedMap String Range} (hm : ∀ e ∈ m, ∀ x ∈ e.2.bounds, x.isFinite) :
    Accepts (.known .scores) (.scores m)
  | flags {k : KnownKey} (hk : k ∈ Shape.flags.keys) (m : OrderedMap String Bool) :
    Accepts (.known k) (.flags m)
  | advancements (m : OrderedMap String Advancement) :
    Accepts (.known .advancements) (.advancements m)
  | nbt (n : Nbt) : Accepts (.known .nbt) (.nbt n)
  | other (name : String) (unknown : KnownKey.ofText? name = none) (v : ArgumentValue) :
    Accepts (.other name unknown) v

/-- The segments of an accepted value: one for each flag under a key of flags, none for an empty map
under a key of scores or advancements, and one otherwise. -/
inductive Yields : ArgumentKey → ArgumentValue → List String → Prop where
  | flags {k : KnownKey} (hk : k ∈ Shape.flags.keys) (m : OrderedMap String Bool) :
    Yields (.known k) (.flags m)
      (m.map fun e => (known k).name ++ "=" ++ ((if e.2 then "" else "!") ++ e.1))
  | noScores : Yields (.known .scores) (.scores []) []
  | noAdvancements : Yields (.known .advancements) (.advancements []) []
  | single {key : ArgumentKey} {v : ArgumentValue} (hflags : ∀ k ∈ Shape.flags.keys, key ≠ .known k)
    (hscores : key ≠ .known .scores ∨ v ≠ .scores [])
    (hadvancements : key ≠ .known .advancements ∨ v ≠ .advancements []) :
    Yields key v [key.name ++ "=" ++ v.display]

theorem Accepts.admits {key : ArgumentKey} {v : ArgumentValue} (h : key.Accepts v) :
    key.shape.admits v := by
  cases h with
  | int hk i | text hk t => rw [shape, Shape.mem_keys_iff.1 hk]; rfl
  | float hk hx =>
    rw [shape, Shape.mem_keys_iff.1 hk]
    exact hx
  | range hk hr =>
    have hfinite := Range.isFinite_iff.2 hr
    rcases List.mem_append.1 hk with hk | hk <;>
    · rw [shape, Shape.mem_keys_iff.1 hk]
      exact hfinite
  | scores hm => exact List.all_eq_true.2 fun e he => Range.isFinite_iff.2 (hm e he)
  | flags hk m => rw [shape, Shape.mem_keys_iff.1 hk]; rfl
  | advancements m => rfl
  | nbt n => rfl
  | other name unknown v => rfl

theorem accepts_of_admits {key : ArgumentKey} {v : ArgumentValue} (h : key.shape.admits v) :
    key.Accepts v := by
  cases key with
  | other name unknown => exact .other name unknown v
  | known k =>
    rw [shape] at h
    have hk : k ∈ k.shape.keys := Shape.mem_keys_iff.2 rfl
    generalize k.shape = sh at h hk
    cases sh with
    | scalar =>
      cases v with
      | int i => exact .int hk i
      | text t => exact .text hk t
      | float x => exact .float hk h
      | range r => exact .range (List.mem_append_left _ hk) (Range.isFinite_iff.1 h)
      | _ => cases h
    | scores =>
      obtain rfl := List.mem_singleton.1 hk
      cases v with
      | scores m =>
        exact .scores fun e he => Range.isFinite_iff.1 (List.all_eq_true.1 h e he)
      | _ => cases h
    | range =>
      cases v with
      | range r => exact .range (List.mem_append_right _ hk) (Range.isFinite_iff.1 h)
      | _ => cases h
    | flags =>
      cases v with
      | flags m => exact .flags hk m
      | _ => cases h
    | advancements =>
      obtain rfl := List.mem_singleton.1 hk
      cases v with
      | advancements m => exact .advancements m
      | _ => cases h
    | nbt =>
      obtain rfl := List.mem_singleton.1 hk
      cases v with
      | nbt n => exact .nbt n
      | _ => cases h
    | anything => cases hk

theorem accepts_iff {key : ArgumentKey} {v : ArgumentValue} :
    key.Accepts v ↔ key.shape.admits v := ⟨Accepts.admits, accepts_of_admits⟩

theorem shape_eq_iff {key : ArgumentKey} {sh : Shape} (hsh : sh ≠ .anything) :
    key.shape = sh ↔ ∃ k ∈ sh.keys, key = .known k := by
  constructor
  · intro h
    cases key with
    | known k => exact ⟨k, Shape.mem_keys_iff.2 h, rfl⟩
    | other name unknown => exact absurd h.symm hsh
  · rintro ⟨k, hk, rfl⟩
    exact Shape.mem_keys_iff.1 hk

theorem Yields.eq {key : ArgumentKey} {v : ArgumentValue} {ss : List String}
    (h : key.Yields v ss) : ss = (v.texts key.shape).map key.assign := by
  cases h with
  | flags hk m =>
    rw [shape, Shape.mem_keys_iff.1 hk, ArgumentValue.texts, List.map_map]
    rfl
  | noScores => rfl
  | noAdvancements => rfl
  | single hflags hscores hadvancements =>
    have hflags : key.shape ≠ .flags := fun h => by
      obtain ⟨k, hk, hkey⟩ := (shape_eq_iff (by decide)).1 h
      exact hflags k hk hkey
    have hscores : key.shape ≠ .scores ∨ v ≠ .scores [] := by
      simpa [shape_eq_iff, Shape.keys] using hscores
    have hadvancements : key.shape ≠ .advancements ∨ v ≠ .advancements [] := by
      simpa [shape_eq_iff, Shape.keys] using hadvancements
    rw [ArgumentValue.texts_eq_display hflags hscores hadvancements]
    rfl

theorem Accepts.yields {key : ArgumentKey} {v : ArgumentValue} (h : key.Accepts v) :
    key.Yields v ((v.texts key.shape).map key.assign) := by
  by_cases hflags : key.shape = .flags
  · obtain ⟨k, hk, rfl⟩ := (shape_eq_iff (by decide)).1 hflags
    have hadmits := h.admits
    rw [hflags] at hadmits ⊢
    cases v with
    | flags m =>
      rw [ArgumentValue.texts, List.map_map]
      exact .flags hk m
    | _ => cases hadmits
  · have hother : ∀ k ∈ Shape.flags.keys, key ≠ .known k := fun k hk hkey =>
      hflags ((shape_eq_iff (by decide)).2 ⟨k, hk, hkey⟩)
    by_cases hscores : key = .known .scores ∧ v = .scores []
    · obtain ⟨rfl, rfl⟩ := hscores
      exact .noScores
    by_cases hadvancements : key = .known .advancements ∧ v = .advancements []
    · obtain ⟨rfl, rfl⟩ := hadvancements
      exact .noAdvancements
    have hsingle : key.Yields v [key.assign v.display] :=
      .single hother (Classical.not_and_iff_not_or_not.1 hscores)
        (Classical.not_and_iff_not_or_not.1 hadvancements)
    rwa [hsingle.eq] at hsingle

/-- A key has segments exactly for the values that it accepts by the table, and they are those of the
table. All of them begin with the key and an equals sign. Any other value is refused in the name of the
key. -/
theorem segments_by_table (key : ArgumentKey) (v : ArgumentValue) :
    ((∃ ss, key.segments v = .ok ss) ↔ key.Accepts v) ∧
    (∀ ss, key.segments v = .ok ss ↔ key.Accepts v ∧ key.Yields v ss) ∧
    (∀ ss, key.segments v = .ok ss → ∀ s ∈ ss, ∃ text, s = key.name ++ "=" ++ text) ∧
    ∀ e, key.segments v = .error e ↔ ¬ key.Accepts v ∧ e.key = key ∧
      e.message = "malformed argument `" ++ key.name ++ "`: expected " ++ key.shape.expected := by
  rw [segments_eq, accepts_iff]
  by_cases h : key.shape.admits v
  · have hyields := (accepts_of_admits h).yields
    rw [if_pos h]
    refine ⟨iff_of_true ⟨_, rfl⟩ h, ?_, ?_, ?_⟩
    · intro ss
      constructor
      · intro hss
        cases hss
        exact ⟨h, hyields⟩
      · rintro ⟨-, hss⟩
        rw [hss.eq]
    · intro ss hss s hs
      cases hss
      obtain ⟨text, -, rfl⟩ := List.mem_map.1 hs
      exact ⟨text, rfl⟩
    · exact fun e => iff_of_false (fun he => nomatch he) fun he => he.1 h
  · rw [if_neg h]
    refine ⟨iff_of_false (fun ⟨ss, hss⟩ => nomatch hss) h, ?_, ?_, ?_⟩
    · exact fun ss => iff_of_false (fun hss => nomatch hss) fun hss => h hss.1
    · exact fun ss hss => nomatch hss
    · intro e
      constructor
      · intro he
        cases he
        exact ⟨h, rfl, rfl⟩
      · rintro ⟨-, rfl, -⟩
        rfl

/-- A map of flags under a key of flags, and the same map under another key. -/
theorem segments_by_table_flags :
    let m := [("vip", true), ("new", false)]
    (known .tag).segments (.flags m) = .ok ["tag=vip", "tag=!new"] ∧
      (∀ s ∈ ["tag=vip", "tag=!new"], ∃ text, s = "tag=" ++ text) ∧
      (known .scores).segments (.flags m) = .error ⟨.known .scores⟩ := by
  intro m
  obtain ⟨-, htag, hbegin, -⟩ := segments_by_table (.known .tag) (.flags m)
  have hsegments := (htag _).2 ⟨.flags (by decide) m, .flags (by decide) m⟩
  obtain ⟨-, -, -, hscores⟩ := segments_by_table (.known .scores) (.flags m)
  have hrefused : ¬ (known .scores).Accepts (.flags m) := fun h => nomatch accepts_iff.1 h
  exact ⟨hsegments, hbegin _ hsegments, (hscores _).2 ⟨hrefused, rfl, rfl⟩⟩

end ArgumentKey

end TargetSelector
