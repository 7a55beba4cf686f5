import Mathlib.Data.List.Nodup
import Mathlib.Data.List.TakeWhile
import TargetSelector.EntityType
import TargetSelector.Proofs.Target
import TargetSelector.Proofs.Text.Delimited

/-!
Reading of identifiers. The names of entity types are all different and have no colon, so that the
namespace stands before the first one.
-/
namespace TargetSelector

namespace EntityType

def IsWritten (e : EntityType) (s : String) : Prop := s = e.name ∨ s = e.text

theorem text_eq (e : EntityType) : e.text = "minecraft" ++ ":" ++ e.name := rfl

theorem mem_all (e : EntityType) : e ∈ all := by
  cases e <;> decide

/-- The names are listed in alphabetical order, and none has a colon. Both are read off the characters
of all names at once. -/
theorem sorted_names : (all.map fun e => e.name.toList).IsChain (· < ·) ∧
    all.all fun e => e.name.toList.all (· ≠ ':') := by
  decide +kernel

theorem colon_not_mem_name (e : EntityType) : ':' ∉ e.name.toList := by
  intro hcolon
  have hall := List.all_eq_true.1 (List.all_eq_true.1 sorted_names.2 e (mem_all e)) _ hcolon
  simp at hall

theorem name_injective : Function.Injective name := by
  intro e f h
  have hne : ∀ {a b : List Char}, a < b → a ≠ b := fun hlt heq => List.lt_irrefl _ (heq ▸ hlt)
  have hnodup : (all.map fun e => e.name.toList).Nodup := sorted_names.1.pairwise.imp hne
  exact List.inj_on_of_nodup_map hnodup (mem_all e) (mem_all f) (congrArg String.toList h)

private theorem find?_name_eq_some {n : String} {e : EntityType} :
    (all.find? fun x => x.name = n) = some e ↔ n = e.name := by
  constructor
  · intro h
    have hname := List.find?_some h
    exact (of_decide_eq_true hname).symm
  · rintro rfl
    cases h : all.find? fun x => x.name = e.name with
    | none =>
      have hne := List.find?_eq_none.1 h e (mem_all e)
      simp at hne
    | some x =>
      have hname := List.find?_some h
      rw [name_injective (of_decide_eq_true hname)]

theorem toList_append_colon (ns rest : String) :
    (ns ++ ":" ++ rest).toList = ns.toList ++ ':' :: rest.toList := by
  simp [String.toList_append]

theorem colon_mem_append (ns rest : String) : ':' ∈ (ns ++ ":" ++ rest).toList := by
  simp

theorem colon_not_mem_namespace : ':' ∉ "minecraft".toList := by
  simp

private theorem exists_append_of_colon_mem {s : String} (h : ':' ∈ s.toList) :
    ∃ ns rest, ':' ∉ ns.toList ∧ s = ns ++ ":" ++ rest := by
  obtain ⟨before, after, happend, hbefore⟩ := List.eq_append_cons_of_mem h
  refine ⟨String.ofList before, String.ofList after, by rwa [String.toList_ofList], ?_⟩
  rw [← String.toList_inj, toList_append_colon, String.toList_ofList, String.toList_ofList, happend]

theorem append_colon_inj {ns ns' rest rest' : String} (hns : ':' ∉ ns'.toList)
    (hrest : ':' ∉ rest'.toList) :
    ns ++ ":" ++ rest = ns' ++ ":" ++ rest' ↔ ns = ns' ∧ rest = rest' := by
  rw [← String.toList_inj, toList_append_colon, toList_append_colon, eq_comm,
    List.append_cons_inj_of_notMem hns hrest, String.toList_inj, String.toList_inj]
  simp [eq_comm]

theorem forall_ne_colon {t : String} (h : ':' ∉ t.toList) :
    ∀ c ∈ t.toList, decide (c ≠ ':') = true :=
  fun c hc => decide_eq_true fun hcolon : c = ':' => h (hcolon ▸ hc)

private theorem bareName?_of_not_mem {s : String} (h : ':' ∉ s.toList) : bareName? s = some s := by
  have hdrop : s.toList.dropWhile (· ≠ ':') = [] := List.dropWhile_eq_nil_iff.2 (forall_ne_colon h)
  rw [bareName?, hdrop]

/-- The namespace ends at the first colon. -/
theorem bareName?_append {ns : String} (h : ':' ∉ ns.toList) (rest : String) :
    bareName? (ns ++ ":" ++ rest) = if ns = "minecraft" then some rest else none := by
  have htake : (ns.toList ++ ':' :: rest.toList).takeWhile (· ≠ ':') = ns.toList := by
    rw [List.takeWhile_append_of_pos (forall_ne_colon h), List.takeWhile_cons_of_neg (by simp),
      List.append_nil]
  have hdrop : (ns.toList ++ ':' :: rest.toList).dropWhile (· ≠ ':') = ':' :: rest.toList := by
    rw [List.dropWhile_append_of_pos (forall_ne_colon h), List.dropWhile_cons_of_neg (by simp)]
  unfold bareName?
  dsimp only
  rw [toList_append_colon, htake, hdrop]
  simp only [String.toList_inj, String.ofList_toList]

private theorem parse_eq_ok_iff_bareName? {s : String} {e : EntityType} :
    parse s = .ok e ↔ bareName? s = some e.name := by
  have hfound : ((bareName? s).bind fun n => all.find? fun x => x.name = n) = some e ↔
      bareName? s = some e.name := by
    simp only [Option.bind_eq_some_iff, find?_name_eq_some]
    exact ⟨fun ⟨n, hn, hname⟩ => hname ▸ hn, fun h => ⟨_, h, rfl⟩⟩
  rw [← hfound, parse]
  cases (bareName? s).bind fun n => all.find? fun x => x.name = n with
  | none => simp
  | some f => simp

theorem parse_eq_ok {s : String} {e : EntityType} : parse s = .ok e ↔ e.IsWritten s := by
  rw [parse_eq_ok_iff_bareName?, IsWritten, text_eq]
  by_cases hs : ':' ∈ s.toList
  · have hne : s ≠ e.name := fun h => e.colon_not_mem_name (h ▸ hs)
    obtain ⟨ns, rest, hns, rfl⟩ := exists_append_of_colon_mem hs
    rw [bareName?_append hns, append_colon_inj colon_not_mem_namespace e.colon_not_mem_name,
      or_iff_right hne]
    split
    · next h => simp [h]
    · next h => simp [h]
  · have hne : s ≠ "minecraft" ++ ":" ++ e.name := fun h => hs (h ▸ colon_mem_append _ _)
    rw [bareName?_of_not_mem hs, Option.some.injEq, or_iff_left hne]

/-- What stands before a colon must be the namespace, once. -/
theorem parse_append_eq_ok {ns rest : String} {e : EntityType} :
    parse (ns ++ ":" ++ rest) = .ok e ↔ ns = "minecraft" ∧ rest = e.name := by
  have hne : ns ++ ":" ++ rest ≠ e.name := fun h => e.colon_not_mem_name (h ▸ colon_mem_append _ _)
  rw [parse_eq_ok, IsWritten, text_eq, or_iff_right hne,
    append_colon_inj colon_not_mem_namespace e.colon_not_mem_name]

theorem parse_eq_error {s : String} {u : UnknownName} :
    parse s = .error u ↔ u = ⟨.entityType, s⟩ ∧ ∀ e : EntityType, ¬ e.IsWritten s := by
  have hwhole : ∀ u, parse s = .error u → u = ⟨.entityType, s⟩ := by
    intro u hu
    unfold parse at hu
    split at hu
    · cases hu
    · exact (Except.error.inj hu).symm
  simp only [← parse_eq_ok]
  exact eq_error_iff_of_unique hwhole

end EntityType

/-- Entity types and targets are read from exactly their written forms, and a refusal holds the whole
text that was given. A namespace other than the one of the names, a repeated one and an empty one are
refused, and so is an empty name. -/
theorem identifiers_parse :
    (∀ (s : String) (e : EntityType),
      EntityType.parse s = .ok e ↔ s = e.name ∨ s = "minecraft:" ++ e.name) ∧
    (∀ (s : String) (u : UnknownName), EntityType.parse s = .error u ↔
      u = ⟨.entityType, s⟩ ∧ ∀ e : EntityType, ¬ (s = e.name ∨ s = "minecraft:" ++ e.name)) ∧
    (∀ (s : String) (e f : EntityType), s = e.name ∨ s = "minecraft:" ++ e.name →
      s = f.name ∨ s = "minecraft:" ++ f.name → e = f) ∧
    (∀ (ns rest : String), (∃ e, EntityType.parse (ns ++ ":" ++ rest) = .ok e) ↔
      ns = "minecraft" ∧ ∃ e : EntityType, rest = e.name) ∧
    EntityType.parse "" = .error ⟨.entityType, ""⟩ ∧
    EntityType.parse "minecraft:" = .error ⟨.entityType, "minecraft:"⟩ ∧
    (∀ e : EntityType, EntityType.parse e.text = .ok e) ∧
    (∀ (s : String) (t : Target),
      Target.parse s = .ok t ↔ s = String.singleton t.tag ∨ s = "@" ++ String.singleton t.tag) ∧
    ∀ (s : String) (u : UnknownName), Target.parse s = .error u ↔
      u = ⟨.target, s⟩ ∧ ∀ t : Target,
        ¬ (s = String.singleton t.tag ∨ s = "@" ++ String.singleton t.tag) := by
  have hone : ∀ (s : String) (e f : EntityType), e.IsWritten s → f.IsWritten s → e = f := by
    intro s e f he hf
    exact Except.ok.inj ((EntityType.parse_eq_ok.2 he).symm.trans (EntityType.parse_eq_ok.2 hf))
  have hnamespace : ∀ ns rest : String, (∃ e, EntityType.parse (ns ++ ":" ++ rest) = .ok e) ↔
      ns = "minecraft" ∧ ∃ e : EntityType, rest = e.name := by
    intro ns rest
    simp only [EntityType.parse_append_eq_ok, exists_and_left]
  exact ⟨fun s e => EntityType.parse_eq_ok, fun s u => EntityType.parse_eq_error, hone, hnamespace,
    rfl, rfl, fun e => EntityType.parse_eq_ok.2 (Or.inr rfl), fun s t => Target.parse_eq_ok,
    fun s u => Target.parse_eq_error⟩

/-- A namespaced identifier, and the same one with its namespace repeated. -/
theorem identifiers_parse_namespaced :
    let s := "minecraft:zombie"
    let repeated := "minecraft" ++ ":" ++ s
    EntityType.parse s = .ok .zombie ∧ (∀ e, EntityType.parse s = .ok e → e = .zombie) ∧
      ∀ e, EntityType.parse repeated ≠ .ok e := by
  obtain ⟨hok, -, hone, hnamespace, -⟩ := identifiers_parse
  have hzombie : EntityType.parse "minecraft:zombie" = .ok .zombie := (hok _ _).2 (Or.inr rfl)
  refine ⟨hzombie, fun e he => hone _ e .zombie ((hok _ _).1 he) (Or.inr rfl), fun e he => ?_⟩
  have hcolon : ':' ∈ "minecraft:zombie".toList := by simp
  obtain ⟨-, f, hf⟩ := (hnamespace _ _).1 ⟨e, he⟩
  exact f.colon_not_mem_name (hf ▸ hcolon)

end TargetSelector
