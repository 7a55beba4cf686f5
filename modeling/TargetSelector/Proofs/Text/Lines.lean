import TargetSelector.Proofs.Numeric.Text

/-! Line breaks. Lines are read back exactly if they have no breaks of their own. -/
namespace TargetSelector

def lineBreaks (t : String) : Nat := t.toList.count '\n'

def totalBreaks : List String → Nat
  | [] => 0
  | t :: ts => lineBreaks t + totalBreaks ts

/-- The lines of a text that ends each line with a break. -/
def readLines (t : String) : List String := ((t.toList.splitOn '\n').map String.ofList).dropLast

theorem lineBreaks_eq_zero_iff {t : String} : lineBreaks t = 0 ↔ '\n' ∉ t.toList := List.count_eq_zero

@[simp] theorem lineBreaks_append (s t : String) :
    lineBreaks (s ++ t) = lineBreaks s + lineBreaks t := by
  rw [lineBreaks, String.toList_append, List.count_append]
  rfl

theorem lineBreaks_enclosed {opening closing : String} (hopening : lineBreaks opening = 0)
    (hclosing : lineBreaks closing = 0) (t : String) :
    lineBreaks (opening ++ t ++ closing) = lineBreaks t := by
  rw [lineBreaks_append, lineBreaks_append, hopening, hclosing, Nat.zero_add, Nat.add_zero]

theorem lineBreaks_separated {sep : String} (hsep : lineBreaks sep = 0) (s t : String) :
    lineBreaks (s ++ sep ++ t) = lineBreaks s + lineBreaks t := by
  rw [lineBreaks_append, lineBreaks_append, hsep, Nat.add_zero]

@[simp] theorem totalBreaks_cons (t : String) (ts : List String) :
    totalBreaks (t :: ts) = lineBreaks t + totalBreaks ts := rfl

@[simp] theorem totalBreaks_append (ts us : List String) :
    totalBreaks (ts ++ us) = totalBreaks ts + totalBreaks us := by
  induction ts with
  | nil => exact (Nat.zero_add _).symm
  | cons t ts ih => rw [List.cons_append, totalBreaks_cons, ih, totalBreaks_cons, Nat.add_assoc]

theorem totalBreaks_eq_zero_iff {ts : List String} :
    totalBreaks ts = 0 ↔ ∀ t ∈ ts, '\n' ∉ t.toList := by
  induction ts with
  | nil => exact iff_of_true rfl (List.forall_mem_nil _)
  | cons t ts ih =>
    rw [totalBreaks_cons, Nat.add_eq_zero_iff, lineBreaks_eq_zero_iff, ih, List.forall_mem_cons]

theorem totalBreaks_map {α : Type} {f : α → String} {g : α → List String} {xs : List α}
    (h : ∀ x ∈ xs, lineBreaks (f x) = totalBreaks (g x)) :
    totalBreaks (xs.map f) = totalBreaks (xs.flatMap g) := by
  induction xs with
  | nil => rfl
  | cons x xs ih =>
    obtain ⟨hx, hxs⟩ := List.forall_mem_cons.1 h
    rw [List.map_cons, totalBreaks_cons, hx, ih hxs, List.flatMap_cons, totalBreaks_append]

theorem lineBreaks_join (ts : List String) : lineBreaks (String.join ts) = totalBreaks ts := by
  induction ts with
  | nil => rfl
  | cons t ts ih => rw [String.join_cons, lineBreaks_append, ih, totalBreaks_cons]

theorem lineBreaks_intercalate (ts : List String) :
    lineBreaks (",".intercalate ts) = totalBreaks ts := by
  induction ts with
  | nil => rfl
  | cons t ts ih =>
    cases ts with
    | nil => exact (Nat.add_zero _).symm
    | cons u us =>
      rw [String.intercalate_cons_cons, lineBreaks_separated rfl, ih, totalBreaks_cons t]

theorem lineBreaks_ofList_flatMap {f : Char → List Char} (h : ∀ c, (f c).count '\n' = [c].count '\n')
    (t : String) : lineBreaks (String.ofList (t.toList.flatMap f)) = lineBreaks t := by
  rw [lineBreaks, String.toList_ofList, lineBreaks]
  induction t.toList with
  | nil => rfl
  | cons c cs ih => rw [List.flatMap_cons, List.count_append, ih, h, ← List.count_append]; rfl

theorem lineBreaks_of_isToken {t : String} (h : IsToken t) : lineBreaks t = 0 := by
  rw [lineBreaks_eq_zero_iff]
  intro hmem
  exact absurd (h.2 _ hmem) (by decide)

theorem lineBreaks_suffixed {t suffix : String} (h : IsToken t) (hsuffix : lineBreaks suffix = 0) :
    lineBreaks (t ++ suffix) = 0 := by
  rw [lineBreaks_append, lineBreaks_of_isToken h, hsuffix]

theorem length_splitOn (cs : List Char) : (cs.splitOn '\n').length = cs.count '\n' + 1 := by
  induction cs with
  | nil => rfl
  | cons c cs ih =>
    rw [List.splitOn_cons_eq_if_modifyHead, List.count_cons]
    split
    · rw [List.length_cons, ih]
    · rw [List.length_modifyHead, ih]

theorem length_readLines (t : String) : (readLines t).length = lineBreaks t := by
  rw [readLines, List.length_dropLast, List.length_map, length_splitOn, Nat.add_sub_cancel]
  rfl

theorem lineBreaks_join_lines (ts : List String) :
    lineBreaks (String.join (ts.map (· ++ "\n"))) = ts.length + totalBreaks ts := by
  have hline : ∀ t : String, lineBreaks (t ++ "\n") = lineBreaks t + 1 := fun t =>
    lineBreaks_append t "\n"
  rw [lineBreaks_join]
  induction ts with
  | nil => rfl
  | cons t ts ih =>
    rw [List.map_cons, totalBreaks_cons, ih, hline, totalBreaks_cons, List.length_cons]
    omega

theorem readLines_join_lines {ts : List String} (h : ∀ t ∈ ts, '\n' ∉ t.toList) :
    readLines (String.join (ts.map (· ++ "\n"))) = ts := by
  have hsplit : (String.join (ts.map (· ++ "\n"))).toList.splitOn '\n' = ts.map String.toList ++ [[]] := by
    induction ts with
    | nil => rfl
    | cons t ts ih =>
      obtain ⟨ht, hts⟩ := List.forall_mem_cons.1 h
      have hline : (String.join ((t :: ts).map (· ++ "\n"))).toList =
          t.toList ++ '\n' :: (String.join (ts.map (· ++ "\n"))).toList := by
        rw [List.map_cons, String.join_cons, String.toList_append, String.toList_append,
          List.append_assoc]
        rfl
      rw [hline, List.splitOn_append_cons_self_of_not_mem ht, ih hts]
      rfl
  rw [readLines, hsplit, List.map_append, List.map_map]
  exact List.dropLast_concat.trans (by simp [Function.comp_def])

theorem readLines_join_lines_iff {ts : List String} :
    readLines (String.join (ts.map (· ++ "\n"))) = ts ↔ ∀ t ∈ ts, '\n' ∉ t.toList := by
  refine ⟨fun h => ?_, readLines_join_lines⟩
  -- Lines with breaks of their own are read as more lines than there are.
  have hlength := congrArg List.length h
  rw [length_readLines, lineBreaks_join_lines] at hlength
  exact totalBreaks_eq_zero_iff.1 (Nat.add_eq_left.1 hlength)

end TargetSelector
