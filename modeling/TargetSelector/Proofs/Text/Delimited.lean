import TargetSelector.OrderedMap

/-!
Texts that can be told apart from what follows them. Items between commas can be recovered one by one if
each of them can.
-/
namespace TargetSelector

/-- Two texts that begin with runs of a class have the same run and the same rest, where no rest goes
on with the class. -/
theorem run_unique {p : Char → Prop} {a b r s : List Char} (ha : ∀ c ∈ a, p c) (hb : ∀ c ∈ b, p c)
    (hr : ∀ c ∈ r.head?, ¬ p c) (hs : ∀ c ∈ s.head?, ¬ p c) (h : a ++ r = b ++ s) :
    a = b ∧ r = s := by
  induction a generalizing b with
  | nil =>
    cases b with
    | nil => exact ⟨rfl, h⟩
    | cons d b =>
      rw [List.nil_append, List.cons_append] at h
      exact absurd (hb d List.mem_cons_self) (hr d (by rw [h]; rfl))
  | cons c a ih =>
    cases b with
    | nil =>
      rw [List.nil_append, List.cons_append] at h
      exact absurd (ha c List.mem_cons_self) (hs c (by rw [← h]; rfl))
    | cons d b =>
      obtain ⟨rfl, htail⟩ := List.cons_eq_cons.1 h
      obtain ⟨rfl, hrest⟩ := ih (fun x hx => ha x (List.mem_cons_of_mem c hx))
        (fun x hx => hb x (List.mem_cons_of_mem c hx)) htail
      exact ⟨rfl, hrest⟩

theorem toList_intercalate_cons (s : String) (ss : List String) :
    (",".intercalate (s :: ss)).toList = s.toList ++ ss.flatMap fun t => ',' :: t.toList := by
  induction ss generalizing s with
  | nil => simp
  | cons t ss ih =>
    rw [String.intercalate_cons_cons, String.toList_append, String.toList_append, ih,
      List.flatMap_cons, List.append_assoc]
    rfl

def isDelimiter (c : Char) : Bool := c = ',' || c = ']' || c = '\x7d'

/-- Nothing follows, or a delimiter does. -/
def Ends (r : List Char) : Prop := ∀ c ∈ r.head?, isDelimiter c

theorem ends_nil : Ends [] := fun _ h => nomatch h

theorem ends_cons {c : Char} (h : isDelimiter c) (r : List Char) : Ends (c :: r) := by
  intro d hd
  cases hd
  exact h

/-- A text that does not begin with a delimiter begins with another character than a given one. -/
theorem exists_head_of_not_ends {close : Char} (hclose : isDelimiter close) {t : List Char}
    (h : ¬ Ends t) : ∃ c ∈ t.head?, c ≠ close := by
  cases t with
  | nil => exact absurd ends_nil h
  | cons c t =>
    refine ⟨c, rfl, ?_⟩
    rintro rfl
    exact h (ends_cons hclose t)

/-- The text of `x` is no other one's, whatever delimiters follow the two. -/
def Decodes {α : Type} (f : α → String) (x : α) : Prop :=
  ∀ y r s, Ends r → Ends s → (f x).toList ++ r = (f y).toList ++ s → x = y ∧ r = s

theorem Decodes.eq {α : Type} {f : α → String} {x y : α} (hx : Decodes f x) (h : f x = f y) : x = y := by
  have hlist : (f x).toList ++ [] = (f y).toList ++ [] := by rw [h]
  exact (hx y [] [] ends_nil ends_nil hlist).1

/-- No items are not taken for one, as the text of an item does not begin with the closing bracket. -/
theorem no_items_unique {α : Type} {f : α → String} {close : Char} {y : α} {ys : List α}
    (hne : ∃ c ∈ (f y).toList.head?, c ≠ close) {r s : List Char} :
    close :: r ≠ (",".intercalate ((y :: ys).map f)).toList ++ close :: s := by
  obtain ⟨c, hc, hne⟩ := hne
  intro h
  rw [List.map_cons, toList_intercalate_cons, List.append_assoc] at h
  have hhead := congrArg List.head? h
  rw [List.head?_append, Option.mem_def.1 hc] at hhead
  exact hne (Option.some.inj hhead).symm

section Items

variable {α : Type} {f : α → String} {close : Char} (hclose : isDelimiter close) (hcomma : close ≠ ',')
include hclose

theorem ends_tail_items (xs : List α) (r : List Char) :
    Ends ((xs.flatMap fun x => ',' :: (f x).toList) ++ close :: r) := by
  cases xs with
  | nil => exact ends_cons hclose r
  | cons x xs => exact ends_cons rfl _

include hcomma

theorem tail_items_unique {xs ys : List α} (hxs : ∀ x ∈ xs, Decodes f x) {r s : List Char}
    (h : (xs.flatMap fun x => ',' :: (f x).toList) ++ close :: r =
      (ys.flatMap fun y => ',' :: (f y).toList) ++ close :: s) : xs = ys ∧ r = s := by
  induction xs generalizing ys with
  | nil =>
    cases ys with
    | nil => exact ⟨rfl, (List.cons_eq_cons.1 h).2⟩
    | cons y ys => exact absurd (List.cons_eq_cons.1 h).1 hcomma
  | cons x xs ih =>
    cases ys with
    | nil => exact absurd (List.cons_eq_cons.1 h).1.symm hcomma
    | cons y ys =>
      rw [List.flatMap_cons, List.flatMap_cons, List.append_assoc, List.append_assoc] at h
      have hx : Decodes f x := hxs x List.mem_cons_self
      obtain ⟨rfl, hrest⟩ := hx y _ _ (ends_tail_items hclose xs r) (ends_tail_items hclose ys s)
        (List.cons_eq_cons.1 h).2
      obtain ⟨rfl, hrs⟩ := ih (fun z hz => hxs z (List.mem_cons_of_mem x hz)) hrest
      exact ⟨rfl, hrs⟩

theorem items_unique {xs ys : List α} (hxs : ∀ x ∈ xs, Decodes f x)
    (hne : ∀ x, ∃ c ∈ (f x).toList.head?, c ≠ close) {r s : List Char}
    (h : (",".intercalate (xs.map f)).toList ++ close :: r =
      (",".intercalate (ys.map f)).toList ++ close :: s) : xs = ys ∧ r = s := by
  cases xs with
  | nil =>
    cases ys with
    | nil => exact ⟨rfl, (List.cons_eq_cons.1 h).2⟩
    | cons y ys => exact absurd h (no_items_unique (hne y))
  | cons x xs =>
    cases ys with
    | nil => exact absurd h.symm (no_items_unique (hne x))
    | cons y ys =>
      rw [List.map_cons, List.map_cons, toList_intercalate_cons, toList_intercalate_cons,
        List.flatMap_map, List.flatMap_map, List.append_assoc, List.append_assoc] at h
      have hx : Decodes f x := hxs x List.mem_cons_self
      obtain ⟨rfl, hrest⟩ := hx y _ _ (ends_tail_items hclose xs r) (ends_tail_items hclose ys s) h
      obtain ⟨rfl, hrs⟩ := tail_items_unique hclose hcomma
        (fun z hz => hxs z (List.mem_cons_of_mem x hz)) hrest
      exact ⟨rfl, hrs⟩

end Items

end TargetSelector
