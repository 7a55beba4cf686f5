import TargetSelector.Nbt.Snbt
import TargetSelector.Proofs.Numeric.Text

/-!
Stringified NBT is unambiguous. The kind of a tree can be read off the front of its text, and the text
of a tree of known kind is that of no other tree, whatever delimiters follow.
-/
namespace TargetSelector

namespace Nbt

private theorem escapedChar_unique {c d : Char} {r s : List Char}
    (h : escapedChar c ++ r = escapedChar d ++ s) :
    c = d ∧ r = s := by
  unfold escapedChar at h
  split at h
  · split at h
    · simpa using h
    · next hd => exact absurd (List.cons_eq_cons.1 h).1 fun heq => hd (by simp [← heq])
  · split at h
    · next hc _ => exact absurd (List.cons_eq_cons.1 h).1 fun heq => hc (by simp [heq])
    · simpa using h

theorem quote_ne_escapedChar (c : Char) (r s : List Char) : '"' :: r ≠ escapedChar c ++ s := by
  unfold escapedChar
  split
  · simp
  · next h =>
    intro heq
    exact h (by simp [(List.cons_eq_cons.1 heq).1.symm])

private theorem escaped_unique {cs ds r s : List Char}
    (h : cs.flatMap escapedChar ++ '"' :: r = ds.flatMap escapedChar ++ '"' :: s) :
    cs = ds ∧ r = s := by
  induction cs generalizing ds with
  | nil =>
    cases ds with
    | nil => exact ⟨rfl, (List.cons_eq_cons.1 h).2⟩
    | cons d ds =>
      rw [List.flatMap_cons, List.append_assoc] at h
      exact absurd h (quote_ne_escapedChar d _ _)
  | cons c cs ih =>
    cases ds with
    | nil =>
      rw [List.flatMap_cons, List.append_assoc] at h
      exact absurd h.symm (quote_ne_escapedChar c _ _)
    | cons d ds =>
      rw [List.flatMap_cons, List.flatMap_cons, List.append_assoc, List.append_assoc] at h
      obtain ⟨rfl, hrest⟩ := escapedChar_unique h
      obtain ⟨rfl, hrs⟩ := ih hrest
      exact ⟨rfl, hrs⟩

/-- Quoted text ends at its own closing quote, whatever follows. -/
theorem quotedText_unique {s t : String} {r r' : List Char}
    (h : (quotedText s).toList ++ r = (quotedText t).toList ++ r') : s = t ∧ r = r' := by
  rw [toList_quotedText, toList_quotedText, List.cons_append, List.cons_append, List.append_assoc,
    List.append_assoc] at h
  obtain ⟨hlist, hrest⟩ := escaped_unique (List.cons_eq_cons.1 h).2
  exact ⟨String.toList_inj.1 hlist, hrest⟩

/-- A bare name is told from a quoted one by its first character. -/
theorem quotedText_ne_bare {s name : String} (h : isBareName name) (r r' : List Char) :
    (quotedText s).toList ++ r ≠ name.toList ++ r' := by
  intro heq
  simp only [isBareName, Bool.and_eq_true, Bool.not_eq_true', List.isEmpty_eq_false_iff] at h
  obtain ⟨c, cs, hcs⟩ := List.exists_cons_of_ne_nil h.1
  rw [toList_quotedText, hcs, List.cons_append, List.cons_append] at heq
  obtain rfl := (List.cons_eq_cons.1 heq).1
  have hquote : isBareChar '"' := List.all_eq_true.1 h.2 '"' (hcs ▸ List.mem_cons_self)
  revert hquote
  decide

theorem nameText_unique {name name' : String} {r s : List Char}
    (h : (nameText name).toList ++ ':' :: r = (nameText name').toList ++ ':' :: s) :
    name = name' ∧ r = s := by
  unfold nameText at h
  by_cases hbare : isBareName name <;> by_cases hbare' : isBareName name'
  · rw [if_pos hbare, if_pos hbare'] at h
    have hchars : ∀ {n : String}, isBareName n → ∀ c ∈ n.toList, isBareChar c := fun hn =>
      List.all_eq_true.1 (Bool.and_eq_true_iff.1 hn).2
    have hcolon : ∀ (q : List Char), ∀ c ∈ (':' :: q).head?, ¬ isBareChar c := fun q c hc => by
      cases hc
      decide
    obtain ⟨hlist, hrest⟩ := run_unique (hchars hbare) (hchars hbare') (hcolon r) (hcolon s) h
    exact ⟨String.toList_inj.1 hlist, (List.cons_eq_cons.1 hrest).2⟩
  · rw [if_pos hbare, if_neg hbare'] at h
    exact absurd h.symm (quotedText_ne_bare hbare _ _)
  · rw [if_neg hbare, if_pos hbare'] at h
    exact absurd h (quotedText_ne_bare hbare' _ _)
  · rw [if_neg hbare, if_neg hbare'] at h
    obtain ⟨hname, hrest⟩ := quotedText_unique h
    exact ⟨hname, (List.cons_eq_cons.1 hrest).2⟩

/-! ### The kind of a tree -/

inductive Kind where
  | byte | short | int | long | float | double | string | list | compound
  | byteArray | intArray | longArray
deriving DecidableEq

def kind : Nbt → Kind
  | .byte _ => .byte
  | .short _ => .short
  | .int _ => .int
  | .long _ => .long
  | .float _ => .float
  | .double _ => .double
  | .string _ => .string
  | .list _ => .list
  | .compound _ => .compound
  | .byteArray _ => .byteArray
  | .intArray _ => .intArray
  | .longArray _ => .longArray

def Kind.ofToken (token : List Char) : Kind :=
  match token.getLast? with
  | some 'b' => .byte
  | some 's' => .short
  | some 'L' => .long
  | some 'f' => .float
  | some 'd' => .double
  | _ => .int

def Kind.ofBracket : List Char → Kind
  | 'B' :: _ => .byteArray
  | 'I' :: _ => .intArray
  | 'L' :: _ => .longArray
  | _ => .list

/-- The kind of the tree that stands at the front of a text. -/
def Kind.ofChars : List Char → Kind
  | '"' :: _ => .string
  | '\x7b' :: _ => .compound
  | '[' :: cs => ofBracket cs
  | cs => ofToken (cs.takeWhile isNumberChar)

/-- The characters that the text of a tree begins with. -/
def isLead (c : Char) : Bool :=
  c.isDigit || c = '-' || c = 'i' || c = 'N' || c = '"' || c = '[' || c = '\x7b'

theorem isLead_repr (n : Int) : ∃ c cs, n.repr.toList = c :: cs ∧ isLead c := by
  obtain ⟨c, cs, hcs, -⟩ := (isToken_repr n).exists_cons
  refine ⟨c, cs, hcs, ?_⟩
  rcases isDigit_or_of_mem_repr (hcs ▸ List.mem_cons_self : c ∈ n.repr.toList) with hc | rfl
  · simp [isLead, hc]
  · rfl

theorem isLead_binary {F : FloatFormat} (x : Binary F) : ∃ c cs, x.text.toList = c :: cs ∧ isLead c := by
  obtain ⟨c, cs, hcs, hc⟩ := x.exists_lead
  rw [x.text_eq, String.toList_append, hcs]
  cases x.isNegative with
  | true => exact ⟨'-', c :: cs, rfl, rfl⟩
  | false =>
    refine ⟨c, cs, rfl, ?_⟩
    rcases hc with hc | rfl | rfl
    · simp [isLead, hc]
    · rfl
    · rfl

theorem exists_lead (n : Nbt) : ∃ c cs, n.text.toList = c :: cs ∧ isLead c := by
  have hsuffix : ∀ {t : String} (u : String), (∃ c cs, t.toList = c :: cs ∧ isLead c) →
      ∃ c cs, (t ++ u).toList = c :: cs ∧ isLead c := by
    rintro t u ⟨c, cs, hcs, hc⟩
    exact ⟨c, cs ++ u.toList, by rw [String.toList_append, hcs, List.cons_append], hc⟩
  cases n with
  | byte v => exact hsuffix _ (isLead_repr _)
  | short v => exact hsuffix _ (isLead_repr _)
  | int v => exact isLead_repr _
  | long v => exact hsuffix _ (isLead_repr _)
  | float v => exact hsuffix _ (isLead_binary _)
  | double v => exact hsuffix _ (isLead_binary _)
  | string s => exact ⟨'"', _, toList_quotedText s, rfl⟩
  | list items => exact ⟨'[', _, toList_text_list items, rfl⟩
  | compound fields => exact ⟨'\x7b', _, toList_text_compound fields, rfl⟩
  | byteArray items => exact ⟨'[', _, toList_arrayText _ _ _, rfl⟩
  | intArray items => exact ⟨'[', _, toList_arrayText _ _ _, rfl⟩
  | longArray items => exact ⟨'[', _, toList_arrayText _ _ _, rfl⟩

private theorem not_ends_text (n : Nbt) : ¬ Ends n.text.toList := by
  obtain ⟨c, cs, hcs, hc⟩ := n.exists_lead
  intro hends
  have hdelim : isDelimiter c := hends c (by rw [hcs]; rfl)
  simp only [isDelimiter, Bool.or_eq_true, decide_eq_true_eq] at hdelim
  rcases hdelim with (rfl | rfl) | rfl <;> revert hc <;> decide

private theorem ofBracket_of_lead {c : Char} (hc : isLead c) (cs : List Char) :
    Kind.ofBracket (c :: cs) = .list := by
  have hB : c ≠ 'B' := by
    rintro rfl
    revert hc
    decide
  have hI : c ≠ 'I' := by
    rintro rfl
    revert hc
    decide
  have hL : c ≠ 'L' := by
    rintro rfl
    revert hc
    decide
  simp [Kind.ofBracket, hB, hI, hL]

theorem ofChars_of_isToken {t : String} (ht : IsToken t) {r : List Char} (hr : Ends r) :
    Kind.ofChars (t.toList ++ r) = Kind.ofToken t.toList := by
  have hrest : r.takeWhile isNumberChar = [] := by
    cases r with
    | nil => rfl
    | cons d r =>
      have hd : ¬ isNumberChar d := fun hnum => not_isDelimiter_of_isNumberChar hnum (hr d rfl)
      rw [List.takeWhile_cons, if_neg hd]
  have htoken : (t.toList ++ r).takeWhile isNumberChar = t.toList := by
    rw [List.takeWhile_append_of_pos ht.2, hrest, List.append_nil]
  obtain ⟨c, cs, hcs, hc⟩ := ht.exists_cons
  rw [hcs] at htoken ⊢
  unfold Kind.ofChars
  split
  · next heq =>
    cases heq
    cases hc
  · next heq =>
    cases heq
    cases hc
  · next heq =>
    cases heq
    cases hc
  · rw [htoken]

private theorem ofToken_repr (n : Int) : Kind.ofToken n.repr.toList = .int := by
  have hlast : ∀ c, n.repr.toList.getLast? = some c → c.isDigit ∨ c = '-' := fun c hc =>
    isDigit_or_of_mem_repr (List.mem_of_getLast? hc)
  unfold Kind.ofToken
  split
  case h_6 => rfl
  all_goals
    next hc =>
    exact absurd (hlast _ hc) (by decide)

theorem ofChars_append (c : Char) {t u : String} (ht : IsToken t) (hu : u.toList = [c])
    (hc : isNumberChar c) {r : List Char} (hr : Ends r) :
    Kind.ofChars ((t ++ u).toList ++ r) = Kind.ofToken [c] := by
  have htoken : IsToken (t ++ u) := ht.append (by simpa [hu] using hc)
  rw [ofChars_of_isToken htoken hr, String.toList_append, hu]
  simp [Kind.ofToken]

/-- The kind of a tree can be read off the front of its text, whatever delimiter follows. -/
theorem ofChars_text (n : Nbt) {r : List Char} (hr : Ends r) :
    Kind.ofChars (n.text.toList ++ r) = n.kind := by
  cases n with
  | byte v =>
    rw [text]
    exact ofChars_append 'b' (isToken_repr _) (by decide) rfl hr
  | short v =>
    rw [text]
    exact ofChars_append 's' (isToken_repr _) (by decide) rfl hr
  | int v =>
    rw [text, ofChars_of_isToken (isToken_repr _) hr]
    exact ofToken_repr _
  | long v =>
    rw [text]
    exact ofChars_append 'L' (isToken_repr _) (by decide) rfl hr
  | float v =>
    rw [text]
    exact ofChars_append 'f' v.isToken_text (by decide) rfl hr
  | double v =>
    rw [text]
    exact ofChars_append 'd' v.isToken_text (by decide) rfl hr
  | string s =>
    rw [text, toList_quotedText]
    rfl
  | list items =>
    rw [toList_text_list]
    cases items with
    | nil => rfl
    | cons n items =>
      obtain ⟨c, cs, hcs, hc⟩ := n.exists_lead
      rw [List.map_cons, toList_intercalate_cons, hcs]
      exact ofBracket_of_lead hc _
  | compound fields =>
    rw [toList_text_compound]
    rfl
  | byteArray items =>
    rw [text, toList_arrayText]
    rfl
  | intArray items =>
    rw [text, toList_arrayText]
    rfl
  | longArray items =>
    rw [text, toList_arrayText]
    rfl

private theorem kind_eq {a b : Nbt} {r s : List Char} (hr : Ends r) (hs : Ends s)
    (h : a.text.toList ++ r = b.text.toList ++ s) : a.kind = b.kind := by
  rw [← a.ofChars_text hr, h, b.ofChars_text hs]

section Suffix

variable {suffix : String} (hsuffix : suffix.toList.all isNumberChar) {r s : List Char}
include hsuffix

theorem suffixed_unique {t u : String} (ht : IsToken t) (hu : IsToken u) (hr : Ends r) (hs : Ends s)
    (h : (t ++ suffix).toList ++ r = (u ++ suffix).toList ++ s) : t = u ∧ r = s := by
  have hchars : ∀ c ∈ suffix.toList, isNumberChar c := List.all_eq_true.1 hsuffix
  obtain ⟨htoken, hrest⟩ := token_unique (ht.append hchars) (hu.append hchars) hr hs h
  exact ⟨(String.append_left_inj suffix).1 htoken, hrest⟩

private theorem decodes_repr (i : Int) : Decodes (fun i : Int => i.repr ++ suffix) i := by
  intro j r s hr hs h
  obtain ⟨hrepr, hrest⟩ := suffixed_unique hsuffix (isToken_repr i) (isToken_repr j) hr hs h
  exact ⟨repr_unique hrepr, hrest⟩

private theorem arrayText_unique {letter : String} {xs ys : List Int}
    (h : (arrayText letter suffix xs).toList ++ r = (arrayText letter suffix ys).toList ++ s) :
    xs = ys ∧ r = s := by
  have hclose : isDelimiter ']' := rfl
  have hitem : ∀ i : Int, ∃ c ∈ (i.repr ++ suffix).toList.head?, c ≠ ']' := fun i =>
    exists_head_of_not_ends hclose ((isToken_repr i).append (List.all_eq_true.1 hsuffix)).not_ends
  rw [toList_arrayText, toList_arrayText] at h
  simp only [List.cons_append, List.append_assoc, List.cons.injEq, true_and,
    List.append_cancel_left_eq] at h
  exact items_unique hclose (by decide) (fun i _ => decodes_repr hsuffix i) hitem h

end Suffix

theorem decodes_field {f : String × Nbt} (hf : Decodes text f.2) :
    Decodes (fun f : String × Nbt => nameText f.1 ++ ":" ++ f.2.text) f := by
  intro g r s hr hs h
  simp only [String.toList_append, List.append_assoc] at h
  obtain ⟨hname, hvalue⟩ := nameText_unique h
  obtain ⟨hvalue, hrest⟩ := hf g.2 r s hr hs hvalue
  exact ⟨Prod.ext hname hvalue, hrest⟩

private theorem not_ends_field (f : String × Nbt) :
    ¬ Ends (nameText f.1 ++ ":" ++ f.2.text).toList := by
  unfold nameText
  split
  · next h =>
    simp only [isBareName, Bool.and_eq_true, Bool.not_eq_true', List.isEmpty_eq_false_iff] at h
    obtain ⟨c, cs, hcs⟩ := List.exists_cons_of_ne_nil h.1
    have hbare : isBareChar c := List.all_eq_true.1 h.2 c (hcs ▸ List.mem_cons_self)
    intro hends
    rw [String.append_assoc, String.toList_append, hcs] at hends
    have hdelim : isDelimiter c := hends c rfl
    simp only [isDelimiter, Bool.or_eq_true, decide_eq_true_eq] at hdelim
    rcases hdelim with (rfl | rfl) | rfl <;> revert hbare <;> decide
  · intro hends
    rw [String.append_assoc, String.toList_append, toList_quotedText] at hends
    have hdelim : isDelimiter '"' := hends '"' rfl
    revert hdelim
    decide

theorem decodes_of_kind {a : Nbt} (ha : ∀ b : Nbt, a.kind = b.kind → ∀ r s, Ends r → Ends s →
    a.text.toList ++ r = b.text.toList ++ s → a = b ∧ r = s) : Decodes text a :=
  fun b r s hr hs h => ha b (kind_eq hr hs h) r s hr hs h

section Leaf

variable {α : Type} {leaf : α → Nbt} {a : α} (suffix : String)
  (hsuffix : suffix.toList.all isNumberChar)
  (hleaf : ∀ b : Nbt, (leaf a).kind = b.kind → ∃ c, b = leaf c)
include hsuffix hleaf

/-- A number is told from the others of its kind by the text before the suffix. -/
theorem decodes_number {token : α → String} (htext : ∀ c, (leaf c).text = token c ++ suffix)
    (htoken : ∀ c, IsToken (token c)) (hinj : ∀ {c}, token a = token c → a = c) :
    Decodes text (leaf a) := by
  refine decodes_of_kind fun b hkind r s hr hs h => ?_
  obtain ⟨c, rfl⟩ := hleaf b hkind
  rw [htext, htext] at h
  obtain ⟨heq, hrest⟩ := suffixed_unique hsuffix (htoken a) (htoken c) hr hs h
  exact ⟨congrArg leaf (hinj heq), hrest⟩

/-- An array is told from the others of its kind by its numbers. -/
theorem decodes_array {letter : String} {values : α → List Int}
    (htext : ∀ c, (leaf c).text = arrayText letter suffix (values c))
    (hinj : ∀ {c}, values a = values c → a = c) : Decodes text (leaf a) := by
  refine decodes_of_kind fun b hkind r s hr hs h => ?_
  obtain ⟨c, rfl⟩ := hleaf b hkind
  rw [htext, htext] at h
  obtain ⟨heq, hrest⟩ := arrayText_unique hsuffix h
  exact ⟨congrArg leaf (hinj heq), hrest⟩

end Leaf

/-- The text of a tree is that of no other tree, whatever delimiters follow the two. -/
theorem decodes (n : Nbt) : Decodes text n := by
  induction n with
  | byte v =>
    exact decodes_number "b" (by decide) (fun | .byte w, _ => ⟨w, rfl⟩)
      (fun _ => rfl) (fun _ => isToken_repr _) fun h => Int8.toInt_inj.1 (repr_unique h)
  | short v =>
    exact decodes_number "s" (by decide) (fun | .short w, _ => ⟨w, rfl⟩)
      (fun _ => rfl) (fun _ => isToken_repr _) fun h => Int16.toInt_inj.1 (repr_unique h)
  | int v =>
    exact decodes_number "" (by decide) (fun | .int w, _ => ⟨w, rfl⟩)
      (fun _ => String.append_empty.symm) (fun _ => isToken_repr _) fun h => Int32.toInt_inj.1 (repr_unique h)
  | long v =>
    exact decodes_number "L" (by decide) (fun | .long w, _ => ⟨w, rfl⟩)
      (fun _ => rfl) (fun _ => isToken_repr _) fun h => Int64.toInt_inj.1 (repr_unique h)
  | float v =>
    exact decodes_number "f" (by decide) (fun | .float w, _ => ⟨w, rfl⟩)
      (fun _ => rfl) Binary.isToken_text fun h => Binary.text_injective h
  | double v =>
    exact decodes_number "d" (by decide) (fun | .double w, _ => ⟨w, rfl⟩)
      (fun _ => rfl) Binary.isToken_text fun h => Binary.text_injective h
  | string s =>
    refine decodes_of_kind fun b hkind r s hr hs h => ?_
    cases b with
    | string t =>
      obtain ⟨hstring, hrest⟩ := quotedText_unique h
      exact ⟨congrArg string hstring, hrest⟩
    | _ => cases hkind
  | list items ih =>
    refine decodes_of_kind fun b hkind r s hr hs h => ?_
    cases b with
    | list items' =>
      rw [toList_text_list, toList_text_list] at h
      simp only [List.cons_append, List.append_assoc, List.cons.injEq, true_and] at h
      have hclose : isDelimiter ']' := rfl
      obtain ⟨hitems, hrest⟩ := items_unique hclose (by decide) ih
        (fun n => exists_head_of_not_ends hclose n.not_ends_text) h
      exact ⟨congrArg list hitems, hrest⟩
    | _ => cases hkind
  | compound fields ih =>
    refine decodes_of_kind fun b hkind r s hr hs h => ?_
    cases b with
    | compound fields' =>
      rw [toList_text_compound, toList_text_compound] at h
      simp only [List.cons_append, List.append_assoc, List.cons.injEq, true_and] at h
      have hclose : isDelimiter '\x7d' := rfl
      obtain ⟨hfields, hrest⟩ := items_unique hclose (by decide)
        (fun f hf => decodes_field (ih f hf))
        (fun f => exists_head_of_not_ends hclose (not_ends_field f)) h
      exact ⟨congrArg compound hfields, hrest⟩
    | _ => cases hkind
  | byteArray items =>
    exact decodes_array "b" (by decide) (fun | .byteArray ys, _ => ⟨ys, rfl⟩)
      (fun _ => rfl) fun h => (List.map_inj_right fun _ _ => Int8.toInt_inj.1).1 h
  | intArray items =>
    exact decodes_array "" (by decide) (fun | .intArray ys, _ => ⟨ys, rfl⟩)
      (fun _ => rfl) fun h => (List.map_inj_right fun _ _ => Int32.toInt_inj.1).1 h
  | longArray items =>
    exact decodes_array "L" (by decide) (fun | .longArray ys, _ => ⟨ys, rfl⟩)
      (fun _ => rfl) fun h => (List.map_inj_right fun _ _ => Int64.toInt_inj.1).1 h

/-- Trees with the same text are the same. -/
theorem text_eq_text_iff {a b : Nbt} : a.text = b.text ↔ a = b := by
  constructor
  · intro h
    have hlist : a.text.toList ++ [] = b.text.toList ++ [] := by rw [h]
    exact (decodes a b [] [] ends_nil ends_nil hlist).1
  · intro h
    rw [h]

end Nbt

end TargetSelector
