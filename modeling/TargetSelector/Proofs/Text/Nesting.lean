import TargetSelector.Proofs.Text.Delimited

/-!
Text with brackets and double quotes. A reader keeps the brackets that are open and whether it stands in
quotes, and splits text at the commas outside of both.
-/
namespace TargetSelector

/-- How a reader stands to quotes; `escaped` is inside of them and behind a backslash. -/
inductive Quoting where
  | outside | inside | escaped
deriving DecidableEq

/-- Where a reader stands: the brackets that are open, the innermost first, and the quotes. -/
structure Position where
  opened : List Char
  quoting : Quoting
deriving DecidableEq

namespace Position

def within (opened : List Char) : Position := ⟨opened, .outside⟩

def top : Position := within []

def closing (c : Char) : Char := if c = '[' then ']' else '\x7d'

/-- The position after one more character, unless that closes a bracket that was not opened last. -/
def step (p : Position) (c : Char) : Option Position :=
  match p.quoting with
  | .escaped => some { p with quoting := .inside }
  | .inside =>
    if c = '\\' then some { p with quoting := .escaped }
    else if c = '"' then some { p with quoting := .outside }
    else some p
  | .outside =>
    if c = '"' then some { p with quoting := .inside }
    else if c = '[' || c = '\x7b' then some { p with opened := c :: p.opened }
    else if c = ']' || c = '\x7d' then
      match p.opened with
      | b :: opened => if closing b = c then some { p with opened := opened } else none
      | [] => none
    else some p

/-- The position after a text. A separator must not stand at the top. -/
def read (separators : List Char) : Position → List Char → Option Position
  | p, [] => some p
  | p, c :: cs =>
    if p = top ∧ c ∈ separators then none else (p.step c).bind fun q => q.read separators cs

/-- The first piece of a text and the others, cut at the commas at the top. -/
def pieces : Position → List Char → Option (List Char × List (List Char))
  | p, [] => if p = top then some ([], []) else none
  | p, c :: cs =>
    if p = top ∧ c = ',' then (top.pieces cs).map fun (x, xs) => ([], x :: xs)
    else (p.step c).bind fun q => (q.pieces cs).map fun (x, xs) => (c :: x, xs)

end Position

/-- Splits text at the commas outside of all brackets and quotes. An empty text has no pieces. There is
no result if brackets do not match or quotes stay open. -/
def splitNested (text : String) : Option (List String) :=
  if text = "" then some []
  else (Position.top.pieces text.toList).map fun (x, xs) => (x :: xs).map String.ofList

example : splitNested "a=\x7bb=1,c=2\x7d,d=\"],\\\"\"" = some ["a=\x7bb=1,c=2\x7d", "d=\"],\\\"\""] := by
  decide +kernel

namespace Position

variable {separators : List Char}

theorem read_append (p : Position) (s t : List Char) :
    p.read separators (s ++ t) = (p.read separators s).bind fun q => q.read separators t := by
  induction s generalizing p with
  | nil => rfl
  | cons c s ih =>
    rw [List.cons_append, read, read]
    split
    · rfl
    · cases p.step c with
      | none => rfl
      | some q => exact ih q

/-- The same position with more brackets open below its own. -/
def atop (below : List Char) (p : Position) : Position := ⟨p.opened ++ below, p.quoting⟩

/-- A step that closes no bracket below leaves them open. -/
theorem step_atop {p q : Position} {c : Char} (h : p.step c = some q) (below : List Char) :
    (p.atop below).step c = some (q.atop below) := by
  obtain ⟨opened, quoting⟩ := p
  cases quoting with
  | escaped =>
    cases h
    rfl
  | inside => grind [step, atop]
  | outside =>
    -- Without an open bracket of its own the position refuses a bracket that closes one.
    cases opened <;> grind [step, atop]

/-- A text that can be read from a position can be read above open brackets as well. They stay open, and
no separator is at the top there. -/
theorem read_atop {p q : Position} {t : List Char} (h : p.read [] t = some q) {below : List Char}
    (hbelow : below ≠ []) : (p.atop below).read separators t = some (q.atop below) := by
  induction t generalizing p with
  | nil =>
    cases h
    rfl
  | cons c t ih =>
    have hplace : p.atop below ≠ top := by
      intro htop
      exact hbelow (List.append_eq_nil_iff.1 (congrArg opened htop)).2
    rw [read, if_neg fun hc => List.not_mem_nil hc.2] at h
    obtain ⟨r, hr, h⟩ := Option.bind_eq_some_iff.1 h
    rw [read, if_neg fun hc => hplace hc.1, step_atop hr, Option.bind_some]
    exact ih h

theorem pieces_of_read {p q : Position} {t : List Char} (h : p.read [','] t = some q)
    (rest : List Char) : p.pieces (t ++ rest) = (q.pieces rest).map fun (x, xs) => (t ++ x, xs) := by
  induction t generalizing p with
  | nil =>
    cases h
    simp
  | cons c t ih =>
    rw [read] at h
    split at h
    · cases h
    · next hc =>
      rw [List.mem_singleton] at hc
      obtain ⟨r, hr, h⟩ := Option.bind_eq_some_iff.1 h
      rw [List.cons_append, pieces, if_neg hc, hr, Option.bind_some, ih h, Option.map_map]
      rfl

end Position

/-- Text that leaves a reader outside of quotes where it stood, with no separator at the top. -/
def Passes (separators opened text : List Char) : Prop :=
  (Position.within opened).read separators text = some (.within opened)

theorem pieces_of_passes {t : List Char} (h : Passes [','] [] t) (rest : List Char) :
    Position.top.pieces (t ++ rest) = (Position.top.pieces rest).map fun (x, xs) => (t ++ x, xs) :=
  Position.pieces_of_read h rest

theorem pieces_joined {t : List Char} {ts : List (List Char)} (h : ∀ u ∈ t :: ts, Passes [','] [] u) :
    Position.top.pieces (t ++ ts.flatMap (',' :: ·)) = some (t, ts) := by
  have ht : Passes [','] [] t := h t List.mem_cons_self
  induction ts generalizing t with
  | nil =>
    rw [pieces_of_passes ht, List.flatMap_nil, Position.pieces, if_pos rfl]
    simp
  | cons u ts ih =>
    have hrest : ∀ v ∈ u :: ts, Passes [','] [] v := fun v hv => h v (List.mem_cons_of_mem t hv)
    rw [pieces_of_passes ht, List.flatMap_cons, List.cons_append, Position.pieces,
      if_pos ⟨rfl, rfl⟩, ih hrest (hrest u List.mem_cons_self)]
    simp

/-- Texts joined by commas are split where they were joined. -/
theorem splitNested_intercalate {ss : List String} (h : ∀ s ∈ ss, Passes [','] [] s.toList)
    (hne : ∀ s ∈ ss, s ≠ "") : splitNested (",".intercalate ss) = some ss := by
  cases ss with
  | nil => rfl
  | cons s ss =>
    have hs : (",".intercalate (s :: ss)).toList = s.toList ++ (ss.map String.toList).flatMap (',' :: ·) := by
      rw [toList_intercalate_cons, List.flatMap_map]
    have hnonempty : ",".intercalate (s :: ss) ≠ "" := by
      intro hempty
      rw [hempty] at hs
      have hhead := List.append_eq_nil_iff.1 hs.symm
      exact hne s List.mem_cons_self (String.toList_eq_nil_iff.1 hhead.1)
    have hpasses : ∀ u ∈ s.toList :: ss.map String.toList, Passes [','] [] u := by
      rw [← List.map_cons, List.forall_mem_map]
      exact h
    rw [splitNested, if_neg hnonempty, hs, pieces_joined hpasses]
    simp

def isOrdinary (c : Char) : Bool :=
  !(c = '"' || c = '[' || c = '\x7b' || c = ']' || c = '\x7d')

section Passes

variable {separators opened : List Char}

/-- No separator is refused within a bracket, nor where there are none. -/
theorem not_mem_of_place (hplace : opened ≠ [] ∨ separators = []) (hnil : opened = []) (c : Char) :
    c ∉ separators := by
  rcases hplace with hopened | rfl
  · exact absurd hnil hopened
  · exact List.not_mem_nil

theorem passes_nil : Passes separators opened [] := rfl

theorem Passes.append {s t : List Char} (hs : Passes separators opened s)
    (ht : Passes separators opened t) : Passes separators opened (s ++ t) := by
  rw [Passes, Position.read_append, hs]
  exact ht

theorem passes_singleton {c : Char} (hc : isOrdinary c) (hsep : opened = [] → c ∉ separators) :
    Passes separators opened [c] := by
  have hplace : ¬ (Position.within opened = .top ∧ c ∈ separators) := by
    rintro ⟨htop, hmem⟩
    exact hsep (congrArg Position.opened htop) hmem
  simp only [isOrdinary, Bool.not_eq_true', Bool.or_eq_false_iff, decide_eq_false_iff_not] at hc
  obtain ⟨⟨⟨⟨hquote, hsquare⟩, hbrace⟩, hsquare'⟩, hbrace'⟩ := hc
  rw [Passes, Position.read, if_neg hplace]
  simp [Position.step, Position.within, Position.read, hquote, hsquare, hbrace, hsquare', hbrace']

theorem passes_of_ordinary {t : List Char} (ht : ∀ c ∈ t, isOrdinary c)
    (hsep : opened = [] → ∀ c ∈ t, c ∉ separators) : Passes separators opened t := by
  induction t with
  | nil => exact passes_nil
  | cons c t ih =>
    have hc : Passes separators opened [c] :=
      passes_singleton (ht c List.mem_cons_self) fun h => hsep h c List.mem_cons_self
    exact hc.append (ih (fun d hd => ht d (List.mem_cons_of_mem c hd))
      fun h d hd => hsep h d (List.mem_cons_of_mem c hd))

theorem passes_bracketed {b : Char} (hb : b = '[' ∨ b = '\x7b') (hsep : b ∉ separators) {t : List Char}
    (ht : Passes separators (b :: opened) t) :
    Passes separators opened (b :: (t ++ [Position.closing b])) := by
  have hopen : (Position.within opened).step b = some (.within (b :: opened)) := by
    rcases hb with rfl | rfl <;> rfl
  have hclose : (Position.within (b :: opened)).step (Position.closing b) = some (.within opened) := by
    rcases hb with rfl | rfl <;> rfl
  have hinside : Position.within (b :: opened) ≠ .top := fun h =>
    List.cons_ne_nil b opened (congrArg Position.opened h)
  rw [Passes, Position.read, if_neg fun h => hsep h.2, hopen, Option.bind_some,
    Position.read_append, ht, Option.bind_some, Position.read, if_neg fun h => hinside h.1, hclose]
  rfl

private theorem passes_flatMap {α : Type} {f : α → List Char} {xs : List α}
    (h : ∀ x ∈ xs, Passes separators opened (f x)) : Passes separators opened (xs.flatMap f) := by
  induction xs with
  | nil => exact passes_nil
  | cons x xs ih =>
    obtain ⟨hx, hxs⟩ := List.forall_mem_cons.1 h
    rw [List.flatMap_cons]
    exact hx.append (ih hxs)

theorem passes_intercalate (hplace : opened ≠ [] ∨ separators = []) {ss : List String}
    (h : ∀ s ∈ ss, Passes separators opened s.toList) :
    Passes separators opened (",".intercalate ss).toList := by
  have hcomma : Passes separators opened [','] :=
    passes_singleton rfl fun hnil => not_mem_of_place hplace hnil ','
  cases ss with
  | nil => exact passes_nil
  | cons s ss =>
    obtain ⟨hs, hss⟩ := List.forall_mem_cons.1 h
    rw [toList_intercalate_cons]
    exact hs.append (passes_flatMap fun t ht => hcomma.append (hss t ht))

/-- In a text in brackets, a bracket is open behind every character but the last one. -/
theorem exists_opened_of_bracketed {b : Char} (hb : b = '[' ∨ b = '\x7b') (hsep : b ∉ separators)
    {t : List Char} (ht : Passes [] [] t) {front rest : List Char} {c : Char}
    (h : b :: (t ++ [Position.closing b]) = front ++ c :: rest) (hfront : front ≠ []) :
    ∃ p, Position.top.read separators front = some p ∧ p.opened ≠ [] := by
  obtain ⟨d, front, rfl⟩ := List.exists_cons_of_ne_nil hfront
  obtain rfl : b = d := (List.cons_eq_cons.1 h).1
  have htail : t ++ [Position.closing b] = front ++ c :: rest := (List.cons_eq_cons.1 h).2
  have hlength : front.length ≤ t.length := by
    have hlengths := congrArg List.length htail
    simp only [List.length_append, List.length_cons, List.length_nil] at hlengths
    omega
  have hprefix : front <+: t :=
    List.prefix_of_prefix_length_le ⟨c :: rest, htail.symm⟩ (List.prefix_append t _) hlength
  obtain ⟨t, rfl⟩ := hprefix
  rw [Passes, Position.read_append] at ht
  obtain ⟨p, hp, -⟩ := Option.bind_eq_some_iff.1 ht
  have hopen : Position.top.step b = some (Position.top.atop [b]) := by
    rcases hb with rfl | rfl <;> rfl
  refine ⟨p.atop [b], ?_, List.append_ne_nil_of_right_ne_nil _ (List.cons_ne_nil b [])⟩
  rw [Position.read, if_neg fun hc => hsep hc.2, hopen, Option.bind_some]
  exact Position.read_atop hp (List.cons_ne_nil b [])

end Passes

end TargetSelector
