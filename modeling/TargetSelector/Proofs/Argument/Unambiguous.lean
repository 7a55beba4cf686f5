import Mathlib.Data.List.Basic
import Mathlib.Data.Set.List
import TargetSelector.Proofs.Argument.Admission
import TargetSelector.Proofs.Numeric.Text

/-!
Maps can be read back from their segments. Criteria are a map within a map; what is shown for one map
holds of the outer one with the maps of criteria as values.
-/
namespace TargetSelector

/-- A name without the characters that give a map its structure, and with no mark of a flag that is
off at its front. -/
def isEntryName (name : String) : Bool :=
  (name.toList.all fun c => !(c = ',' || c = '=' || c = '\x7b' || c = '\x7d')) &&
    name.toList.head? ≠ some '!'

section Names

variable {name : String} (h : isEntryName name) {c : Char}
include h

theorem ne_of_mem_entryName (hc : c ∈ name.toList) : c ≠ '=' ∧ c ≠ '\x7d' := by
  have hplain := List.all_eq_true.1 (Bool.and_eq_true_iff.1 h).1 c hc
  simp only [Bool.not_eq_true', Bool.or_eq_false_iff, decide_eq_false_iff_not] at hplain
  exact ⟨hplain.1.1.2, hplain.2⟩

private theorem ne_mark_of_mem_head? (hc : c ∈ name.toList.head?) : c ≠ '!' := by
  rintro rfl
  exact of_decide_eq_true (Bool.and_eq_true_iff.1 h).2 hc

/-- The name of an entry ends at the equals sign. -/
theorem entryName_unique {name' : String} (h' : isEntryName name') {r s : List Char}
    (heq : name.toList ++ '=' :: r = name'.toList ++ '=' :: s) : name = name' ∧ r = s := by
  have hequals : ∀ q : List Char, ∀ d ∈ ('=' :: q).head?, ¬ d ≠ '=' := by
    intro q d hd
    cases hd
    exact not_not_intro rfl
  obtain ⟨hlist, hrest⟩ := run_unique (fun d hd => (ne_of_mem_entryName h hd).1)
    (fun d hd => (ne_of_mem_entryName h' hd).1) (hequals r) (hequals s) heq
  exact ⟨String.toList_inj.1 hlist, (List.cons_eq_cons.1 hrest).2⟩

end Names

/-- Among the values that satisfy `P`, the text of one is no other one's, whatever delimiters follow
the two. -/
def DecodesAmong {α : Type} (P : α → Prop) (f : α → String) : Prop :=
  ∀ a, P a → ∀ b, P b → ∀ r s, Ends r → Ends s → (f a).toList ++ r = (f b).toList ++ s → a = b ∧ r = s

theorem DecodesAmong.eq {α : Type} {P : α → Prop} {f : α → String} (hf : DecodesAmong P f) {a b : α}
    (ha : P a) (hb : P b) (h : f a = f b) : a = b := by
  have hlist : (f a).toList ++ [] = (f b).toList ++ [] := by rw [h]
  exact (hf a ha b hb [] [] ends_nil ends_nil hlist).1

private theorem decodesAmong_token : DecodesAmong IsToken id :=
  fun _ ht _ hu _ _ => token_unique ht hu

theorem decodesAmong_boolText : DecodesAmong (fun _ => True) boolText := by
  have htrue : "true".toList.all isNumberChar := by decide
  have hfalse : "false".toList.all isNumberChar := by decide
  have htoken : ∀ b, IsToken (boolText b) := by
    intro b
    cases b with
    | true => exact ⟨by decide, List.all_eq_true.1 htrue⟩
    | false => exact ⟨by decide, List.all_eq_true.1 hfalse⟩
  have hinj : ∀ b c, boolText b = boolText c → b = c := by decide
  intro b _ c _ r s hr hs h
  obtain ⟨htext, hrest⟩ := token_unique (htoken b) (htoken c) hr hs h
  exact ⟨hinj b c htext, hrest⟩

section Entries

variable {α : Type} {P : α → Prop} {text : α → String}

/-- An entry whose name and value can be told from what stands around them. -/
abbrev CleanEntry (P : α → Prop) : Type := {e : String × α // isEntryName e.1 ∧ P e.2}

def entryText (text : α → String) (e : CleanEntry P) : String := e.1.1 ++ "=" ++ text e.1.2

theorem toList_entryText (e : CleanEntry P) :
    (entryText text e).toList = e.1.1.toList ++ '=' :: (text e.1.2).toList := by
  rw [entryText, String.toList_append, String.toList_append, List.append_assoc]
  rfl

private theorem decodes_entry (htext : DecodesAmong P text) (e : CleanEntry P) :
    Decodes (entryText text) e := by
  intro d r s hr hs h
  rw [toList_entryText, toList_entryText, List.append_assoc, List.append_assoc] at h
  obtain ⟨hname, hvalue⟩ := entryName_unique e.2.1 d.2.1 h
  obtain ⟨hvalue, hrest⟩ := htext _ e.2.2 _ d.2.2 r s hr hs hvalue
  exact ⟨Subtype.ext (Prod.ext hname hvalue), hrest⟩

/-- An entry is not taken for the brace that closes its map, also if its name is empty. -/
theorem exists_head_entry (e : CleanEntry P) :
    ∃ c ∈ (entryText text e).toList.head?, c ≠ '\x7d' := by
  rw [toList_entryText]
  cases hname : e.1.1.toList with
  | nil => exact ⟨'=', rfl, by decide⟩
  | cons c cs =>
    have hc : c ∈ e.1.1.toList := hname ▸ List.mem_cons_self
    exact ⟨c, rfl, (ne_of_mem_entryName e.2.1 hc).2⟩

theorem toList_braced (m : List (CleanEntry P)) :
    (braced text (m.map Subtype.val)).toList =
      '\x7b' :: ((",".intercalate (m.map (entryText text))).toList ++ ['\x7d']) := by
  rw [braced, String.toList_append, String.toList_append, List.map_map, List.append_assoc]
  rfl

/-- A map in braces is told from others if its values are. -/
theorem decodesAmong_braced (htext : DecodesAmong P text) :
    DecodesAmong (fun m : OrderedMap String α => ∀ e ∈ m, isEntryName e.1 ∧ P e.2) (braced text) := by
  intro m hm n hn r s hr hs h
  lift m to List (CleanEntry P) using hm
  lift n to List (CleanEntry P) using hn
  rw [toList_braced, toList_braced, List.cons_append, List.cons_append, List.append_assoc,
    List.append_assoc] at h
  have hclose : isDelimiter '\x7d' := rfl
  obtain ⟨hentries, hrest⟩ := items_unique hclose (by decide) (fun e _ => decodes_entry htext e)
    exists_head_entry (List.cons_eq_cons.1 h).2
  exact ⟨congrArg _ hentries, hrest⟩

end Entries

theorem Range.isToken_text (r : Range) : IsToken r.text := by
  have hword : "..".toList.all isNumberChar := by decide
  have hpoints : ∀ c ∈ "..".toList, isNumberChar c := List.all_eq_true.1 hword
  have hnumber : ∀ x : Binary64, IsToken x.text := fun x => x.isToken_text
  cases r with
  | exact v => exact hnumber _
  | between lo hi => exact ((hnumber _).append hpoints).append (hnumber _).2
  | atLeast lo => exact (hnumber _).append hpoints
  | atMost hi =>
    have htoken : IsToken ".." := ⟨by decide, hpoints⟩
    exact htoken.append (hnumber _).2

/-- A map of truth values is read back if its names are. -/
theorem isEntryName_of_all {m : OrderedMap String Bool} (h : m.all fun e => isEntryName e.1) :
    ∀ e ∈ m, isEntryName e.1 ∧ True :=
  fun e he => ⟨List.all_eq_true.1 h e he, trivial⟩

def Advancement.hasEntryNames : Advancement → Bool
  | .done _ => true
  | .criteria cs => cs.all fun e => isEntryName e.1

/-- Truth values and criteria are told apart by their first character. -/
theorem decodesAmong_advancement : DecodesAmong (fun a => a.hasEntryNames) Advancement.text := by
  have hword : ∀ b cs (r s : List Char),
      (boolText b).toList ++ r ≠ (braced boolText cs).toList ++ s := by
    intro b cs r s h
    cases b <;> simp [boolText, braced] at h
  intro a ha a' ha' r s hr hs h
  cases a with
  | done b =>
    cases a' with
    | done b' =>
      obtain ⟨rfl, hrest⟩ := decodesAmong_boolText b trivial b' trivial r s hr hs h
      exact ⟨rfl, hrest⟩
    | criteria cs => exact absurd h (hword _ _ _ _)
  | criteria cs =>
    cases a' with
    | done b => exact absurd h.symm (hword _ _ _ _)
    | criteria cs' =>
      obtain ⟨rfl, hrest⟩ := decodesAmong_braced decodesAmong_boolText cs (isEntryName_of_all ha) cs'
        (isEntryName_of_all ha') r s hr hs h
      exact ⟨rfl, hrest⟩

namespace ArgumentValue

/-- Every name in a map, at any depth, is that of an entry. -/
def hasEntryNames : ArgumentValue → Bool
  | .flags m => m.all fun e => isEntryName e.1
  | .scores m => m.all fun e => isEntryName e.1
  | .advancements m => m.all fun e => isEntryName e.1 && e.2.hasEntryNames
  | .int _ | .float _ | .text _ | .bool _ | .range _ | .nbt _ => true

/-- Maps of one kind. -/
inductive SameKind : ArgumentValue → ArgumentValue → Prop where
  | flags (m n : OrderedMap String Bool) : SameKind (.flags m) (.flags n)
  | scores (m n : OrderedMap String Range) : SameKind (.scores m) (.scores n)
  | advancements (m n : OrderedMap String Advancement) : SameKind (.advancements m) (.advancements n)

/-- The same names in the same order with the same values, where ranges count as the same if they have
the same text. -/
inductive SameEntries : ArgumentValue → ArgumentValue → Prop where
  | flags (m : OrderedMap String Bool) : SameEntries (.flags m) (.flags m)
  | scores {m n : OrderedMap String Range}
    (h : m.map (fun e => (e.1, e.2.text)) = n.map fun e => (e.1, e.2.text)) :
    SameEntries (.scores m) (.scores n)
  | advancements (m : OrderedMap String Advancement) : SameEntries (.advancements m) (.advancements m)

theorem braced_range (m : OrderedMap String Range) :
    braced Range.text m = braced id (m.map fun e => (e.1, e.2.text)) := by
  rw [braced, braced, List.map_map]
  rfl

/-- Maps of one kind with the same text have the same entries. -/
theorem sameEntries_of_display_eq {v w : ArgumentValue} (hkind : v.SameKind w) (hv : v.hasEntryNames)
    (hw : w.hasEntryNames) (h : v.display = w.display) : v.SameEntries w := by
  cases hkind with
  | flags m n =>
    have hflags := decodesAmong_braced decodesAmong_boolText
    obtain rfl := hflags.eq (isEntryName_of_all hv) (isEntryName_of_all hw) h
    exact .flags m
  | scores m n =>
    have hscores := decodesAmong_braced decodesAmong_token
    have hclean : ∀ {m : OrderedMap String Range}, (scores m).hasEntryNames →
        ∀ e ∈ m.map fun e => (e.1, e.2.text), isEntryName e.1 ∧ IsToken e.2 := by
      intro m h
      rw [List.forall_mem_map]
      exact fun e he => ⟨List.all_eq_true.1 h e he, e.2.isToken_text⟩
    have htext : braced Range.text m = braced Range.text n := h
    rw [braced_range, braced_range] at htext
    exact .scores (hscores.eq (hclean hv) (hclean hw) htext)
  | advancements m n =>
    have hadvancements := decodesAmong_braced decodesAmong_advancement
    have hclean : ∀ {m : OrderedMap String Advancement}, (advancements m).hasEntryNames →
        ∀ e ∈ m, isEntryName e.1 ∧ e.2.hasEntryNames := fun h e he =>
      Bool.and_eq_true_iff.1 (List.all_eq_true.1 h e he)
    obtain rfl := hadvancements.eq (hclean hv) (hclean hw) h
    exact .advancements m

/-- The mark of a flag that is off is no part of a name. -/
theorem flagText_injective : Function.Injective
    fun e : {e : String × Bool // isEntryName e.1} => (if e.1.2 then "" else "!") ++ e.1.1 := by
  have hmark : ∀ {name : String}, isEntryName name → ∀ other, "!" ++ other ≠ name := by
    intro name hname other h
    have hhead : '!' ∈ name.toList.head? := by
      rw [← h, String.toList_append]
      rfl
    exact ne_mark_of_mem_head? hname hhead rfl
  rintro ⟨⟨name, on⟩, hname⟩ ⟨⟨name', on'⟩, hname'⟩ h
  cases on <;> cases on' <;> simp only [Bool.false_eq_true, ↓reduceIte, String.empty_append] at h
  · obtain rfl := (String.append_right_inj "!").1 h
    rfl
  · exact absurd h (hmark hname' _)
  · exact absurd h.symm (hmark hname _)
  · obtain rfl := h
    rfl

private theorem flags_eq_of_texts_eq {m n : OrderedMap String Bool} (hm : (flags m).hasEntryNames)
    (hn : (flags n).hasEntryNames) (h : (flags m).texts .flags = (flags n).texts .flags) : m = n := by
  have hm : ∀ e ∈ m, isEntryName e.1 := List.all_eq_true.1 hm
  have hn : ∀ e ∈ n, isEntryName e.1 := List.all_eq_true.1 hn
  lift m to List {e : String × Bool // isEntryName e.1} using hm
  lift n to List {e : String × Bool // isEntryName e.1} using hn
  simp only [texts, List.map_map] at h
  exact congrArg _ (List.map_injective_iff.2 flagText_injective h)

/-- Away from keys of flags, a value has its display for its text, or no text as an empty map. -/
theorem texts_cases (v : ArgumentValue) {sh : Shape} (hsh : sh ≠ .flags) :
    v.texts sh = [v.display] ∨ v.texts sh = [] ∧ (v = .scores [] ∨ v = .advancements []) := by
  unfold texts
  split
  · exact absurd rfl hsh
  · exact Or.inr ⟨rfl, Or.inl rfl⟩
  · exact Or.inr ⟨rfl, Or.inr rfl⟩
  · exact Or.inl rfl

private theorem display_eq_of_texts_eq {v w : ArgumentValue} (hkind : v.SameKind w) {sh : Shape}
    (hsh : sh ≠ .flags) (h : v.texts sh = w.texts sh) : v.display = w.display := by
  rcases v.texts_cases hsh with hv | ⟨hv, hempty⟩ <;>
    rcases w.texts_cases hsh with hw | ⟨hw, hempty'⟩ <;> rw [hv, hw] at h
  · exact (List.cons_eq_cons.1 h).1
  · cases h
  · cases h
  · -- Of each kind there is one empty map.
    rcases hempty with rfl | rfl <;> rcases hempty' with rfl | rfl
    · rfl
    · cases hkind
    · cases hkind
    · rfl

private theorem sameEntries_of_texts_eq {v w : ArgumentValue} (hkind : v.SameKind w)
    (hv : v.hasEntryNames)
    (hw : w.hasEntryNames) {sh : Shape} (hadmits : sh.admits v) (h : v.texts sh = w.texts sh) :
    v.SameEntries w := by
  by_cases hsh : sh = .flags
  · subst hsh
    cases hkind with
    | flags m n =>
      obtain rfl := flags_eq_of_texts_eq hv hw h
      exact .flags m
    | scores m n => cases hadmits
    | advancements m n => cases hadmits
  · exact sameEntries_of_display_eq hkind hv hw (display_eq_of_texts_eq hkind hsh h)

theorem texts_eq_of_sameEntries {v w : ArgumentValue} (h : v.SameEntries w) (sh : Shape) :
    v.texts sh = w.texts sh := by
  cases h with
  | flags m => rfl
  | advancements m => rfl
  | @scores m n h =>
    have hdisplay : (scores m).display = (scores n).display := by
      rw [display, display, braced_range, braced_range, h]
    cases sh with
    | flags => exact congrArg (fun t => [t]) hdisplay
    | scores =>
      cases m <;> cases n
      · rfl
      · cases h
      · cases h
      · exact congrArg (fun t => [t]) hdisplay
    | _ => exact congrArg (fun t => [t]) hdisplay

end ArgumentValue

/-- Two maps of one kind have the same segments under a key exactly if they have the same entries, up
to ranges that print the same. -/
theorem ArgumentKey.segments_eq_iff_sameEntries {key : ArgumentKey} {v w : ArgumentValue}
    (hkind : v.SameKind w) (hv : v.hasEntryNames) (hw : w.hasEntryNames) {ss ts : List String}
    (hss : key.segments v = .ok ss) (hts : key.segments w = .ok ts) : ss = ts ↔ v.SameEntries w := by
  obtain ⟨hadmits, rfl⟩ := segments_eq_ok.1 hss
  obtain ⟨-, rfl⟩ := segments_eq_ok.1 hts
  have hassign : Function.Injective key.assign := fun _ _ h => (String.append_right_inj _).1 h
  constructor
  · intro h
    have htexts : v.texts key.shape = w.texts key.shape := List.map_injective_iff.2 hassign h
    exact ArgumentValue.sameEntries_of_texts_eq hkind hv hw hadmits htexts
  · intro h
    rw [ArgumentValue.texts_eq_of_sameEntries h]

/-- Zeros of either sign print the same, also under an empty name. -/
theorem ArgumentKey.segments_eq_iff_sameEntries_zeros :
    let zero : Binary64 := .ofNat 0
    let v := ArgumentValue.scores [("", .exact zero), ("kills", .atLeast zero.neg)]
    let w := ArgumentValue.scores [("", .exact zero.neg), ("kills", .atLeast zero)]
    zero ≠ zero.neg ∧
      (∃ ss, (known .scores).segments v = .ok ss ∧ (known .scores).segments w = .ok ss) ∧
      v.SameEntries w := by
  intro zero v w
  have hne : zero ≠ zero.neg := by decide +kernel
  have hcanonical : zero.neg.canonical = zero.canonical := by decide +kernel
  have hdisplay : w.display = v.display := by
    simp [v, w, ArgumentValue.display, braced, Range.text, hcanonical]
  have hv : (known .scores).segments v = .ok [(known .scores).assign v.display] :=
    segments_eq_ok.2 ⟨by decide +kernel, rfl⟩
  have hw : (known .scores).segments w = .ok [(known .scores).assign v.display] :=
    segments_eq_ok.2 ⟨by decide +kernel, hdisplay ▸ rfl⟩
  have hnames : v.hasEntryNames ∧ w.hasEntryNames := by decide
  exact ⟨hne, ⟨_, hv, hw⟩,
    (segments_eq_iff_sameEntries (.scores _ _) hnames.1 hnames.2 hv hw).1 rfl⟩

-- A mark at the front of a name is not told from that of a flag that is off.
example : (ArgumentKey.known .tag).segments (.flags [("!a", true)]) =
    (ArgumentKey.known .tag).segments (.flags [("a", false)]) := by decide

end TargetSelector
