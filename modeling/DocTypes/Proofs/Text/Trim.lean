import DocTypes.Text.Blank
import Mathlib.Data.List.TakeWhile

set_option autoImplicit false

/-!
# Trimming

A text is what trimming leaves of it, with blanks around. Trimming undoes the setting of blanks
around a text and leaves a text alone that neither starts nor ends with one.
-/

namespace DocTypes.Text

def Blank (text : Text) : Prop := ∀ c ∈ text, isBlank c = true

instance (text : Text) : Decidable (Blank text) :=
  inferInstanceAs (Decidable (∀ c ∈ text, isBlank c = true))

/-- Neither the first nor the last character is blank. -/
def Trimmed (text : Text) : Prop :=
  (∀ c ∈ text.head?, isBlank c = false) ∧ ∀ c ∈ text.getLast?, isBlank c = false

theorem blank_nil : Blank [] := fun _ h => by cases h

theorem blank_append {a b : Text} : Blank (a ++ b) ↔ Blank a ∧ Blank b := by
  simp only [Blank, List.mem_append, or_imp, forall_and]

theorem trimStart_append {before : Text} (h : Blank before) (text : Text) :
    trimStart (before ++ text) = trimStart text :=
  List.dropWhile_append_of_pos h

theorem trimEnd_append {after : Text} (h : Blank after) (text : Text) :
    trimEnd (text ++ after) = trimEnd text := by
  have hr : ∀ c ∈ after.reverse, isBlank c = true := fun c hc => h c (List.mem_reverse.1 hc)
  rw [trimEnd, List.reverse_append, List.dropWhile_append_of_pos hr]
  rfl

theorem trimStart_eq_nil_iff {text : Text} : trimStart text = [] ↔ Blank text :=
  List.dropWhile_eq_nil_iff

theorem exists_trimStart (text : Text) : ∃ before, Blank before ∧ before ++ trimStart text = text :=
  ⟨text.takeWhile isBlank, fun _ hc => List.mem_takeWhile_imp hc, List.takeWhile_append_dropWhile⟩

theorem exists_trimEnd (text : Text) : ∃ after, Blank after ∧ trimEnd text ++ after = text := by
  obtain ⟨before, hb, he⟩ := exists_trimStart text.reverse
  refine ⟨before.reverse, fun c hc => hb c (List.mem_reverse.1 hc), ?_⟩
  change (trimStart text.reverse).reverse ++ before.reverse = text
  rw [← List.reverse_append, he, List.reverse_reverse]

/-- A text is its trimmed form with blanks around. -/
theorem exists_trim (text : Text) :
    ∃ before after, Blank before ∧ Blank after ∧ before ++ (trim text ++ after) = text := by
  obtain ⟨before, hb, hs⟩ := exists_trimStart text
  obtain ⟨after, ha, he⟩ := exists_trimEnd (trimStart text)
  refine ⟨before, after, hb, ha, ?_⟩
  rw [trim, he, hs]

theorem head?_trimStart {text : Text} {c : Char} (h : c ∈ (trimStart text).head?) :
    isBlank c = false := by
  have hn := List.head?_dropWhile_not isBlank text
  rw [show (text.dropWhile isBlank).head? = some c from h] at hn
  exact hn

theorem getLast?_trimEnd {text : Text} {c : Char} (h : c ∈ (trimEnd text).getLast?) :
    isBlank c = false := by
  rw [trimEnd, List.getLast?_reverse] at h
  exact head?_trimStart h

theorem head?_trimEnd {text : Text} {c : Char} (h : c ∈ (trimEnd text).head?) :
    c ∈ text.head? := by
  obtain ⟨after, -, he⟩ := exists_trimEnd text
  rw [← he, List.head?_append, Option.mem_def.1 h]
  rfl

theorem trimmed_trim (text : Text) : Trimmed (trim text) :=
  ⟨fun _ h => head?_trimStart (head?_trimEnd h), fun _ h => getLast?_trimEnd h⟩

theorem trimStart_of_head? {text : Text} (h : ∀ c ∈ text.head?, isBlank c = false) :
    trimStart text = text := by
  cases text with
  | nil => rfl
  | cons c rest =>
    have hc := h c rfl
    rw [trimStart, List.dropWhile_cons, hc]
    rfl

theorem trim_of_trimmed {text : Text} (h : Trimmed text) : trim text = text := by
  have hr : trimStart text.reverse = text.reverse := by
    apply trimStart_of_head?
    rw [List.head?_reverse]
    exact h.2
  rw [trim, trimStart_of_head? h.1]
  change (trimStart text.reverse).reverse = text
  rw [hr, List.reverse_reverse]

theorem trim_append_blank {after : Text} (h : Blank after) (text : Text) :
    trim (text ++ after) = trim text := by
  by_cases hn : trimStart text = []
  · have hb : Blank (text ++ after) := blank_append.2 ⟨trimStart_eq_nil_iff.1 hn, h⟩
    rw [trim, trim, hn, trimStart_eq_nil_iff.2 hb]
  · have hd : trimStart (text ++ after) = trimStart text ++ after := by
      change List.dropWhile isBlank (text ++ after) = _
      have he : (List.dropWhile isBlank text).isEmpty = false := by
        simpa [trimStart] using hn
      rw [List.dropWhile_append, he]
      rfl
    rw [trim, hd, trimEnd_append h]
    rfl

/-- Blanks around a text do not matter to trimming. -/
theorem trim_padded {before after : Text} (hb : Blank before) (ha : Blank after) (text : Text) :
    trim (before ++ (text ++ after)) = trim text := by
  rw [trim, trimStart_append hb]
  exact trim_append_blank ha text

theorem trim_eq_nil_iff {text : Text} : trim text = [] ↔ Blank text := by
  constructor
  · intro h
    obtain ⟨before, after, hb, ha, he⟩ := exists_trim text
    rw [h] at he
    rw [← he]
    exact blank_append.2 ⟨hb, ha⟩
  · intro h
    rw [trim, trimStart_eq_nil_iff.2 h]
    rfl

theorem not_blank_of_trimmed {text : Text} (hne : text ≠ []) (h : Trimmed text) : ¬ Blank text := by
  intro hb
  rw [← trim_of_trimmed h] at hne
  exact hne (trim_eq_nil_iff.2 hb)

theorem trimmed_append {a b : Text} (hna : a ≠ []) (ha : Trimmed a) (hnb : b ≠ [])
    (hb : Trimmed b) : Trimmed (a ++ b) := by
  constructor
  · rw [List.head?_append, List.head?_eq_some_head hna, Option.some_or, ← List.head?_eq_some_head]
    exact ha.1
  · rw [List.getLast?_append, List.getLast?_eq_some_getLast hnb, Option.some_or,
      ← List.getLast?_eq_some_getLast]
    exact hb.2

theorem trimmed_singleton {c : Char} (h : isBlank c = false) : Trimmed [c] :=
  ⟨fun _ hc => Option.some.inj hc ▸ h, fun _ hc => Option.some.inj hc ▸ h⟩

theorem filter_map_trim (parts : List Text) :
    (parts.map trim).filter (· ≠ []) = (parts.filter fun part => ¬ Blank part).map trim := by
  rw [List.filter_map]
  apply congrArg (List.map trim)
  apply List.filter_congr
  intro part _
  simp only [Function.comp_apply, ne_eq, trim_eq_nil_iff]

theorem trim_trim (text : Text) : trim (trim text) = trim text :=
  trim_of_trimmed (trimmed_trim text)

end DocTypes.Text
