import DocTypes.Bracket
import DocTypes.Proofs.Text.Trim

set_option autoImplicit false

/-!
# Properly nested texts

A text is nested when each of its brackets is closed by a bracket of its kind around a nested text.
The search for a closing bracket finds the end of the longest nested text there is: it succeeds
exactly when a nested text and the closing bracket come next.
-/

namespace DocTypes.Bracket

def Plain (c : Char) : Prop := ofOpener? c = none ∧ ofCloser? c = none

instance (c : Char) : Decidable (Plain c) := inferInstanceAs (Decidable (_ ∧ _))

/-- The brackets of a text are properly nested, and none of the characters in `apart` stands
outside them. -/
inductive Nested : List Char → Text → Prop where
  | nil {apart : List Char} : Nested apart []
  | plain {apart : List Char} {c : Char} {rest : Text} (hc : Plain c) (ha : c ∉ apart)
    (hr : Nested apart rest) : Nested apart (c :: rest)
  | group {apart : List Char} {inside rest : Text} (b : Bracket) (hi : Nested [] inside)
    (hr : Nested apart rest) : Nested apart (b.opener :: (inside ++ b.closer :: rest))

theorem bracket_cases (c : Char) :
    (∃ b : Bracket, c = b.opener) ∨ (∃ b : Bracket, c = b.closer) ∨ Plain c := by
  cases ho : ofOpener? c with
  | some b => exact .inl ⟨b, ofOpener?_eq_some.1 ho⟩
  | none =>
    cases hc : ofCloser? c with
    | some b => exact .inr (.inl ⟨b, ofCloser?_eq_some.1 hc⟩)
    | none => exact .inr (.inr ⟨ho, hc⟩)

@[simp] theorem ofOpener?_opener (b : Bracket) : ofOpener? b.opener = some b :=
  ofOpener?_eq_some.2 rfl

@[simp] theorem ofCloser?_closer (b : Bracket) : ofCloser? b.closer = some b :=
  ofCloser?_eq_some.2 rfl

theorem ofOpener?_closer (b : Bracket) : ofOpener? b.closer = none := by cases b <;> rfl

theorem ofCloser?_opener (b : Bracket) : ofCloser? b.opener = none := by cases b <;> rfl

theorem not_plain_opener (b : Bracket) : ¬ Plain b.opener := by
  rintro ⟨ho, -⟩
  rw [ofOpener?_opener] at ho
  cases ho

theorem not_plain_closer (b : Bracket) : ¬ Plain b.closer := by
  rintro ⟨-, hc⟩
  rw [ofCloser?_closer] at hc
  cases hc

theorem opener_injective {a b : Bracket} (h : a.opener = b.opener) : a = b := by
  have ha := ofOpener?_opener a
  rw [h, ofOpener?_opener] at ha
  exact (Option.some.inj ha).symm

theorem plain_of_isBlank {c : Char} (h : Text.isBlank c = true) : Plain c := by
  rcases bracket_cases c with ⟨b, rfl⟩ | ⟨b, rfl⟩ | hc
  · cases b <;> exact absurd h (by decide)
  · cases b <;> exact absurd h (by decide)
  · exact hc

theorem step_plain {c : Char} (h : Plain c) (opened : List Bracket) :
    step opened c = some opened := by
  simp only [step, h.1, h.2]

namespace Nested

variable {apart : List Char}

theorem append {a b : Text} (ha : Nested apart a) (hb : Nested apart b) :
    Nested apart (a ++ b) := by
  induction ha with
  | nil => exact hb
  | plain hc hn _ ih => exact .plain hc hn (ih hb)
  | @group apart inside rest k hi _ _ ih =>
    have h := Nested.group k hi (ih hb)
    rw [List.cons_append, List.append_assoc]
    exact h

theorem group_single (b : Bracket) {inside : Text} (h : Nested [] inside) :
    Nested apart (b.opener :: (inside ++ [b.closer])) :=
  .group b h .nil

theorem mono {fewer : List Char} {text : Text} (h : Nested apart text)
    (hs : ∀ c ∈ fewer, c ∈ apart) : Nested fewer text := by
  induction h with
  | nil => exact .nil
  | plain hc hn _ ih => exact .plain hc (fun hf => hn (hs _ hf)) (ih hs)
  | group b hi _ _ ih => exact .group b hi (ih hs)

theorem of_plain_cons {c : Char} {rest : Text} (hc : Plain c) (h : Nested apart (c :: rest)) :
    c ∉ apart ∧ Nested apart rest := by
  cases h with
  | plain _ hn hr => exact ⟨hn, hr⟩
  | group b _ _ => exact absurd hc (not_plain_opener b)

theorem of_opener_cons {b : Bracket} {rest : Text} (h : Nested apart (b.opener :: rest)) :
    ∃ inside after, Nested [] inside ∧ rest = inside ++ b.closer :: after ∧
      Nested apart after := by
  generalize he : b.opener :: rest = whole at h
  cases h with
  | nil => cases he
  | plain hc =>
    rw [← (List.cons.inj he).1] at hc
    exact absurd hc (not_plain_opener b)
  | @group _ inside after d hi hr =>
    obtain ⟨ho, rfl⟩ := List.cons.inj he
    rw [opener_injective ho]
    exact ⟨inside, after, hi, rfl, hr⟩

theorem of_append_plain {c : Char} {text : Text} (hc : Plain c)
    (h : Nested apart (text ++ [c])) : Nested apart text := by
  generalize he : text ++ [c] = whole at h
  induction h generalizing text with
  | nil => simp at he
  | plain hd hn _ ih =>
    cases text with
    | nil => exact .nil
    | cons d text =>
      obtain ⟨rfl, ht⟩ := List.cons.inj he
      exact .plain hd hn (ih ht)
  | @group apart inside rest b hi hr _ ih =>
    cases text with
    | nil =>
      obtain ⟨rfl, -⟩ := List.cons.inj he
      exact absurd hc (not_plain_opener b)
    | cons d text =>
      obtain ⟨rfl, ht⟩ := List.cons.inj he
      -- the last character is plain, so it comes after the closing bracket
      rcases List.eq_nil_or_concat rest with rfl | ⟨later, e, rfl⟩
      · obtain ⟨-, hl⟩ := List.append_inj' ht rfl
        obtain ⟨rfl, -⟩ := List.cons.inj hl
        exact absurd hc (not_plain_closer b)
      · rw [List.concat_eq_append] at ht ih
        rw [← List.cons_append, ← List.append_assoc] at ht
        obtain ⟨rfl, hl⟩ := List.append_inj' ht rfl
        exact .group b hi (ih (congrArg (later ++ ·) hl))

theorem of_plain {text : Text} (h : ∀ c ∈ text, Plain c ∧ c ∉ apart) : Nested apart text := by
  induction text with
  | nil => exact .nil
  | cons c rest ih =>
    have hc := h c (List.mem_cons_self ..)
    exact .plain hc.1 hc.2 (ih fun d hd => h d (List.mem_cons_of_mem _ hd))

theorem of_blank_append {before text : Text} (hb : Text.Blank before)
    (h : Nested apart (before ++ text)) : Nested apart text := by
  induction before with
  | nil => exact h
  | cons c before ih =>
    have hc := plain_of_isBlank (hb c (List.mem_cons_self ..))
    exact ih (fun d hd => hb d (List.mem_cons_of_mem _ hd)) (of_plain_cons hc h).2

theorem of_append_blank {after text : Text} (ha : Text.Blank after)
    (h : Nested apart (text ++ after)) : Nested apart text := by
  induction after generalizing text with
  | nil => rwa [List.append_nil] at h
  | cons c after ih =>
    have hc := plain_of_isBlank (ha c (List.mem_cons_self ..))
    rw [List.append_cons] at h
    exact of_append_plain hc (ih (fun d hd => ha d (List.mem_cons_of_mem _ hd)) h)

theorem trim {text : Text} (h : Nested apart text) : Nested apart (Text.trim text) := by
  obtain ⟨before, after, hb, ha, he⟩ := Text.exists_trim text
  rw [← he] at h
  exact of_append_blank ha (of_blank_append hb h)

end Nested

theorem cut?_plain {c : Char} (hc : Plain c) (top : Bracket) (below : List Bracket) (rest : Text) :
    cut? (top :: below) (c :: rest) = (cut? (top :: below) rest).map (Prod.map (c :: ·) id) := by
  rw [cut?, step_plain hc]

theorem cut?_opener (b top : Bracket) (below : List Bracket) (rest : Text) :
    cut? (top :: below) (b.opener :: rest) =
      (cut? (b :: top :: below) rest).map (Prod.map (b.opener :: ·) id) := by
  rw [cut?, step_opener]

theorem cut?_closer_inner (b top : Bracket) (below : List Bracket) (rest : Text) :
    cut? (b :: top :: below) (b.closer :: rest) =
      (cut? (top :: below) rest).map (Prod.map (b.closer :: ·) id) := by
  rw [cut?, step_closer]

theorem cut?_closer (b : Bracket) (rest : Text) :
    cut? [b] (b.closer :: rest) = some ([], rest) := by
  rw [cut?, step_closer]

theorem closer_eq_of_cut? {b top : Bracket} {below : List Bracket} {rest : Text}
    {found : Text × Text} (h : cut? (top :: below) (b.closer :: rest) = some found) : b = top := by
  by_cases he : top = b
  · exact he.symm
  · have hs : step (top :: below) b.closer = none := by
      simp [step, ofOpener?_closer, he]
    rw [cut?, hs] at h
    cases h

/-- Reading a nested text opens and closes nothing of what is open around it. -/
theorem cut?_nested {apart : List Char} {inside : Text} (h : Nested apart inside) (top : Bracket)
    (below : List Bracket) (rest : Text) :
    cut? (top :: below) (inside ++ rest) =
      (cut? (top :: below) rest).map (Prod.map (inside ++ ·) id) := by
  induction h generalizing top below rest with
  | nil =>
    rw [List.nil_append]
    cases cut? (top :: below) rest <;> rfl
  | @plain _ c _ hc _ _ ih =>
    rw [List.cons_append, cut?_plain hc, ih, Option.map_map]
    rfl
  | @group _ inside later b _ _ ihi ihr =>
    rw [List.cons_append, List.append_assoc, cut?_opener, ihi, List.cons_append,
      cut?_closer_inner, ihr, Option.map_map, Option.map_map, Option.map_map]
    congr 1
    funext found
    simp [Prod.map]

theorem cut?_nested_closer {apart : List Char} {inside : Text} (h : Nested apart inside)
    (b : Bracket) (rest : Text) : cut? [b] (inside ++ b.closer :: rest) = some (inside, rest) := by
  rw [cut?_nested h, cut?_closer]
  simp

/-- What closes the innermost of the open brackets comes after a nested text. -/
theorem exists_nested_of_cut? {n : Nat} {top : Bracket} {below : List Bracket} {text : Text}
    {found : Text × Text} (hn : text.length ≤ n) (h : cut? (top :: below) text = some found) :
    ∃ inner rest, Nested [] inner ∧ text = inner ++ top.closer :: rest ∧
      (below ≠ [] → ∃ later, cut? below rest = some later) := by
  induction n generalizing top below text found with
  | zero =>
    obtain rfl := List.length_eq_zero_iff.1 (Nat.le_zero.1 hn)
    cases h
  | succ n ih =>
    cases text with
    | nil => cases h
    | cons c text =>
      rw [List.length_cons] at hn
      rcases bracket_cases c with ⟨b, rfl⟩ | ⟨b, rfl⟩ | hc
      · rw [cut?_opener] at h
        obtain ⟨found, h, -⟩ := Option.map_eq_some_iff.1 h
        obtain ⟨inner, more, hi, rfl, ho⟩ := ih (by omega) h
        obtain ⟨later, hl⟩ := ho (List.cons_ne_nil _ _)
        rw [List.length_append, List.length_cons] at hn
        obtain ⟨next, rest, hx, rfl, hb⟩ := ih (by omega) hl
        refine ⟨b.opener :: (inner ++ b.closer :: next), rest, .group b hi hx, ?_, hb⟩
        simp
      · obtain rfl := closer_eq_of_cut? h
        refine ⟨[], text, .nil, rfl, fun hb => ?_⟩
        obtain ⟨next, below, rfl⟩ := List.exists_cons_of_ne_nil hb
        rw [cut?_closer_inner] at h
        obtain ⟨later, h, -⟩ := Option.map_eq_some_iff.1 h
        exact ⟨later, h⟩
      · rw [cut?_plain hc] at h
        obtain ⟨found, h, -⟩ := Option.map_eq_some_iff.1 h
        obtain ⟨inner, rest, hi, rfl, hb⟩ := ih (by omega) h
        exact ⟨c :: inner, rest, .plain hc (List.not_mem_nil) hi, rfl, hb⟩

/-- A bracket is closed by the bracket of its kind that follows a nested text. -/
theorem cut?_eq_some_iff {b : Bracket} {text inside after : Text} :
    cut? [b] text = some (inside, after) ↔
      Nested [] inside ∧ text = inside ++ b.closer :: after := by
  constructor
  · intro h
    obtain ⟨inner, rest, hi, rfl, -⟩ := exists_nested_of_cut? (Nat.le_refl _) h
    rw [cut?_nested_closer hi] at h
    obtain ⟨rfl, rfl⟩ := Prod.mk.inj (Option.some.inj h)
    exact ⟨hi, rfl⟩
  · rintro ⟨hi, rfl⟩
    exact cut?_nested_closer hi b after

end DocTypes.Bracket
