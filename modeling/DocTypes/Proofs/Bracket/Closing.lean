import DocTypes.Proofs.Bracket.Nesting
import DocTypes.Proofs.Text.Places

set_option autoImplicit false

/-!
# Closing brackets

Asked about a byte at which a bracket opens, the search for its end finds the one place at which a
bracket of the same kind stands behind a nested text, and says that the bracket is unmatched if
there is none. About any other byte it says that no bracket opens there.
-/

namespace DocTypes.Bracket

open DocTypes.Text (byteLength StandsAt InsideChar)

/-- A bracket opens at the first byte and a bracket of its kind stands at the second, and between
them the text is nested. -/
def Encloses (text : Text) (opening closing : Nat) : Prop :=
  ∃ (b : Bracket) (before inside after : Text),
    text = before ++ b.opener :: (inside ++ b.closer :: after) ∧ Nested [] inside ∧
      byteLength before = opening ∧ byteLength (before ++ b.opener :: inside) = closing

theorem utf8Size_opener (b : Bracket) : b.opener.utf8Size = 1 := by cases b <;> rfl

theorem utf8Size_closer (b : Bracket) : b.closer.utf8Size = 1 := by cases b <;> rfl

/-- A text is nested if putting it into brackets closes them at its end. -/
theorem nested_iff_cut? (b : Bracket) (text : Text) :
    Nested [] text ↔ cut? [b] (text ++ [b.closer]) = some (text, []) := by
  rw [cut?_eq_some_iff, and_iff_left rfl]

instance (text : Text) : Decidable (Nested [] text) :=
  decidable_of_iff _ (nested_iff_cut? square text).symm

variable {text : Text} {index opening closing : Nat}

theorem findClose_of_cut? {b : Bracket} {rest inside after : Text}
    (h : cut? [b] rest = some (inside, after)) (before : Text) :
    findClose (before ++ b.opener :: rest) (byteLength before) =
      .ok (byteLength (before ++ b.opener :: inside)) := by
  simp only [findClose, Text.dropBytes?_append, ofOpener?_opener, h, Text.byteLength_append,
    Text.byteLength_cons, utf8Size_opener, Nat.add_assoc]

theorem findClose_of_cut?_eq_none {b : Bracket} {rest : Text} (h : cut? [b] rest = none)
    (before : Text) : findClose (before ++ b.opener :: rest) (byteLength before) =
      .error (.unmatched (before ++ b.opener :: rest)) := by
  simp only [findClose, Text.dropBytes?_append, ofOpener?_opener, h]

theorem findClose_of_not_opener (h : ∀ b : Bracket, ¬ StandsAt text index b.opener) :
    findClose text index = .error (.noOpener text index) := by
  cases hd : Text.dropBytes? text index with
  | none => simp only [findClose, hd]
  | some later =>
    cases later with
    | nil => simp only [findClose, hd]
    | cons c rest =>
      obtain ⟨before, rfl, rfl⟩ := Text.dropBytes?_eq_some hd
      cases ho : ofOpener? c with
      | none => simp only [findClose, hd, ho]
      | some b =>
        obtain rfl := ofOpener?_eq_some.1 ho
        exact absurd (Text.standsAt_append before b.opener rest) (h b)

theorem Encloses.standsAt (h : Encloses text opening closing) :
    ∃ b : Bracket, StandsAt text opening b.opener ∧ StandsAt text closing b.closer := by
  obtain ⟨b, before, inside, after, rfl, -, rfl, rfl⟩ := h
  refine ⟨b, Text.standsAt_append .., ?_⟩
  have hc := Text.standsAt_append (before ++ b.opener :: inside) b.closer after
  rwa [List.append_assoc, List.cons_append] at hc

theorem Encloses.findClose (h : Encloses text opening closing) :
    findClose text opening = .ok closing := by
  obtain ⟨b, before, inside, after, rfl, hi, rfl, rfl⟩ := h
  exact findClose_of_cut? (cut?_nested_closer hi b after) before

/-- All that the search can come to. -/
theorem findClose_cases (text : Text) (index : Nat) :
    (∃ closing, Encloses text index closing ∧ findClose text index = .ok closing) ∨
    ((∃ b : Bracket, StandsAt text index b.opener) ∧ (∀ closing, ¬ Encloses text index closing) ∧
      findClose text index = .error (.unmatched text)) ∨
    ((∀ b : Bracket, ¬ StandsAt text index b.opener) ∧
      findClose text index = .error (.noOpener text index)) := by
  by_cases h : ∃ b : Bracket, StandsAt text index b.opener
  · obtain ⟨b, before, rest, rfl, rfl⟩ := h
    cases hc : cut? [b] rest with
    | none =>
      have hf := findClose_of_cut?_eq_none hc before
      refine .inr (.inl ⟨⟨b, Text.standsAt_append ..⟩, fun closing he => ?_, hf⟩)
      rw [he.findClose] at hf
      cases hf
    | some found =>
      obtain ⟨inside, after⟩ := found
      obtain ⟨hi, rfl⟩ := cut?_eq_some_iff.1 hc
      have he : Encloses (before ++ b.opener :: (inside ++ b.closer :: after)) (byteLength before)
          (byteLength (before ++ b.opener :: inside)) :=
        ⟨b, before, inside, after, rfl, hi, rfl, rfl⟩
      exact .inl ⟨_, he, he.findClose⟩
  · rw [not_exists] at h
    exact .inr (.inr ⟨h, findClose_of_not_opener h⟩)

theorem findClose_eq_ok_iff : findClose text opening = .ok closing ↔
    Encloses text opening closing := by
  refine ⟨fun h => ?_, Encloses.findClose⟩
  rcases findClose_cases text opening with ⟨found, he, hf⟩ | ⟨-, -, hf⟩ | ⟨-, hf⟩
  · rw [h] at hf
    obtain rfl := Except.ok.inj hf
    exact he
  · rw [h] at hf
    cases hf
  · rw [h] at hf
    cases hf

/-- Where no bracket opens. -/
theorem not_opener_iff : (∀ b : Bracket, ¬ StandsAt text index b.opener) ↔
    byteLength text ≤ index ∨ InsideChar text index ∨
      ∃ c, StandsAt text index c ∧ ∀ b : Bracket, c ≠ b.opener := by
  constructor
  · intro h
    refine (Text.place_cases text index).imp_right (Or.imp_right ?_)
    rintro ⟨c, hc⟩
    exact ⟨c, hc, fun b he => h b (he ▸ hc)⟩
  · rintro (hl | hi | ⟨c, hc, hn⟩) b hb
    · have := hb.lt
      omega
    · exact hb.not_insideChar hi
    · exact hn b (hc.eq hb)

/-- The search finds the end of a bracket exactly when there is one, and there is never more than
one. It says that no bracket opens exactly at the places where none does, and at all other places
that have no end to find it says that the bracket is unmatched. -/
theorem findClose_eq_iff (text : Text) (index : Nat) :
    (∀ closing, findClose text index = .ok closing ↔ Encloses text index closing) ∧
    (∀ closing other, Encloses text index closing → Encloses text index other →
      closing = other) ∧
    (findClose text index = .error (.noOpener text index) ↔
      byteLength text ≤ index ∨ InsideChar text index ∨
        ∃ c, StandsAt text index c ∧ ∀ b : Bracket, c ≠ b.opener) ∧
    (findClose text index = .error (.unmatched text) ↔
      (∃ b : Bracket, StandsAt text index b.opener) ∧ ∀ closing, ¬ Encloses text index closing) ∧
    ∀ f, findClose text index = .error f → f = .noOpener text index ∨ f = .unmatched text := by
  refine ⟨fun closing => findClose_eq_ok_iff, fun closing other h k => ?_, ?_⟩
  · have hf := h.findClose
    rw [k.findClose] at hf
    exact (Except.ok.inj hf).symm
  · rw [← not_opener_iff]
    rcases findClose_cases text index with ⟨closing, he, hf⟩ | ⟨ho, hn, hf⟩ | ⟨ho, hf⟩
    · obtain ⟨b, hb, -⟩ := he.standsAt
      rw [hf]
      exact ⟨iff_of_false nofun fun h => h b hb, iff_of_false nofun fun h => h.2 closing he, nofun⟩
    · obtain ⟨b, hb⟩ := ho
      rw [hf]
      refine ⟨iff_of_false nofun fun h => h b hb, iff_of_true rfl ⟨⟨b, hb⟩, hn⟩, ?_⟩
      rintro f ⟨⟩
      exact .inr rfl
    · rw [hf]
      refine ⟨iff_of_true rfl ho, iff_of_false nofun fun h => ?_, ?_⟩
      · obtain ⟨b, hb⟩ := h.1
        exact ho b hb
      · rintro f ⟨⟩
        exact .inl rfl

/-- Places are counted in bytes, and no bracket of another kind closes a bracket. -/
example : findClose "é(‖[])".toList 2 = .ok 8 ∧
    findClose "(]".toList 0 = .error (.unmatched "(]".toList) := by decide

end DocTypes.Bracket
