import DocTypes.Text.Utf8

set_option autoImplicit false

/-!
# Places in a text

A byte of a text is the first of a character or a later one of it, and never both. What stands from
one place to another is what was put between texts of these lengths.
-/

namespace DocTypes.Text

/-- The characters that end within the first `count` bytes. -/
def takeBytes : Text → Nat → Text
  | [], _ => []
  | c :: rest, count =>
    if c.utf8Size ≤ count then c :: takeBytes rest (count - c.utf8Size) else []

/-- The characters from byte `start` on and before byte `stop`. -/
def slice (text : Text) (start stop : Nat) : Text :=
  takeBytes ((dropBytes? text start).getD []) (stop - start)

/-- The character begins at that byte. -/
def StandsAt (text : Text) (place : Nat) (c : Char) : Prop :=
  ∃ before after, text = before ++ c :: after ∧ byteLength before = place

/-- The byte is one of a character, and not its first. -/
def InsideChar (text : Text) (place : Nat) : Prop :=
  ∃ before c after, text = before ++ c :: after ∧ byteLength before < place ∧
    place < byteLength before + c.utf8Size

variable {text : Text} {place : Nat} {c d : Char}

theorem takeBytes_append (before after : Text) :
    takeBytes (before ++ after) (byteLength before) = before := by
  induction before with
  | nil =>
    cases after with
    | nil => rfl
    | cons c rest =>
      have h := c.utf8Size_pos
      rw [List.nil_append, byteLength_nil, takeBytes, if_neg (by omega)]
  | cons c rest ih =>
    rw [List.cons_append, byteLength_cons, takeBytes, if_pos (Nat.le_add_right _ _),
      Nat.add_sub_cancel_left, ih]

theorem slice_append (before middle after : Text) :
    slice (before ++ (middle ++ after)) (byteLength before) (byteLength (before ++ middle)) =
      middle := by
  rw [slice, dropBytes?_append, Option.getD_some, byteLength_append, Nat.add_sub_cancel_left,
    takeBytes_append]

/-- The bytes before a place tell the characters before it. -/
theorem eq_of_byteLength_eq {before rest before' rest' : Text}
    (h : before ++ rest = before' ++ rest') (hl : byteLength before = byteLength before') :
    before = before' ∧ rest = rest' := by
  have hb : before = before' := by
    rw [← takeBytes_append before rest, h, hl, takeBytes_append]
  subst hb
  exact ⟨rfl, List.append_cancel_left h⟩

theorem standsAt_append (before : Text) (c : Char) (after : Text) :
    StandsAt (before ++ c :: after) (byteLength before) c := ⟨before, after, rfl, rfl⟩

theorem StandsAt.lt (h : StandsAt text place c) : place < byteLength text := by
  obtain ⟨before, after, rfl, rfl⟩ := h
  have hc := c.utf8Size_pos
  rw [byteLength_append, byteLength_cons]
  omega

theorem StandsAt.eq (h : StandsAt text place c) (k : StandsAt text place d) : c = d := by
  obtain ⟨before, after, rfl, rfl⟩ := h
  obtain ⟨before', after', he, hl⟩ := k
  obtain ⟨-, hr⟩ := eq_of_byteLength_eq he hl.symm
  exact (List.cons.inj hr).1

theorem StandsAt.not_insideChar (h : StandsAt text place c) : ¬ InsideChar text place := by
  obtain ⟨before, after, rfl, rfl⟩ := h
  rintro ⟨before', d, after', he, hl, hr⟩
  rcases List.append_eq_append_iff.1 he with ⟨more, rfl, -⟩ | ⟨more, rfl, hm⟩
  · rw [byteLength_append] at hl
    omega
  · -- what is left of the text before the place begins with the other character
    cases more with
    | nil =>
      rw [List.append_nil] at hl
      omega
    | cons e more =>
      obtain ⟨rfl, -⟩ := List.cons.inj hm
      rw [byteLength_append, byteLength_cons] at hr
      omega

/-- All that can be said of a place. -/
theorem place_cases (text : Text) (place : Nat) :
    byteLength text ≤ place ∨ InsideChar text place ∨ ∃ c, StandsAt text place c := by
  induction text generalizing place with
  | nil => exact .inl (Nat.zero_le _)
  | cons c rest ih =>
    have hc := c.utf8Size_pos
    by_cases h0 : place = 0
    · subst h0
      exact .inr (.inr ⟨c, standsAt_append [] c rest⟩)
    by_cases hs : place < c.utf8Size
    · refine .inr (.inl ⟨[], c, rest, rfl, ?_, ?_⟩)
      · rw [byteLength_nil]
        omega
      · rwa [byteLength_nil, Nat.zero_add]
    · rcases ih (place - c.utf8Size) with h | ⟨before, d, after, rfl, hl, hr⟩ |
        ⟨d, before, after, rfl, hl⟩
      · left
        rw [byteLength_cons]
        omega
      · refine .inr (.inl ⟨c :: before, d, after, rfl, ?_, ?_⟩)
        · rw [byteLength_cons]
          omega
        · rw [byteLength_cons]
          omega
      · refine .inr (.inr ⟨d, c :: before, after, rfl, ?_⟩)
        rw [byteLength_cons]
        omega

end DocTypes.Text
