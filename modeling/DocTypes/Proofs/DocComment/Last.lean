import DocTypes.Proofs.DocComment

set_option autoImplicit false

/-!
# The last declaration

A line declares at most one type for a name, since the bracket after the name can be closed in one
way only. Of the lines that come after a blank one, the last that declares a type for the name says
which type the name has, and nothing else in the doc comment has a say.
-/

namespace DocTypes.DocComment

open DocTypes.Bracket

/-- After its indent the line goes on with the name and, in round brackets before a colon, with a
nested text, which is the type with blanks around. -/
def Declares (name line type : Text) : Prop :=
  ∃ inside after, Nested [] inside ∧
    Text.trimStart line = name ++ ' ' :: '(' :: (inside ++ ')' :: ':' :: after) ∧
    type = Text.trim inside

/-- After a blank line of the doc comment comes this line, with these lines behind it. -/
def InBody (doc line : Text) (later : List Text) : Prop :=
  ∃ before blank between,
    Text.lines doc = before ++ blank :: (between ++ line :: later) ∧ Text.Blank blank

/-- The lines after the first blank one. -/
def afterBlank (lines : List Text) : List Text :=
  (lines.dropWhile fun line => Text.trim line ≠ []).drop 1

variable {doc name line type : Text} {before rest : List Text}

theorem afterBlank_cons_of_blank (h : Text.Blank line) : afterBlank (line :: rest) = rest := by
  have ht : Text.trim line = [] := Text.trim_eq_nil_iff.2 h
  simp [afterBlank, ht]

theorem afterBlank_cons_of_not_blank (h : ¬ Text.Blank line) :
    afterBlank (line :: rest) = afterBlank rest := by
  have ht : Text.trim line ≠ [] := mt Text.trim_eq_nil_iff.1 h
  simp [afterBlank, ht]

theorem afterBlank_append_of_not_blank (h : ∀ line ∈ before, ¬ Text.Blank line) :
    afterBlank (before ++ rest) = afterBlank rest := by
  induction before with
  | nil => rfl
  | cons line more ih =>
    obtain ⟨hl, hm⟩ := List.forall_mem_cons.1 h
    rw [List.cons_append, afterBlank_cons_of_not_blank hl, ih hm]

theorem afterBlank_append_of_blank (h : ∃ line ∈ before, Text.Blank line) :
    afterBlank (before ++ rest) = afterBlank before ++ rest := by
  induction before with
  | nil => simp at h
  | cons line more ih =>
    by_cases hl : Text.Blank line
    · rw [List.cons_append, afterBlank_cons_of_blank hl, afterBlank_cons_of_blank hl]
    · rw [List.cons_append, afterBlank_cons_of_not_blank hl, afterBlank_cons_of_not_blank hl]
      exact ih (by simpa [hl] using h)

theorem exists_blank_of_mem_afterBlank {lines : List Text} (h : line ∈ afterBlank lines) :
    ∃ summary blank, lines = summary ++ blank :: afterBlank lines ∧ Text.Blank blank := by
  induction lines with
  | nil => cases h
  | cons first more ih =>
    by_cases hf : Text.Blank first
    · rw [afterBlank_cons_of_blank hf]
      exact ⟨[], first, rfl, hf⟩
    · rw [afterBlank_cons_of_not_blank hf] at h ⊢
      obtain ⟨summary, blank, he, hb⟩ := ih h
      exact ⟨first :: summary, blank, congrArg (first :: ·) he, hb⟩

theorem inBody_iff {later : List Text} :
    InBody doc line later ↔ ∃ between, body doc = between ++ line :: later := by
  constructor
  · rintro ⟨before, blank, between, hl, hb⟩
    refine ⟨afterBlank (before ++ [blank]) ++ between, ?_⟩
    change afterBlank (Text.lines doc) = _
    rw [hl, List.append_cons, afterBlank_append_of_blank ⟨blank, by simp, hb⟩, List.append_assoc]
  · rintro ⟨between, hbody⟩
    have hm : line ∈ afterBlank (Text.lines doc) := by
      change line ∈ body doc
      rw [hbody]
      exact List.mem_append_right _ (List.mem_cons_self ..)
    obtain ⟨summary, blank, hl, hb⟩ := exists_blank_of_mem_afterBlank hm
    refine ⟨summary, blank, between, ?_, hb⟩
    rw [← hbody]
    exact hl

theorem declaredIn?_eq_none_iff :
    declaredIn? name line = none ↔ ∀ type, ¬ Declares name line type :=
  Option.eq_none_iff_forall_ne_some.trans
    (forall_congr' fun _ => not_congr declaredIn?_eq_some_iff)

theorem declared?_eq_some_iff : declared? doc name = some type ↔
    ∃ line later, InBody doc line later ∧ Declares name line type ∧
      ∀ other ∈ later, ∀ type, ¬ Declares name other type := by
  rw [declared?, List.getLast?_filterMap, List.findSome?_eq_some_iff]
  constructor
  · rintro ⟨reversed, line, between, he, hd, hn⟩
    refine ⟨line, reversed.reverse, inBody_iff.2 ⟨between.reverse, ?_⟩,
      declaredIn?_eq_some_iff.1 hd, fun other ho => ?_⟩
    · rw [← (body doc).reverse_reverse, he]
      simp
    · exact declaredIn?_eq_none_iff.1 (hn other (List.mem_reverse.1 ho))
  · rintro ⟨line, later, hb, hd, hn⟩
    obtain ⟨between, he⟩ := inBody_iff.1 hb
    refine ⟨later.reverse, line, between.reverse, ?_, declaredIn?_eq_some_iff.2 hd,
      fun other ho => ?_⟩
    · rw [he]
      simp
    · exact declaredIn?_eq_none_iff.2 (hn other (List.mem_reverse.1 ho))

theorem declared?_eq_none_iff : declared? doc name = none ↔
    ∀ line later, InBody doc line later → ∀ type, ¬ Declares name line type := by
  rw [declared?, List.getLast?_eq_none_iff, List.filterMap_eq_nil_iff]
  constructor
  · intro h line later hb
    obtain ⟨between, he⟩ := inBody_iff.1 hb
    refine declaredIn?_eq_none_iff.1 (h line ?_)
    rw [he]
    exact List.mem_append_right _ (List.mem_cons_self ..)
  · intro h line hm
    obtain ⟨between, later, he⟩ := List.append_of_mem hm
    exact declaredIn?_eq_none_iff.2 (h line later (inBody_iff.2 ⟨between, he⟩))

/-- A line of the summary does not count, nor does one of the body that declares nothing for the
name. -/
theorem declared?_eq_of_lines {other : Text} {after : List Text}
    (hd : Text.lines doc = before ++ line :: after) (ho : Text.lines other = before ++ after)
    (h : (∀ earlier ∈ before, ¬ Text.Blank earlier) ∧ ¬ Text.Blank line ∨
      (∃ blank ∈ before, Text.Blank blank) ∧ ∀ type, ¬ Declares name line type) :
    declared? doc name = declared? other name := by
  change ((afterBlank (Text.lines doc)).filterMap _).getLast? =
    ((afterBlank (Text.lines other)).filterMap _).getLast?
  rw [hd, ho]
  rcases h with ⟨hb, hl⟩ | ⟨hb, hl⟩
  · rw [afterBlank_append_of_not_blank hb, afterBlank_append_of_not_blank hb,
      afterBlank_cons_of_not_blank hl]
  · rw [afterBlank_append_of_blank hb, afterBlank_append_of_blank hb, List.filterMap_append,
      List.filterMap_cons, declaredIn?_eq_none_iff.2 hl, ← List.filterMap_append]

/-- A line declares one type for a name at most. The type of a name is the one that the last of the
declaring lines after a blank line declares, and a name that no such line declares has none. So what
the doc comment says besides may as well be left out. -/
theorem declared?_last (doc name : Text) :
    (∀ line type other, Declares name line type → Declares name line other → type = other) ∧
    (∀ type, declared? doc name = some type ↔
      ∃ line later, InBody doc line later ∧ Declares name line type ∧
        ∀ other ∈ later, ∀ type, ¬ Declares name other type) ∧
    (declared? doc name = none ↔
      ∀ line later, InBody doc line later → ∀ type, ¬ Declares name line type) ∧
    ∀ (other line : Text) (before after : List Text),
      Text.lines doc = before ++ line :: after → Text.lines other = before ++ after →
      ((∀ earlier ∈ before, ¬ Text.Blank earlier) ∧ ¬ Text.Blank line ∨
        (∃ blank ∈ before, Text.Blank blank) ∧ ∀ type, ¬ Declares name line type) →
      declared? doc name = declared? other name := by
  refine ⟨fun line type other ht ho => ?_, fun type => declared?_eq_some_iff,
    declared?_eq_none_iff, fun other line before after hd ho h => declared?_eq_of_lines hd ho h⟩
  have hd := declaredIn?_eq_some_iff.2 ht
  rw [declaredIn?_eq_some_iff.2 ho] at hd
  exact (Option.some.inj hd).symm

/-- The type goes on to the bracket that closes the first one, whatever is in it. What stands in the
summary and what is not closed does not count. -/
example : declared? "a (s): b\n\na ( {x: (i): j} ): c\n a (int: d\nab (u): e".toList "a".toList =
    some "{x: (i): j}".toList := by
  decide +kernel

end DocTypes.DocComment
