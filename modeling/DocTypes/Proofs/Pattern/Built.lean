import DocTypes.Proofs.RoundTrip

set_option autoImplicit false

/-!
# Canonical text as a part of other text

The canonical text of a pattern that a text compiles to is nested and has no blank at either end,
even if the resolver changes its answers while the text is compiled.
-/

namespace DocTypes

open DocTypes.Bracket

namespace Grammar

variable {denotes : Text → Pattern → Prop} {separator : Char}

theorem trimmed_intercalate (hs : Text.isBlank separator = false) {parts : List Text}
    (h : ∀ part ∈ parts, part ≠ [] ∧ Text.Trimmed part) :
    Text.Trimmed ([separator].intercalate parts) ∧
      (parts ≠ [] → [separator].intercalate parts ≠ []) := by
  induction parts with
  | nil => exact ⟨⟨by simp, by simp⟩, fun hn => absurd rfl hn⟩
  | cons part more ih =>
    obtain ⟨⟨hne, ht⟩, hm⟩ := List.forall_mem_cons.1 h
    cases more with
    | nil =>
      rw [List.intercalate_singleton]
      exact ⟨ht, fun _ => hne⟩
    | cons next more =>
      obtain ⟨hr, hn⟩ := ih hm
      rw [List.intercalate_cons_cons]
      have hl := Text.trimmed_append hne ht (List.cons_ne_nil separator [])
        (Text.trimmed_singleton hs)
      exact ⟨Text.trimmed_append (by simp) hl (hn (List.cons_ne_nil next more)) hr, by simp⟩

theorem trimmed_text_of_wellFormed (hd : ∀ name p, denotes name p → p.text = name) {p : Pattern}
    (h : p.WellFormed denotes) : Text.Trimmed p.text := by
  induction h with
  | any => exact ⟨by simp [Pattern.text], by simp [Pattern.text]⟩
  | name _ ht _ hp =>
    rw [hd _ _ hp]
    exact ht
  | list => exact trimmed_bracketed .square _
  | set => exact trimmed_bracketed .angle _
  | tuple => exact trimmed_bracketed .round _
  | record => exact trimmed_bracketed .curly _
  | map => exact trimmed_bracketed .curly _
  | @union ps _ _ hn hw ih =>
    refine (trimmed_intercalate rfl fun part hp => ?_).1
    rw [Pattern.texts_eq_map] at hp
    obtain ⟨p, hm, rfl⟩ := List.mem_map.1 hp
    refine ⟨?_, ih p hm⟩
    intro he
    have hb := (derives_text_of_wellFormed hd (hw p hm)).2 (hn p hm)
    rw [he] at hb
    exact hb Text.blank_nil

end Grammar

namespace Scope

/-- At some moment some text compiles to the pattern. -/
def Builds (scope : Scope) (p : Pattern) : Prop :=
  ∃ moment text, scope.patternAt? moment text = .ok p

variable {scope : Scope} {p : Pattern}

theorem Builds.wellFormed_bare (h : scope.Builds p) :
    p.bare.WellFormed fun name q => q = .unresolved name := by
  obtain ⟨moment, text, h⟩ := h
  have hb := scope.patternAt?_bare moment text
  rw [h] at hb
  refine (Grammar.derives_of_fill (fun _ => rfl) hb.symm).wellFormed ?_
  rintro name - ⟨⟩

theorem Builds.trimmed_text (h : scope.Builds p) : Text.Trimmed p.text := by
  rw [← p.text_bare]
  refine Grammar.trimmed_text_of_wellFormed ?_ h.wellFormed_bare
  rintro name q rfl
  rfl

theorem Builds.nested_text (h : scope.Builds p) : Nested [] p.text := by
  rw [← p.text_bare]
  refine ((Grammar.derives_text_of_wellFormed ?_ h.wellFormed_bare).1.nested).mono ?_
  · rintro name q rfl
    rfl
  · exact List.forall_mem_nil _

end Scope

end DocTypes
