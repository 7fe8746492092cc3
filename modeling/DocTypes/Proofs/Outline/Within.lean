import DocTypes.Proofs.Outline.Fill
import DocTypes.Proofs.Outline.Form

set_option autoImplicit false

/-!
# Expressions within expressions

Reading an expression reads the texts of its parts, and of the parts of these. All of them are
stretches of the text, and what is true of a text and passes to its tokens and to what its brackets
enclose is true of them. A fault is found in one of them, and it quotes that one, trimmed.
-/

namespace DocTypes

/-- The expression that a fault quotes. The other faults are about a question that was put wrongly
and not about an expression. -/
def Fault.quoted? : Fault → Option Text
  | unmatched text => some text
  | trailing text => some text
  | unexpected text _ => some text
  | malformed text _ => some text
  | noOpener _ _ => none
  | badSeparator _ => none

theorem Text.trim_isInfix (text : Text) : trim text <:+: text := by
  obtain ⟨before, after, -, -, he⟩ := exists_trim text
  exact ⟨before, after, by rw [List.append_assoc, he]⟩

namespace Bracket

variable {separator : Char}

theorem isInfix_intercalate {parts : List Text} {part : Text} (h : part ∈ parts) :
    part <:+: [separator].intercalate parts := by
  induction parts with
  | nil => cases h
  | cons first more ih =>
    cases more with
    | nil =>
      rw [List.intercalate_singleton]
      obtain rfl := List.mem_singleton.1 h
      exact List.infix_refl part
    | cons next more =>
      rw [List.intercalate_cons_cons, List.append_assoc]
      rcases List.mem_cons.1 h with rfl | h
      · exact (List.prefix_append ..).isInfix
      · exact (ih h).trans ((List.suffix_append _ _).trans (List.suffix_append _ _)).isInfix

theorem isInfix_of_mem_tokens {text token : Text} (h : token ∈ tokens separator text) :
    token <:+: text := by
  obtain ⟨-, piece, hp, rfl⟩ := exists_piece_of_mem_tokens h
  have hi : piece <:+: [separator].intercalate (pieces separator 0 text) := isInfix_intercalate hp
  rw [intercalate_pieces] at hi
  exact (Text.trim_isInfix piece).trans hi

end Bracket

namespace Form

open DocTypes.Bracket

/-- What passes from a text to every text that is read in the course of reading it. -/
structure Hereditary (P : Text → Prop) : Prop where
  trim {text : Text} (h : P text) : P (Text.trim text)
  token {separator : Char} {text token : Text} (h : P text)
    (ht : token ∈ tokens separator text) : P token
  inside {b : Bracket} {inside : Text} (hn : Nested [] inside)
    (h : P (b.opener :: (inside ++ [b.closer]))) : P inside

theorem hereditary_infix (whole : Text) : Hereditary fun text => text <:+: whole where
  trim h := (Text.trim_isInfix _).trans h
  token h ht := (isInfix_of_mem_tokens ht).trans h
  inside _ h := by
    refine List.IsInfix.trans ?_ h
    exact (List.prefix_append ..).isInfix.trans (List.suffix_cons ..).isInfix

theorem hereditary_nested : Hereditary (Nested []) where
  trim h := h.trim
  token h ht := nested_of_mem_tokens h ht
  inside hn _ := hn

namespace Hereditary

variable {P : Text → Prop} {text : Text}

theorem of_mem_pairs (h : Hereditary P) {found : List (Text × Text)} {pair : Text × Text}
    (ht : P text) (hf : pairs (tokens ',' text) = .ok found) (hp : pair ∈ found) :
    P pair.1 ∧ P pair.2 := by
  obtain ⟨entry, he, hs⟩ := tokens_of_mem_pairs hf hp
  have hw := h.token ht he
  constructor
  · exact h.token hw (hs ▸ List.mem_cons_self ..)
  · exact h.token hw (hs ▸ List.mem_cons_of_mem _ (List.mem_cons_self ..))

theorem of_mem_ofInside (h : Hereditary P) {whole part : Text} {b : Bracket} (ht : P text)
    (hp : part ∈ (ofInside whole b text).parts) : P part := by
  cases b with
  | square => rwa [List.mem_singleton.1 hp]
  | angle => rwa [List.mem_singleton.1 hp]
  | round => exact h.token ht hp
  | curly =>
    simp only [ofInside, ofBraces] at hp
    split at hp
    case h_1 => cases hp
    case h_2 key value hf =>
      obtain ⟨hk, hv⟩ := h.of_mem_pairs ht hf (List.mem_singleton_self _)
      simp only [parts, List.mem_cons, List.not_mem_nil, or_false] at hp
      rcases hp with rfl | rfl
      · exact hk
      · exact hv
    case h_3 found _ hf =>
      obtain ⟨pair, hm, rfl⟩ := List.mem_map.1 hp
      exact (h.of_mem_pairs ht hf hm).2

theorem of_mem_parts (h : Hereditary P) {part : Text} (ht : P text)
    (hp : part ∈ (ofText text).parts) : P part := by
  rcases ofText_cases text with
    ⟨-, hf⟩ | ⟨-, hf⟩ | ⟨-, ⟨c, rest, -, -, hf⟩ | ⟨b, rest, htr, hf⟩⟩
  · rw [hf] at hp
    cases hp
  · rw [hf] at hp
    exact h.token ht hp
  · rw [hf, parts_ofName] at hp
    cases hp
  · rw [hf] at hp
    rcases ofBracketed_cases (b.opener :: rest) b rest with ⟨inside, hn, rfl, ho⟩ | ho | ho
    · rw [ho] at hp
      have hw := h.trim ht
      rw [htr] at hw
      exact h.of_mem_ofInside (h.inside hn hw) hp
    · rw [ho] at hp
      cases hp
    · rw [ho] at hp
      cases hp

end Hereditary

/-- The first text is the second one, or it is read in the course of reading that one. -/
inductive Within : Text → Text → Prop where
  | self (text : Text) : Within text text
  | part {sub part text : Text} (hp : part ∈ (ofText text).parts) (h : Within sub part) :
    Within sub text

theorem Hereditary.of_within {P : Text → Prop} (h : Hereditary P) {sub text : Text}
    (hw : Within sub text) (ht : P text) : P sub := by
  induction hw with
  | self => exact ht
  | part hp _ ih => exact ih (h.of_mem_parts ht hp)

theorem exists_of_ofInside_fault {whole inside : Text} {b : Bracket} {f : Fault}
    (h : ofInside whole b inside = fault f) : ∃ entry, f = .malformed whole entry := by
  cases b with
  | curly =>
    simp only [ofInside, ofBraces] at h
    split at h
    case h_1 entry _ => exact ⟨entry, (Form.fault.inj h).symm⟩
    case h_2 => cases h
    case h_3 => cases h
  | _ => cases h

theorem ofBracketed_fault_cases {whole rest : Text} {b : Bracket} {f : Fault}
    (h : ofBracketed whole b rest = fault f) :
    (f = .unmatched whole ∧ ¬ Nested [] (b.opener :: rest)) ∨ f = .trailing whole ∨
      ∃ entry, f = .malformed whole entry := by
  rw [ofBracketed] at h
  cases hc : cut? [b] rest with
  | none =>
    rw [hc] at h
    refine .inl ⟨(Form.fault.inj h).symm, fun hn => ?_⟩
    obtain ⟨inside, after, hi, rfl, -⟩ := hn.of_opener_cons
    rw [cut?_nested_closer hi] at hc
    cases hc
  | some found =>
    obtain ⟨inside, after⟩ := found
    rw [hc] at h
    cases after with
    | nil => exact .inr (.inr (exists_of_ofInside_fault h))
    | cons d after => exact .inr (.inl (Form.fault.inj h).symm)

/-- A fault of a form is about the text that has the form, without the blanks around it. Brackets are
only said not to match where they do not. -/
theorem fault_cases {text : Text} {f : Fault} (h : ofText text = fault f) :
    Text.trim text ≠ [] ∧
      ((f = .unmatched (Text.trim text) ∧ ¬ Nested [] text) ∨
        f = .trailing (Text.trim text) ∨ (∃ found, f = .unexpected (Text.trim text) found) ∨
        ∃ entry, f = .malformed (Text.trim text) entry) := by
  rcases ofText_cases text with
    ⟨-, hf⟩ | ⟨-, hf⟩ | ⟨-, ⟨c, rest, ht, -, hf⟩ | ⟨b, rest, ht, hf⟩⟩
  · rw [hf] at h
    cases h
  · rw [hf] at h
    cases h
  · rw [hf] at h
    rw [ht]
    refine ⟨List.cons_ne_nil _ _, ?_⟩
    rcases ofName_cases (c :: rest) with ⟨-, hn⟩ | ⟨found, hn⟩
    · rw [hn] at h
      cases h
    · rw [hn] at h
      exact .inr (.inr (.inl ⟨found, (Form.fault.inj h).symm⟩))
  · rw [hf] at h
    rw [ht]
    refine ⟨List.cons_ne_nil _ _, ?_⟩
    rcases ofBracketed_fault_cases h with ⟨hu, hn⟩ | hl | hm
    · refine .inl ⟨hu, fun hs => hn ?_⟩
      have hw := hs.trim
      rwa [ht] at hw
    · exact .inr (.inl hl)
    · exact .inr (.inr (.inr hm))

theorem quoted_of_ofText {text : Text} {f : Fault} (h : ofText text = fault f) :
    f.quoted? = some (Text.trim text) := by
  rcases (fault_cases h).2 with ⟨rfl, -⟩ | rfl | ⟨found, rfl⟩ | ⟨entry, rfl⟩ <;> rfl

end Form

namespace Outline

variable {bind : Text → Pattern} {f : Fault}

theorem eq_error_of_map {α β : Type} {g : α → β} {result : Except Fault α}
    (h : result.map g = .error f) : result = .error f := by
  cases result with
  | error e => exact congrArg Except.error (Except.error.inj h)
  | ok a => cases h

theorem exists_of_fillEach_error {texts : List Text}
    (h : fillEach bind (texts.map read) = .error f) :
    ∃ text ∈ texts, (read text).fill bind = .error f := by
  induction texts with
  | nil => cases h
  | cons text more ih =>
    rw [List.map_cons, fillEach] at h
    split at h
    case h_1 =>
      obtain ⟨other, hm, ho⟩ := ih (eq_error_of_map h)
      exact ⟨other, List.mem_cons_of_mem _ hm, ho⟩
    case h_2 e he =>
      obtain rfl := Except.error.inj h
      exact ⟨text, List.mem_cons_self .., he⟩

theorem exists_of_fillFields_error {fields : List (Text × Text)}
    (h : fillFields bind (fields.map fun field => (field.1, read field.2)) = .error f) :
    ∃ text ∈ fields.map Prod.snd, (read text).fill bind = .error f := by
  induction fields with
  | nil => cases h
  | cons field more ih =>
    rw [List.map_cons, fillFields] at h
    split at h
    case h_1 =>
      obtain ⟨other, hm, ho⟩ := ih (eq_error_of_map h)
      exact ⟨other, List.mem_cons_of_mem _ hm, ho⟩
    case h_2 e he =>
      obtain rfl := Except.error.inj h
      exact ⟨field.2, List.mem_cons_self .., he⟩

theorem eq_fault_or_exists_part {form : Form} (h : (build read form).fill bind = .error f) :
    form = .fault f ∨ ∃ part ∈ form.parts, (read part).fill bind = .error f := by
  cases form with
  | blank => cases h
  | name n => cases h
  | union alternatives => exact .inr (exists_of_fillEach_error (eq_error_of_map h))
  | list element => exact .inr ⟨element, List.mem_singleton_self _, eq_error_of_map h⟩
  | tuple items => exact .inr (exists_of_fillEach_error (eq_error_of_map h))
  | set element => exact .inr ⟨element, List.mem_singleton_self _, eq_error_of_map h⟩
  | map key value =>
    rw [build, fill] at h
    split at h
    case h_1 =>
      have hm : value ∈ [key, value] := List.mem_cons_of_mem _ (List.mem_singleton_self _)
      exact .inr ⟨value, hm, eq_error_of_map h⟩
    case h_2 e he =>
      rw [h] at he
      exact .inr ⟨key, List.mem_cons_self .., he⟩
  | record fields => exact .inr (exists_of_fillFields_error (eq_error_of_map h))
  | fault g => exact .inl (congrArg Form.fault (Except.error.inj h))

/-- A fault that reading meets is the form of one of the texts that are read. -/
theorem exists_within_of_fill_error {text : Text} (h : (read text).fill bind = .error f) :
    ∃ sub, Form.Within sub text ∧ Form.ofText sub = .fault f := by
  induction hn : text.length using Nat.strongRecOn generalizing text with
  | ind n ih =>
    rw [read_eq] at h
    rcases eq_fault_or_exists_part h with hf | ⟨part, hp, he⟩
    · exact ⟨text, .self text, hf⟩
    · have hl : part.length < n := hn ▸ Form.length_part_lt hp
      obtain ⟨sub, hw, hf⟩ := ih part.length hl he rfl
      exact ⟨sub, .part hp hw, hf⟩

end Outline

end DocTypes
