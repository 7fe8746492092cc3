import DocTypes.Proofs.DocComment
import DocTypes.Proofs.Grammar.Soundness
import DocTypes.Proofs.Outline.Scan
import DocTypes.Proofs.Outline.Within

set_option autoImplicit false

/-!
# What faults tell

A fault says what is wrong and where. Brackets are reported not to match only in a text that is not
nested, and every text that has a pattern is nested. The expression that a fault quotes stands in
the text as it is quoted, and it has that fault by itself, in every scope.
-/

namespace DocTypes

theorem DocComment.nested_of_declared? {doc name type : Text}
    (h : declared? doc name = some type) : Bracket.Nested [] type := by
  obtain ⟨line, -, hl⟩ := List.mem_filterMap.1 (List.mem_of_getLast? h)
  obtain ⟨inside, -, hn, -, rfl⟩ := declaredIn?_eq_some_iff.1 hl
  exact hn.trim

namespace Scope

open DocTypes.Bracket

variable {scope : Scope} {moment : Nat} {text : Text} {f : Fault}

/-- Compiles the outline that is found by scanning. -/
def scannedAt? (scope : Scope) (start : Nat) (text : Text) : Except Fault Pattern :=
  ((Outline.scan text).compile (scope.bindNext start) {}).1

theorem scannedAt?_eq (scope : Scope) (start : Nat) (text : Text) :
    scope.scannedAt? start text = scope.patternAt? start text := by
  rw [scannedAt?, Outline.scan_eq_read, patternAt?_eq]

theorem patternAt?_eq_error_iff :
    scope.patternAt? moment text = .error f ↔
      (Outline.read text).fill .unresolved = .error f := by
  rw [← patternAt?_bare scope moment]
  cases scope.patternAt? moment text with
  | error g => exact Iff.rfl
  | ok p => exact iff_of_false (fun h => by cases h) (fun h => by cases h)

theorem nested_of_patternAt? {p : Pattern} (h : scope.patternAt? moment text = .ok p) :
    Nested [] text := by
  have hf : (Outline.read text).fill .unresolved = .ok p.bare := by
    rw [← patternAt?_bare scope moment, h]
    rfl
  exact (Grammar.derives_of_fill (fun _ => rfl) hf).nested.mono (List.forall_mem_nil _)

/-- What is at fault is one of the texts that are read. -/
theorem exists_within_of_patternAt? (h : scope.patternAt? moment text = .error f) :
    ∃ sub, Form.Within sub text ∧ Form.ofText sub = .fault f :=
  Outline.exists_within_of_fill_error (patternAt?_eq_error_iff.1 h)

theorem patternAt?_ne_unmatched (h : Nested [] text) (t : Text) :
    scope.patternAt? moment text ≠ .error (.unmatched t) := by
  intro he
  obtain ⟨sub, hw, hf⟩ := exists_within_of_patternAt? he
  have hn := Form.hereditary_nested.of_within hw h
  rcases (Form.fault_cases hf).2 with ⟨-, ho⟩ | hc | ⟨found, hc⟩ | ⟨entry, hc⟩
  · exact ho hn
  · cases hc
  · cases hc
  · cases hc

theorem exists_quoted_of_patternAt? (h : scope.patternAt? moment text = .error f) :
    ∃ t, f.quoted? = some t := by
  obtain ⟨sub, -, hf⟩ := exists_within_of_patternAt? h
  exact ⟨_, Form.quoted_of_ofText hf⟩

/-- Compiling is scanning for brackets and separators, and only nested texts have a pattern. The
scans are asked for places where a bracket opens and for single characters only. Brackets are not
reported to be unmatched in a nested text, and the types that a doc comment declares are nested. -/
theorem patternAt?_brackets (scope : Scope) (moment : Nat) (text : Text) :
    scope.scannedAt? moment text = scope.patternAt? moment text ∧
      (∀ p, scope.patternAt? moment text = .ok p → Nested [] text) ∧
      (∀ t index, scope.patternAt? moment text ≠ .error (.noOpener t index)) ∧
      (∀ separator, scope.patternAt? moment text ≠ .error (.badSeparator separator)) ∧
      (Nested [] text → ∀ t, scope.patternAt? moment text ≠ .error (.unmatched t)) ∧
      ∀ doc name, DocComment.declared? doc name = some text →
        ∀ t, scope.patternAt? moment text ≠ .error (.unmatched t) := by
  refine ⟨scannedAt?_eq scope moment text, fun _ => nested_of_patternAt?, fun t index h => ?_,
    fun separator h => ?_, patternAt?_ne_unmatched, fun doc name h => ?_⟩
  · obtain ⟨_, hq⟩ := exists_quoted_of_patternAt? h
    cases hq
  · obtain ⟨_, hq⟩ := exists_quoted_of_patternAt? h
    cases hq
  · exact patternAt?_ne_unmatched (DocComment.nested_of_declared? h)

/-- The expression that a fault quotes stands in the text, and compiling it by itself meets the same
fault, whatever its names denote. -/
theorem patternAt?_quoted (h : scope.patternAt? moment text = .error f) :
    ∃ t, f.quoted? = some t ∧ t ≠ [] ∧ Text.Trimmed t ∧ t <:+: text ∧
      ∀ (scope : Scope) (moment : Nat), scope.patternAt? moment t = .error f := by
  obtain ⟨sub, hw, hf⟩ := exists_within_of_patternAt? h
  have hi : sub <:+: text := (Form.hereditary_infix text).of_within hw (List.infix_refl text)
  refine ⟨Text.trim sub, Form.quoted_of_ofText hf, (Form.fault_cases hf).1, Text.trimmed_trim sub,
    (Text.trim_isInfix sub).trans hi, fun scope moment => ?_⟩
  rw [patternAt?_eq_error_iff, Outline.read_trim, Outline.read_of_form _ hf]
  rfl

theorem patternAt?_quoted_of_entry :
    let scope : Scope := ⟨.withBuiltins, none⟩
    let text := "[int | {a: b: c} ]".toList
    let f := Fault.malformed "{a: b: c}".toList "a: b: c".toList
    scope.patternAt? 0 text = .error f ∧
      ∃ t, f.quoted? = some t ∧ t ≠ [] ∧ Text.Trimmed t ∧ t <:+: text ∧
        ∀ (scope : Scope) (moment : Nat), scope.patternAt? moment t = .error f := by
  intro scope text f
  have hi : Outline.read "int".toList = .name "int".toList := Outline.read_of_form (.name _) rfl
  have hm : Outline.read "{a: b: c}".toList = .fault f := Outline.read_of_form (.fault f) rfl
  have hu : Outline.read "int | {a: b: c} ".toList = .union [.name "int".toList, .fault f] := by
    rw [Outline.read_of_form (.union ["int".toList, "{a: b: c}".toList]) rfl]
    simp only [Outline.build, List.map, hi, hm]
  have hr : Outline.read text = .list (.union [.name "int".toList, .fault f]) := by
    rw [Outline.read_of_form (.list "int | {a: b: c} ".toList) rfl]
    simp only [Outline.build, hu]
  have h : scope.patternAt? 0 text = .error f := by
    rw [patternAt?_eq, hr]
    rfl
  exact ⟨h, patternAt?_quoted h⟩

end Scope

end DocTypes
