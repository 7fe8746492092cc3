import DocTypes.Proofs.Outline.Fill

set_option autoImplicit false

/-!
# What a scope can change

Only the bindings of names depend on the scope: a text has the same fault in every scope, or in none
a fault and everywhere the same shape. A resolver whose answers depend on the name alone makes
compiling a matter of filling in names.
-/

namespace DocTypes.Scope

/-- The resolver, if there is one, gives a name the same answer at every moment. -/
def Steady (scope : Scope) : Prop :=
  ∀ answer ∈ scope.answer?, ∀ (m n : Nat) (name : Text), answer m name = answer n name

theorem steady_of_none (catalog : Catalog) : (Scope.mk catalog none).Steady :=
  fun _ h => by cases h

theorem outside?_of_steady {scope : Scope} (h : scope.Steady) (m n : Nat) (name : Text) :
    scope.outside? m name = scope.outside? n name := by
  unfold outside?
  cases ha : scope.answer? with
  | none => rfl
  | some answer => rw [Option.bind_some, Option.bind_some, h answer ha m n name]

theorem bind_eq_of_steady {scope : Scope} (h : scope.Steady) (m n : Nat) (name : Text) :
    scope.bind m name = scope.bind n name := by
  unfold bind
  rw [outside?_of_steady h m n]

theorem bare_bind (scope : Scope) (moment : Nat) (name : Text) :
    (scope.bind moment name).bare = .unresolved name := by
  unfold bind
  split
  · rfl
  · split <;> rfl

theorem text_bind (scope : Scope) (moment : Nat) (name : Text) :
    (scope.bind moment name).text = name := by
  rw [← Pattern.text_bare, bare_bind]
  rfl

theorem patternAt?_eq (scope : Scope) (moment : Nat) (text : Text) :
    scope.patternAt? moment text =
      ((Outline.read text).compile (scope.bindNext moment) {}).1 := rfl

theorem patternAt?_of_steady {scope : Scope} (h : scope.Steady) (moment : Nat) (text : Text) :
    scope.patternAt? moment text = (Outline.read text).fill (scope.bind 0) := by
  rw [patternAt?_eq]
  apply Outline.compile_eq_fill
  intro name found
  exact bind_eq_of_steady h _ 0 name

theorem Steady.patternAt?_eq {scope : Scope} (h : scope.Steady) (m n : Nat) (text : Text) :
    scope.patternAt? m text = scope.patternAt? n text := by
  rw [patternAt?_of_steady h, patternAt?_of_steady h]

theorem patternAt?_bare (scope : Scope) (moment : Nat) (text : Text) :
    (scope.patternAt? moment text).map Pattern.bare = (Outline.read text).fill .unresolved := by
  rw [patternAt?_eq]
  apply Outline.compile_bare
  intro name found
  exact bare_bind scope _ name

/-- Whatever two scopes say that names denote, a text has one and the same fault in both, or it has
in both a pattern of the same text and the same shape. -/
theorem patternAt?_same_structure (a b : Scope) (m n : Nat) (text : Text) :
    (∃ f, a.patternAt? m text = .error f ∧ b.patternAt? n text = .error f) ∨
      ∃ p q, a.patternAt? m text = .ok p ∧ b.patternAt? n text = .ok q ∧
        p.text = q.text ∧ p.SameShape q := by
  have h : (a.patternAt? m text).map Pattern.bare = (b.patternAt? n text).map Pattern.bare := by
    rw [patternAt?_bare, patternAt?_bare]
  cases ha : a.patternAt? m text with
  | error f =>
    left
    rw [ha] at h
    cases hb : b.patternAt? n text with
    | error g =>
      rw [hb] at h
      obtain rfl := Except.error.inj h
      exact ⟨f, rfl, rfl⟩
    | ok q =>
      rw [hb] at h
      cases h
  | ok p =>
    right
    rw [ha] at h
    cases hb : b.patternAt? n text with
    | error g =>
      rw [hb] at h
      cases h
    | ok q =>
      rw [hb] at h
      have hs : p.SameShape q := Except.ok.inj h
      exact ⟨p, q, rfl, rfl, hs.text_eq, hs⟩

end DocTypes.Scope
