import DocTypes.Proofs.Grammar.Completeness
import DocTypes.Proofs.Grammar.Soundness
import DocTypes.Proofs.Scope

set_option autoImplicit false

/-!
# Reading is exact

A text compiles to a pattern exactly when it derives that pattern.
-/

namespace DocTypes

theorem Pattern.isUnion_bare (p : Pattern) : p.bare.isUnion = p.isUnion := by
  cases p <;> rfl

theorem Scope.isUnion_bind (scope : Scope) (moment : Nat) (name : Text) :
    (scope.bind moment name).isUnion = false := by
  rw [← Pattern.isUnion_bare, bare_bind]
  rfl

/-- What a text compiles to in a scope is what it derives from the bindings of that scope. -/
theorem Scope.patternAt?_eq_ok_iff {scope : Scope} (hs : scope.Steady) {moment : Nat} {text : Text}
    {p : Pattern} : scope.patternAt? moment text = .ok p ↔
      Grammar.Derives (fun name q => q = scope.bind 0 name) text p := by
  rw [Scope.patternAt?_of_steady hs]
  exact ⟨Grammar.derives_of_fill (scope.isUnion_bind 0), Grammar.fill_of_derives⟩

theorem TypeRef.builtin?_eq_none_iff {name : Text} :
    TypeRef.builtin? name = none ↔ ∀ kind : Kind, kind.name ≠ name := by
  constructor
  · intro h kind hk
    rw [TypeRef.builtin?, Kind.ofName?_eq_some_iff.2 hk] at h
    cases h
  · intro h
    cases hn : Kind.ofName? name with
    | none => rw [TypeRef.builtin?, hn, Option.map_none]
    | some kind => exact absurd (Kind.name_of_ofName? hn) (h kind)

theorem Catalog.denotes_iff {catalog : Catalog} {name : Text} {p : Pattern} :
    catalog.Denotes name p ↔ p = (Scope.mk catalog none).bind 0 name := by
  constructor
  · rintro (h | ⟨h, rfl⟩ | ⟨h, hk⟩)
    · simp only [Scope.bind, h]
    · simp only [Scope.bind, Scope.outside?, h, TypeRef.builtin?, Kind.ofName?_name,
        Option.bind_none, Option.none_or, Option.map_some]
    · simp only [Scope.bind, Scope.outside?, h, TypeRef.builtin?_eq_none_iff.2 hk,
        Option.bind_none, Option.none_or]
  · rintro rfl
    unfold Scope.bind
    split
    case h_1 types h => exact .registered h
    case h_2 h =>
      simp only [Scope.outside?, Option.bind_none, Option.none_or]
      cases hk : Kind.ofName? name with
      | some kind =>
        rw [TypeRef.builtin?, hk]
        exact .builtin h (Kind.name_of_ofName? hk)
      | none =>
        have hb : TypeRef.builtin? name = none := by rw [TypeRef.builtin?, hk, Option.map_none]
        rw [hb]
        exact .unresolved h (TypeRef.builtin?_eq_none_iff.1 hb)

theorem Catalog.denotes_eq (catalog : Catalog) :
    catalog.Denotes = fun name p => p = (Scope.mk catalog none).bind 0 name := by
  funext name p
  exact propext denotes_iff

/-- A text compiles exactly when the grammar derives a pattern from it, and then to that pattern. -/
theorem Scope.pattern?_eq_ok_iff_derives (catalog : Catalog) (text : Text) (p : Pattern) :
    (Scope.mk catalog none).pattern? text = .ok p ↔ Grammar.Derives catalog.Denotes text p := by
  have hd : catalog.Denotes = fun name q => q = (Scope.mk catalog none).bind 0 name := by
    funext name q
    exact propext Catalog.denotes_iff
  rw [hd]
  exact patternAt?_eq_ok_iff (Scope.steady_of_none catalog)

end DocTypes
