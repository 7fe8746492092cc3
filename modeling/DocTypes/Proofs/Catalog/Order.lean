import DocTypes.Proofs.Catalog.Registration
import DocTypes.Proofs.Outline.Lockstep
import DocTypes.Verdict

set_option autoImplicit false

/-!
# The order of registrations

In whatever order the same registrations are made, the catalog has the same names with the same
types under them, and the same revision. Which types come first may differ, and which of two classes
of one path was kept; but no expression accepts other values for that.
-/

namespace DocTypes.Catalog

/-- Two catalogs have the same names and under each the same types, classes of one path being one
type, and their revisions are the same. -/
structure Alike (a b : Catalog) : Prop where
  contains (name : Text) : a.contains name = b.contains name
  hasPair (name : Text) (type : TypeRef) : a.hasPair name type = b.hasPair name type
  size : a.size = b.size
  revision : a.revision = b.revision

namespace Alike

theorem refl (catalog : Catalog) : catalog.Alike catalog := ⟨fun _ => rfl, fun _ _ => rfl, rfl, rfl⟩

theorem trans {a b c : Catalog} (h : a.Alike b) (k : b.Alike c) : a.Alike c where
  contains name := (h.contains name).trans (k.contains name)
  hasPair name type := (h.hasPair name type).trans (k.hasPair name type)
  size := h.size.trans k.size
  revision := h.revision.trans k.revision

end Alike

theorem size_register (catalog : Catalog) (name : Text) (type : TypeRef) :
    (catalog.register name type).size =
      if catalog.contains name then catalog.size else catalog.size + 1 := by
  have h := congrArg List.length (catalog.names_register name type)
  rw [names, List.length_map] at h
  rw [size, h]
  split
  · exact List.length_map ..
  · rw [List.length_append, names, List.length_map]
    rfl

theorem Alike.register {a b : Catalog} (h : a.Alike b) (name : Text) (type : TypeRef) :
    (a.register name type).Alike (b.register name type) where
  contains other := by rw [contains_register, contains_register, h.contains]
  hasPair other found := by rw [hasPair_register, hasPair_register, h.hasPair]
  size := by rw [size_register, size_register, h.contains, h.size]
  revision := by rw [revision_register, revision_register, h.hasPair, h.revision]

theorem Alike.registerAll {a b : Catalog} (h : a.Alike b) (pairs : List (Text × TypeRef)) :
    (a.registerAll pairs).Alike (b.registerAll pairs) := by
  induction pairs generalizing a b with
  | nil => exact h
  | cons pair more ih => exact ih (h.register pair.1 pair.2)

theorem hasPair_congr {a b : Text × TypeRef} (h : (a == b) = true) (catalog : Catalog) :
    catalog.hasPair a.1 a.2 = catalog.hasPair b.1 b.2 := by
  obtain ⟨hn, ht⟩ := Bool.and_eq_true_iff.1 (show (a.1 == b.1 && a.2 == b.2) = true from h)
  rw [hasPair, hasPair, beq_iff_eq.1 hn]
  refine congrArg (Option.any · _) (funext fun types => congrArg types.members.any ?_)
  exact funext fun type => BEq.congr_right ht

/-- Two things that are counted unless they are there, one after the other; if they are equal, both
are there or neither is. -/
theorem counted_comm (count : Nat) {there there' same : Bool} (h : same = true → there = there') :
    (if there' || same then if there then count else count + 1
      else (if there then count else count + 1) + 1) =
    if there || same then if there' then count else count + 1
      else (if there' then count else count + 1) + 1 := by
  cases same with
  | true => rw [h rfl]
  | false => cases there <;> cases there' <;> rfl

/-- Of two registrations either may come first. -/
theorem alike_register_register (catalog : Catalog) (first second : Text × TypeRef) :
    ((catalog.register first.1 first.2).register second.1 second.2).Alike
      ((catalog.register second.1 second.2).register first.1 first.2) where
  contains name := by
    simp only [contains_register]
    exact Bool.or_right_comm ..
  hasPair name type := by
    simp only [hasPair_register]
    exact Bool.or_right_comm ..
  size := by
    simp only [size_register, contains_register, BEq.comm (a := second.1)]
    exact counted_comm _ fun h => by rw [beq_iff_eq.1 h]
  revision := by
    simp only [revision_register, hasPair_register, BEq.comm (a := (second.1, second.2))]
    exact counted_comm _ fun h => catalog.hasPair_congr h

theorem alike_registerAll_of_perm {first second : List (Text × TypeRef)} (h : first.Perm second)
    (catalog : Catalog) : (catalog.registerAll first).Alike (catalog.registerAll second) := by
  induction h generalizing catalog with
  | nil => exact .refl _
  | cons pair _ ih => exact ih _
  | swap a b more => exact (alike_register_register catalog b a).registerAll more
  | trans _ _ ih₁ ih₂ => exact (ih₁ catalog).trans (ih₂ catalog)

theorem alike_enterAll_of_perm {first second : List Registration} (h : first.Perm second)
    (catalog : Catalog) : (catalog.enterAll first).Alike (catalog.enterAll second) := by
  rw [enterAll_eq, enterAll_eq]
  exact alike_registerAll_of_perm (h.flatMap_right _) catalog

/-- A name is judged alike in both catalogs, even if they keep its types in different orders. -/
theorem Alike.agrees_bind {a b : Catalog} (h : a.Alike b) (m n : Nat) (name : Text) :
    ((Scope.mk a none).bind m name).Agrees ((Scope.mk b none).bind n name) := by
  have hc := h.contains name
  have hp := h.hasPair name
  rw [Catalog.contains, Catalog.contains] at hc
  simp only [Catalog.hasPair] at hp
  unfold Scope.bind
  cases ha : a.find? name with
  | none =>
    cases hb : b.find? name with
    | none => exact fun _ _ => rfl
    | some t =>
      rw [ha, hb] at hc
      cases hc
  | some s =>
    cases hb : b.find? name with
    | none =>
      rw [ha, hb] at hc
      cases hc
    | some t =>
      -- The two sets may differ in order and in bases, but each contains what the other does.
      have ht (type : TypeRef) : s.contains type = t.contains type := by
        simpa only [ha, hb, Option.any_some] using hp type
      exact Pattern.agrees_of_within fun nulls =>
        ⟨Pattern.within_named id (fun type hs => ht type ▸ hs) name,
          Pattern.within_named id (fun type hs => (ht type).symm ▸ hs) name⟩

/-- The order of registrations changes neither what a catalog holds nor what expressions accept. -/
theorem sameOutcome_enterAll_of_perm {first second : List Registration} (h : first.Perm second)
    (catalog : Catalog) :
    (catalog.enterAll first).Alike (catalog.enterAll second) ∧
      ∀ text, SameOutcome
        (fun p q => ∀ (policy : Policy) (value : Value),
          policy.accepts p value = policy.accepts q value)
        ((Scope.mk (catalog.enterAll first) none).pattern? text)
        ((Scope.mk (catalog.enterAll second) none).pattern? text) := by
  have ha := alike_enterAll_of_perm h catalog
  refine ⟨ha, fun text => ?_⟩
  have hs := Scope.sameOutcome Pattern.inherited_agrees text
    (fun name _ m n => ha.agrees_bind m n name) 0 0
  exact hs.imp fun p q hpq policy value => hpq policy.nulls value

/-- Of two classes of one path, either may come first, though only the first is kept. -/
theorem sameOutcome_enterAll_of_swap :
    let based : Registration := .ofClass ⟨"a.C".toList, [⟨"a.B".toList, []⟩]⟩
    let plain : Registration := .ofClass ⟨"a.C".toList, []⟩
    [based, plain].Perm [plain, based] ∧
      (withBuiltins.enterAll [based, plain]).Alike (withBuiltins.enterAll [plain, based]) ∧
      ∀ text, SameOutcome
        (fun p q => ∀ (policy : Policy) (value : Value),
          policy.accepts p value = policy.accepts q value)
        ((Scope.mk (withBuiltins.enterAll [based, plain]) none).pattern? text)
        ((Scope.mk (withBuiltins.enterAll [plain, based]) none).pattern? text) :=
  ⟨.swap .., sameOutcome_enterAll_of_perm (.swap ..) withBuiltins⟩

end DocTypes.Catalog
