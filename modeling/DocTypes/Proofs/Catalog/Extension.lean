import DocTypes.Proofs.Catalog.History
import DocTypes.Proofs.Outline.Form
import DocTypes.Proofs.Outline.Lockstep
import DocTypes.Proofs.Outline.Names
import DocTypes.Verdict

set_option autoImplicit false

/-!
# More registrations accept more

Registering more types takes nothing away. An expression all of whose names are in the catalog goes
on accepting what it accepts, even when a name comes to denote the null type and so judges null by
itself. A name that is not yet in the catalog is another matter: it accepts everything as long as it
denotes nothing.
-/

namespace DocTypes

namespace Catalog

/-- The later catalog has every name of the earlier one, with all its types. -/
structure Includes (before after : Catalog) : Prop where
  contains (name : Text) : before.contains name = true → after.contains name = true
  hasPair (name : Text) (type : TypeRef) :
    before.hasPair name type = true → after.hasPair name type = true

theorem includes_enterAll (catalog : Catalog) (registrations : List Registration) :
    catalog.Includes (catalog.enterAll registrations) where
  contains name h := by rw [enterAll_eq, contains_registerAll, h, Bool.true_or]
  hasPair name type h := by rw [enterAll_eq, hasPair_registerAll, h, Bool.true_or]

theorem exists_find?_of_contains {catalog : Catalog} {name : Text}
    (h : catalog.contains name = true) :
    ∃ types, catalog.find? name = some types ∧
      ∀ type, catalog.hasPair name type = types.contains type := by
  obtain ⟨types, hf⟩ := Option.isSome_iff_exists.1 h
  refine ⟨types, hf, fun type => ?_⟩
  rw [Catalog.hasPair, hf, Option.any_some]

end Catalog

theorem Scope.bind_of_find? {scope : Scope} {name : Text} {types : TypeSet}
    (h : scope.catalog.find? name = some types) (moment : Nat) :
    scope.bind moment name = .named name types := by
  unfold bind
  rw [h]

/-- A name of the earlier catalog accepts no less in the later one. -/
theorem Catalog.Includes.within_bind {a b : Scope} (h : a.catalog.Includes b.catalog)
    {nulls nulls' : Bool} (hn : nulls = true → nulls' = true) {name : Text}
    (hc : a.catalog.contains name = true) (m n : Nat) :
    Pattern.Within nulls nulls' (a.bind m name) (b.bind n name) := by
  obtain ⟨s, hs, hps⟩ := exists_find?_of_contains hc
  obtain ⟨t, ht, hpt⟩ := exists_find?_of_contains (h.contains name hc)
  rw [Scope.bind_of_find? hs, Scope.bind_of_find? ht]
  refine Pattern.within_named hn (fun type hm => ?_) name
  rw [← hpt]
  apply h.hasPair
  rwa [hps]

namespace Scope

variable {a b : Scope} {start : Nat} {text : Text} {p q : Pattern}

theorem within_of_includes (h : a.catalog.Includes b.catalog) {nulls nulls' : Bool}
    (hn : nulls = true → nulls' = true) (hp : a.patternAt? start text = .ok p)
    (hc : ∀ name ∈ p.names, a.catalog.contains name = true) (later : Nat) :
    ∃ q, b.patternAt? later text = .ok q ∧ Pattern.Within nulls nulls' p q := by
  have hs := Scope.sameOutcome (Pattern.inherited_within hn) text
    (fun name hl m n => h.within_bind hn (hc name ((mem_leaves_of_patternAt? hp).1 hl)) m n)
    start later
  rw [hp] at hs
  generalize b.patternAt? later text = outcome at hs
  cases hs with
  | result hw => exact ⟨_, rfl, hw⟩

/-- What an expression accepts it accepts after any registrations, if its names are all in the
catalog before. The policy may come to accept null meanwhile, and the resolver does not matter. -/
theorem accepts_enterAll_of_contains {catalog : Catalog}
    {answer? : Option (Nat → Text → Option TypeRef)}
    (hp : (Scope.mk catalog answer?).patternAt? start text = .ok p)
    (hc : ∀ name ∈ p.names, catalog.contains name = true) (registrations : List Registration)
    (answer?' : Option (Nat → Text → Option TypeRef)) (later : Nat) :
    ∃ q, (Scope.mk (catalog.enterAll registrations) answer?').patternAt? later text = .ok q ∧
      ∀ (policy policy' : Policy) (value : Value), (policy.nulls = true → policy'.nulls = true) →
        policy.accepts p value = true → policy'.accepts q value = true := by
  have hi := catalog.includes_enterAll registrations
  have hw {nulls nulls' : Bool} (hn : nulls = true → nulls' = true) :=
    within_of_includes (b := ⟨catalog.enterAll registrations, answer?'⟩) hi hn hp hc later
  obtain ⟨q, hq, -⟩ := hw (fun h : false = true => h)
  refine ⟨q, hq, fun policy policy' value hn ha => ?_⟩
  obtain ⟨q', hq', hv⟩ := hw hn
  obtain rfl : q = q' := Except.ok.inj (hq.symm.trans hq')
  exact hv value ha

/-- A name that comes to denote the null type judges null from then on, and still accepts it where
the policy alone accepted it before. -/
theorem accepts_enterAll_of_null :
    let catalog := Catalog.empty.register "Count".toList (.kind .int)
    let registrations := [Registration.ofType "Count".toList (.kind .null)]
    let text := "[Count]".toList
    let p := Pattern.list (.named "Count".toList (.single (.kind .int)))
    (Scope.mk catalog none).patternAt? 0 text = .ok p ∧
      (∀ name ∈ p.names, catalog.contains name = true) ∧
      ∃ q, (Scope.mk (catalog.enterAll registrations) none).patternAt? 0 text = .ok q ∧
        ∀ (policy policy' : Policy) (value : Value), (policy.nulls = true → policy'.nulls = true) →
          policy.accepts p value = true → policy'.accepts q value = true := by
  intro catalog registrations text p
  have hn : Outline.read "Count".toList = .name "Count".toList := Outline.read_of_form (.name _) rfl
  have hr : Outline.read text = .list (.name "Count".toList) := by
    rw [Outline.read_of_form (.list "Count".toList) rfl]
    simp only [Outline.build, hn]
  have hp : (Scope.mk catalog none).patternAt? 0 text = .ok p := by
    rw [patternAt?_eq, hr]
    rfl
  have hc : ∀ name ∈ p.names, catalog.contains name = true := List.forall_mem_singleton.2 rfl
  exact ⟨hp, hc, accepts_enterAll_of_contains hp hc registrations none 0⟩

end Scope

end DocTypes
