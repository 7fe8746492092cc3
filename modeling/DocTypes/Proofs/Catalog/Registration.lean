import DocTypes.Catalog

set_option autoImplicit false

/-!
# Registrations

A type is registered under one name, or a class under all its names. Either way pairs of a name and
a type are put into the catalog one after the other, no pair twice in one registration.
-/

namespace DocTypes

instance equivBEqProd {α β : Type} [BEq α] [BEq β] [EquivBEq α] [EquivBEq β] :
    EquivBEq (α × β) where
  rfl := Bool.and_eq_true_iff.2 ⟨BEq.rfl, BEq.rfl⟩
  symm h :=
    have h := Bool.and_eq_true_iff.1 h
    Bool.and_eq_true_iff.2 ⟨BEq.symm h.1, BEq.symm h.2⟩
  trans h k :=
    have h := Bool.and_eq_true_iff.1 h
    have k := Bool.and_eq_true_iff.1 k
    Bool.and_eq_true_iff.2 ⟨BEq.trans h.1 k.1, BEq.trans h.2 k.2⟩

inductive Registration where
  | ofType (name : Text) (type : TypeRef)
  | ofClass (c : Class)

namespace Registration

/-- The pairs in the order in which they are put into a catalog. -/
def pairs : Registration → List (Text × TypeRef)
  | ofType name type => [(name, type)]
  | ofClass c => c.names.map fun name => (name, .ofClass c)

/-- A class is registered under its path and what follows a dot of it, and under nothing else. -/
def Enters (name : Text) (type : TypeRef) : Registration → Prop
  | ofType other found => other = name ∧ found = type
  | ofClass c => (c.path = name ∨ ∃ before, c.path = before ++ '.' :: name) ∧ .ofClass c = type

theorem mem_pairs {name : Text} {type : TypeRef} {registration : Registration} :
    (name, type) ∈ registration.pairs ↔ registration.Enters name type := by
  cases registration with
  | ofType other found =>
    rw [pairs, List.mem_singleton, Prod.mk.injEq, Enters, eq_comm, eq_comm (a := type)]
  | ofClass c =>
    rw [pairs, List.mem_map, Enters, ← Class.mem_names]
    constructor
    · rintro ⟨other, hm, he⟩
      obtain ⟨rfl, rfl⟩ := Prod.mk.inj he
      exact ⟨hm, rfl⟩
    · rintro ⟨hm, rfl⟩
      exact ⟨name, hm, rfl⟩

end Registration

namespace Class

theorem length_lt_of_mem_afterDots {name path : Text} (h : name ∈ afterDots path) :
    name.length < path.length := by
  obtain ⟨before, rfl⟩ := mem_afterDots.1 h
  rw [List.length_append, List.length_cons]
  omega

theorem not_mem_afterDots (path : Text) : path ∉ afterDots path :=
  fun h => Nat.lt_irrefl _ (length_lt_of_mem_afterDots h)

theorem nodup_afterDots (path : Text) : (afterDots path).Nodup := by
  induction path with
  | nil => exact .nil
  | cons c rest ih =>
    rw [afterDots]
    split
    · exact List.nodup_cons.2 ⟨not_mem_afterDots rest, ih⟩
    · exact ih

theorem nodup_names (c : Class) : c.names.Nodup :=
  List.nodup_cons.2 ⟨not_mem_afterDots c.path, nodup_afterDots c.path⟩

end Class

theorem Registration.pairwise_pairs (registration : Registration) :
    registration.pairs.Pairwise fun a b => (a == b) = false := by
  cases registration with
  | ofType name type => exact List.pairwise_singleton ..
  | ofClass c =>
    refine List.pairwise_map.2 (c.nodup_names.imp fun {a b} hn => ?_)
    change (a == b && _) = false
    rw [beq_eq_false_iff_ne.2 hn, Bool.false_and]

namespace Catalog

def enter (catalog : Catalog) : Registration → Catalog
  | .ofType name type => catalog.register name type
  | .ofClass c => catalog.registerClass c

/-- The catalog after these registrations, one after the other. -/
def enterAll (catalog : Catalog) (registrations : List Registration) : Catalog :=
  registrations.foldl enter catalog

theorem enter_eq (catalog : Catalog) (registration : Registration) :
    catalog.enter registration = catalog.registerAll registration.pairs := by
  cases registration with
  | ofType name type => rfl
  | ofClass c =>
    rw [enter, registerClass_eq, registerAll, Registration.pairs, List.foldl_map]

theorem registerAll_append (catalog : Catalog) (first later : List (Text × TypeRef)) :
    catalog.registerAll (first ++ later) = (catalog.registerAll first).registerAll later :=
  List.foldl_append

theorem registerAll_concat (catalog : Catalog) (first : List (Text × TypeRef))
    (pair : Text × TypeRef) :
    catalog.registerAll (first ++ [pair]) = (catalog.registerAll first).register pair.1 pair.2 := by
  rw [registerAll_append]
  rfl

theorem enterAll_eq (catalog : Catalog) (registrations : List Registration) :
    catalog.enterAll registrations =
      catalog.registerAll (registrations.flatMap Registration.pairs) := by
  induction registrations generalizing catalog with
  | nil => rfl
  | cons registration more ih =>
    rw [List.flatMap_cons, registerAll_append, ← enter_eq]
    exact ih _

theorem hasPair_register (catalog : Catalog) (name other : Text) (type found : TypeRef) :
    (catalog.register name type).hasPair other found =
      (catalog.hasPair other found || (name, type) == (other, found)) := by
  change _ = (_ || (name == other && type == found))
  rw [hasPair, find?_register]
  by_cases h : name = other
  · subst h
    rw [if_pos rfl, Option.any_some, TypeSet.contains_insert, hasPair, beq_self_eq_true,
      Bool.true_and]
    cases catalog.find? name <;> rfl
  · rw [if_neg h, beq_eq_false_iff_ne.2 h, Bool.false_and, Bool.or_false, hasPair]

theorem contains_register (catalog : Catalog) (name other : Text) (type : TypeRef) :
    (catalog.register name type).contains other = (catalog.contains other || name == other) := by
  rw [contains, find?_register]
  by_cases h : name = other
  · rw [if_pos h, h, beq_self_eq_true, Bool.or_true]
    rfl
  · rw [if_neg h, beq_eq_false_iff_ne.2 h, Bool.or_false]
    rfl

theorem contains_eq_any (catalog : Catalog) (name : Text) :
    catalog.contains name = catalog.names.any (· == name) := by
  rw [contains, find?, Option.isSome_map, List.isSome_find?, names, List.any_map]
  refine congrArg _ (funext fun entry => Bool.eq_iff_iff.2 ?_)
  rw [decide_eq_true_iff, Function.comp_apply, beq_iff_eq]

theorem contains_of_hasPair {catalog : Catalog} {name : Text} {type : TypeRef}
    (h : catalog.hasPair name type = true) : catalog.contains name = true := by
  rw [hasPair] at h
  rw [contains]
  cases hf : catalog.find? name with
  | none =>
    rw [hf] at h
    cases h
  | some types => rfl

theorem map_fst_putPair (name : Text) (type : TypeRef) (entries : List (Text × TypeSet)) :
    (putPair name type entries).map Prod.fst =
      if (entries.map Prod.fst).any (· == name) then entries.map Prod.fst
      else entries.map Prod.fst ++ [name] := by
  induction entries with
  | nil => rfl
  | cons entry more ih =>
    obtain ⟨other, types⟩ := entry
    rw [putPair]
    by_cases h : other = name
    · simp [h]
    · rw [if_neg h, List.map_cons, ih, List.map_cons, List.any_cons, beq_eq_false_iff_ne.2 h,
        Bool.false_or]
      split <;> rfl

theorem names_register (catalog : Catalog) (name : Text) (type : TypeRef) :
    (catalog.register name type).names =
      if catalog.contains name then catalog.names else catalog.names ++ [name] := by
  rw [register_eq]
  split
  case isTrue h => rw [if_pos (contains_of_hasPair h)]
  case isFalse =>
    rw [contains_eq_any]
    exact map_fst_putPair name type catalog.entries

end Catalog

end DocTypes
