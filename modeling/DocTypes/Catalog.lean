import DocTypes.TypeSet

set_option autoImplicit false

/-!
# Catalogs

A catalog lists the types that each name may denote. It only ever grows, and its revision counts
the pairs of a name and a type that it holds.
-/

namespace DocTypes

structure Catalog where
  entries : List (Text × TypeSet)
  revision : Nat

namespace Catalog

def empty : Catalog := ⟨[], 0⟩

def find? (catalog : Catalog) (name : Text) : Option TypeSet :=
  (catalog.entries.find? fun entry => entry.1 = name).map Prod.snd

def contains (catalog : Catalog) (name : Text) : Bool := (catalog.find? name).isSome

def hasPair (catalog : Catalog) (name : Text) (type : TypeRef) : Bool :=
  (catalog.find? name).any (·.contains type)

def size (catalog : Catalog) : Nat := catalog.entries.length

def names (catalog : Catalog) : List Text := catalog.entries.map Prod.fst

/-- Puts a type under a name, behind those that are there. -/
def putPair (name : Text) (type : TypeRef) : List (Text × TypeSet) → List (Text × TypeSet)
  | [] => [(name, .single type)]
  | (other, types) :: more =>
    if other = name then (other, types.insert type) :: more
    else (other, types) :: putPair name type more

/-- Puts a type under a name, and says whether it was not there. -/
def put (catalog : Catalog) (name : Text) (type : TypeRef) : Catalog × Bool :=
  if catalog.hasPair name type then (catalog, false)
  else (⟨putPair name type catalog.entries, catalog.revision + 1⟩, true)

/-- Puts a type under each of the names, and says under how many it was not there. -/
def putUnder (type : TypeRef) (catalog : Catalog) : List Text → Catalog × Nat
  | [] => (catalog, 0)
  | name :: more =>
    let (next, isNew) := catalog.put name type
    let (last, count) := putUnder type next more
    (last, if isNew then count + 1 else count)

/-- A class goes under its path and every dotted suffix of it. -/
def putClass (catalog : Catalog) (c : Class) : Catalog × Nat :=
  putUnder (.ofClass c) catalog c.names

def register (catalog : Catalog) (name : Text) (type : TypeRef) : Catalog :=
  (catalog.put name type).1

def registerClass (catalog : Catalog) (c : Class) : Catalog := (catalog.putClass c).1

def registerAll (catalog : Catalog) (pairs : List (Text × TypeRef)) : Catalog :=
  pairs.foldl (fun catalog pair => catalog.register pair.1 pair.2) catalog

/-- The names that are not their kind's own. -/
def withBuiltins : Catalog :=
  empty.registerAll
    [("function".toList, .kind .function), ("function".toList, .kind .method),
      ("string".toList, .kind .str), ("None".toList, .kind .null)]

/-- How many pairs a later state of a catalog has more. -/
def added (before after : Catalog) : Nat := after.revision - before.revision

theorem snd_put (catalog : Catalog) (name : Text) (type : TypeRef) :
    (catalog.put name type).2 = !catalog.hasPair name type := by
  unfold put
  cases catalog.hasPair name type <;> rfl

theorem register_eq (catalog : Catalog) (name : Text) (type : TypeRef) :
    catalog.register name type =
      if catalog.hasPair name type then catalog
      else ⟨putPair name type catalog.entries, catalog.revision + 1⟩ := by
  unfold register put
  split <;> rfl

theorem fst_putUnder (type : TypeRef) (catalog : Catalog) (names : List Text) :
    (putUnder type catalog names).1 =
      names.foldl (fun catalog name => catalog.register name type) catalog := by
  induction names generalizing catalog with
  | nil => rfl
  | cons name more ih => exact ih _

theorem registerClass_eq (catalog : Catalog) (c : Class) : catalog.registerClass c =
    c.names.foldl (fun catalog name => catalog.register name (.ofClass c)) catalog :=
  fst_putUnder (.ofClass c) catalog c.names

theorem find?_putPair (name other : Text) (type : TypeRef) (entries : List (Text × TypeSet)) :
    ((putPair name type entries).find? fun entry => entry.1 = other).map Prod.snd =
      if name = other then
        some ((((entries.find? fun entry => entry.1 = name).map Prod.snd).getD .empty).insert type)
      else (entries.find? fun entry => entry.1 = other).map Prod.snd := by
  induction entries with
  | nil =>
    by_cases h : name = other
    · simp [putPair, h, TypeSet.insert, TypeSet.contains, TypeSet.empty, TypeSet.single]
    · simp [putPair, h]
  | cons entry more ih =>
    obtain ⟨first, types⟩ := entry
    by_cases hf : first = name
    · subst hf
      by_cases h : first = other <;> simp [putPair, h]
    · by_cases ho : first = other
      · subst ho
        simp [putPair, hf, Ne.symm hf]
      · simp [putPair, hf, ho, ih]

theorem find?_register (catalog : Catalog) (name other : Text) (type : TypeRef) :
    (catalog.register name type).find? other =
      if name = other then some (((catalog.find? name).getD .empty).insert type)
      else catalog.find? other := by
  rw [register_eq]
  split
  case isTrue h =>
    by_cases ho : name = other
    · subst ho
      rw [hasPair] at h
      cases hf : catalog.find? name with
      | none => simp [hf] at h
      | some types =>
        rw [hf] at h
        simp [TypeSet.insert_of_contains (by simpa using h)]
    · simp [ho]
  case isFalse => exact find?_putPair name other type catalog.entries

theorem revision_register (catalog : Catalog) (name : Text) (type : TypeRef) :
    (catalog.register name type).revision =
      if catalog.hasPair name type then catalog.revision else catalog.revision + 1 := by
  rw [register_eq]
  split <;> rfl

/-- The revision counts what is new. -/
theorem revision_putUnder (type : TypeRef) (catalog : Catalog) (names : List Text) :
    (putUnder type catalog names).1.revision =
      catalog.revision + (putUnder type catalog names).2 := by
  induction names generalizing catalog with
  | nil => rfl
  | cons name more ih =>
    have hr := catalog.revision_register name type
    have hi := ih (catalog.register name type)
    have hn := catalog.snd_put name type
    rw [hr] at hi
    simp only [register] at hi
    simp only [putUnder, hi, hn]
    cases catalog.hasPair name type with
    | true => rfl
    | false =>
      simp only [Bool.false_eq_true, if_false, Bool.not_false, if_true]
      omega

theorem snd_putClass (catalog : Catalog) (c : Class) :
    (catalog.putClass c).2 = catalog.added (catalog.registerClass c) := by
  rw [added, registerClass, putClass, revision_putUnder, Nat.add_sub_cancel_left]

end Catalog

end DocTypes
