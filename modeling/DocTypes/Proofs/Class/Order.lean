import DocTypes.Proofs.Class
import DocTypes.TypeSet
import Mathlib.Logic.Relation

set_option autoImplicit false

/-!
# The order of classes

A class derives from another if a class with the path of the other can be reached from it over
bases. Among classes whose bases are with them, and of which equal ones have equal bases, this is a
partial order, and the instances of a class are instances of all that it derives from.
-/

namespace DocTypes.Class

/-- The second class is the first one or can be reached from it over bases. -/
def Reaches : Class → Class → Prop := Relation.ReflTransGen fun c base => base ∈ c.bases

variable {c d e : Class} {classes : List Class}

theorem derivesFrom_iff :
    c.derivesFrom d = true ↔ ∃ found, c.Reaches found ∧ found.path = d.path := by
  constructor
  · intro h
    induction c with
    | mk path bases ih =>
      rw [derivesFrom_eq, Bool.or_eq_true, beq_iff, List.any_eq_true] at h
      rcases h with h | ⟨base, hb, hd⟩
      · exact ⟨_, .refl, h⟩
      · obtain ⟨found, hr, hp⟩ := ih base hb hd
        exact ⟨found, .head hb hr, hp⟩
  · rintro ⟨found, hr, hp⟩
    induction hr using Relation.ReflTransGen.head_induction_on with
    | refl => rw [derivesFrom_eq, beq_iff.2 hp, Bool.true_or]
    | head hb _ ih => rw [derivesFrom_eq, List.any_eq_true.2 ⟨_, hb, ih⟩, Bool.or_true]

theorem sizeOf_lt_of_mem_bases (h : d ∈ c.bases) : sizeOf d < sizeOf c := by
  obtain ⟨path, bases⟩ := c
  have hd : sizeOf d < sizeOf bases := List.sizeOf_lt_of_mem h
  rw [mk.sizeOf_spec]
  omega

/-- No class is below itself: a class is larger than all that it derives from. -/
theorem Reaches.eq_or_sizeOf_lt (h : c.Reaches d) : d = c ∨ sizeOf d < sizeOf c := by
  induction h with
  | refl => exact .inl rfl
  | tail _ hb ih =>
    have hlt := sizeOf_lt_of_mem_bases hb
    rcases ih with rfl | ih
    · exact .inr hlt
    · exact .inr (Nat.lt_trans hlt ih)

theorem Reaches.antisymm (h : c.Reaches d) (k : d.Reaches c) : c = d := by
  rcases h.eq_or_sizeOf_lt with he | hlt
  · exact he.symm
  · rcases k.eq_or_sizeOf_lt with he | hgt
    · exact he
    · omega

theorem Closed.mem_of_reaches (h : Closed classes) (hc : c ∈ classes) (hr : c.Reaches d) :
    d ∈ classes := by
  induction hr with
  | refl => exact hc
  | tail _ hb ih => exact h _ ih _ hb

/-- Where equal classes are the same, a class that is derived from can itself be reached. -/
theorem Consistent.derivesFrom_iff_reaches (h : Consistent classes) (hb : Closed classes)
    (hc : c ∈ classes) (hd : d ∈ classes) : c.derivesFrom d = true ↔ c.Reaches d := by
  refine derivesFrom_iff.trans ⟨?_, fun hr => ⟨d, hr, rfl⟩⟩
  rintro ⟨found, hr, hp⟩
  rwa [← h.eq_of_beq hb (hb.mem_of_reaches hc hr) hd (beq_iff.2 hp)]

theorem hasInstance_iff {value : Value} : (TypeRef.ofClass d).hasInstance value = true ↔
    ∃ own, value.class? = some own ∧ own.derivesFrom d = true := by
  rw [TypeRef.hasInstance]
  cases value.class? <;> simp

/-- Deriving orders these classes, and an instance of one is an instance of all that it derives
from. -/
structure Ordered (classes : List Class) : Prop where
  refl : ∀ c ∈ classes, c.derivesFrom c = true
  trans : ∀ c ∈ classes, ∀ d ∈ classes, ∀ e ∈ classes,
    c.derivesFrom d = true → d.derivesFrom e = true → c.derivesFrom e = true
  antisymm : ∀ c ∈ classes, ∀ d ∈ classes,
    c.derivesFrom d = true → d.derivesFrom c = true → c.path = d.path
  hasInstance : ∀ value : Value, (∀ own, value.class? = some own → own ∈ classes) →
    ∀ d ∈ classes, ∀ e ∈ classes, (TypeRef.ofClass d).hasInstance value = true →
      d.derivesFrom e = true → (TypeRef.ofClass e).hasInstance value = true

theorem Consistent.ordered (h : Consistent classes) (hb : Closed classes) : Ordered classes := by
  have htrans : ∀ c ∈ classes, ∀ d ∈ classes, ∀ e ∈ classes,
      c.derivesFrom d = true → d.derivesFrom e = true → c.derivesFrom e = true := by
    intro c hc d hd e he hcd hde
    rw [h.derivesFrom_iff_reaches hb hc hd] at hcd
    rw [h.derivesFrom_iff_reaches hb hd he] at hde
    rw [h.derivesFrom_iff_reaches hb hc he]
    exact Relation.ReflTransGen.trans hcd hde
  refine ⟨fun c _ => derivesFrom_iff.2 ⟨c, .refl, rfl⟩, htrans, ?_, ?_⟩
  · intro c hc d hd hcd hdc
    rw [h.derivesFrom_iff_reaches hb hc hd] at hcd
    rw [h.derivesFrom_iff_reaches hb hd hc] at hdc
    rw [hcd.antisymm hdc]
  · intro value hv d hd e he hi hde
    obtain ⟨own, ho, hod⟩ := hasInstance_iff.1 hi
    exact hasInstance_iff.2 ⟨own, ho, htrans own (hv own ho) d hd e he hod hde⟩

/-- One class derives from another just when a class with the path of the other can be reached from
it over bases, so that the bases of the other one have no say. Among classes with all their bases,
of which equal ones have equal bases, deriving is a partial order up to the path, and an instance of
one of them is an instance of all that this one derives from. -/
theorem derivesFrom_order :
    (∀ c d : Class, c.derivesFrom d = true ↔ ∃ found, c.Reaches found ∧ found.path = d.path) ∧
    (∀ (c : Class) (path : Text) (bases others : List Class),
      c.derivesFrom ⟨path, bases⟩ = c.derivesFrom ⟨path, others⟩) ∧
    ∀ classes : List Class, Closed classes → Consistent classes → Ordered classes := by
  refine ⟨fun _ _ => derivesFrom_iff, fun c path bases others => ?_, fun _ hb h => h.ordered hb⟩
  have hp : (Class.mk path bases).path = (Class.mk path others).path := rfl
  exact derivesFrom_congr hp c

/-- An object whose class derives from one class twice over, with its bases written out each time,
is an instance of that class, as it is of either class between. -/
theorem derivesFrom_order_of_diamond :
    let top : Class := ⟨"Top".toList, []⟩
    let left : Class := ⟨"Left".toList, [top]⟩
    let right : Class := ⟨"Right".toList, [top]⟩
    let own : Class := ⟨"Own".toList, [left, right]⟩
    Closed own.ancestry ∧ Consistent own.ancestry ∧
      (TypeRef.ofClass right).hasInstance (.object own) = true ∧ right.derivesFrom top = true ∧
      (TypeRef.ofClass top).hasInstance (.object own) = true := by
  intro top left right own
  have hb : Closed own.ancestry := closed_ancestry own
  have h : Consistent own.ancestry := by decide
  have hi : (TypeRef.ofClass right).hasInstance (.object own) = true := by decide
  have hd : right.derivesFrom top = true := by decide
  have hr : right ∈ own.ancestry :=
    hb own own.mem_ancestry_self right (List.mem_cons_of_mem _ (List.mem_singleton_self right))
  have ht : top ∈ own.ancestry := hb right hr top (List.mem_singleton_self top)
  have ho := derivesFrom_order.2.2 own.ancestry hb h
  refine ⟨hb, h, hi, hd, ho.hasInstance (.object own) ?_ right hr top ht hi hd⟩
  rintro _ ⟨rfl⟩
  exact own.mem_ancestry_self

end DocTypes.Class
