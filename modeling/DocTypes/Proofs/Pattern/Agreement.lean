import DocTypes.Pattern.Acceptance
import Mathlib.Data.List.Forall2

set_option autoImplicit false

/-!
# Acceptance and its parts

A pattern accepts more when its parts do, so patterns that are built alike from parts that accept
the same values accept the same values. What a name accepts is told by which types are in its set,
not by their order.
-/

namespace DocTypes

/-- Equal types have the same instances, even if they are classes with different bases. -/
theorem TypeRef.hasInstance_congr {a b : TypeRef} (h : (a == b) = true) (value : Value) :
    a.hasInstance value = b.hasInstance value := by
  cases a with
  | kind k =>
    cases b with
    | kind l =>
      obtain rfl : k = l := beq_iff_eq.1 (show (k == l) = true from h)
      rfl
    | ofClass d => cases h
  | ofClass c =>
    cases b with
    | kind l => cases h
    | ofClass d =>
      have hp : c.path = d.path := Class.beq_iff.1 h
      exact congrArg (Option.any · _) (funext fun type => Class.derivesFrom_congr hp type)

theorem TypeSet.hasInstance_mono {s t : TypeSet}
    (h : ∀ type, s.contains type = true → t.contains type = true) {value : Value}
    (hv : s.hasInstance value = true) : t.hasInstance value = true := by
  obtain ⟨type, hm, hi⟩ := List.any_eq_true.1 hv
  have hc : s.contains type = true := List.any_eq_true.2 ⟨type, hm, BEq.rfl⟩
  obtain ⟨found, hf, he⟩ := List.any_eq_true.1 (h type hc)
  refine List.any_eq_true.2 ⟨found, hf, ?_⟩
  rw [TypeRef.hasInstance_congr he, hi]

namespace Pattern

/-- A relation between patterns that every construct inherits from its parts. -/
structure Inherited (R : Pattern → Pattern → Prop) : Prop where
  any : R .any .any
  union {ps qs : List Pattern} (h : List.Forall₂ R ps qs) : R (.union ps) (.union qs)
  list {p q : Pattern} (h : R p q) : R (.list p) (.list q)
  tuple {ps qs : List Pattern} (h : List.Forall₂ R ps qs) : R (.tuple ps) (.tuple qs)
  set {p q : Pattern} (h : R p q) : R (.set p) (.set q)
  map {k l v w : Pattern} (hk : R k l) (hv : R v w) : R (.map k v) (.map l w)
  record {fields others : List (Text × Pattern)}
    (h : List.Forall₂ (fun field other => field.1 = other.1 ∧ R field.2 other.2) fields others) :
    R (.record fields) (.record others)

/-- Whatever `p` accepts is accepted by `q`, where null may be judged more leniently. -/
def Within (nulls nulls' : Bool) (p q : Pattern) : Prop :=
  ∀ value, p.accepts nulls value = true → q.accepts nulls' value = true

section Within

variable {nulls nulls' : Bool}

theorem anyAccepts_mono {ps qs : List Pattern} (h : List.Forall₂ (Within nulls nulls') ps qs)
    (value : Value) (hp : anyAccepts nulls ps value = true) :
    anyAccepts nulls' qs value = true := by
  induction h with
  | nil => exact hp
  | cons hpq _ ih =>
    rw [anyAccepts, Bool.or_eq_true] at hp ⊢
    exact hp.imp (hpq value) ih

theorem eachAccepts_mono {ps qs : List Pattern} (h : List.Forall₂ (Within nulls nulls') ps qs)
    (values : List Value) (hp : eachAccepts nulls ps values = true) :
    eachAccepts nulls' qs values = true := by
  induction h generalizing values with
  | nil =>
    cases values with
    | nil => rfl
    | cons value more => cases hp
  | cons hpq _ ih =>
    cases values with
    | nil => cases hp
    | cons value more =>
      rw [eachAccepts, Bool.and_eq_true] at hp ⊢
      exact hp.imp (hpq value) (ih more)

theorem fieldsAccept_mono {fields others : List (Text × Pattern)}
    (h : List.Forall₂ (fun field other => field.1 = other.1 ∧ Within nulls nulls' field.2 other.2)
      fields others) (entries : List (Value × Value))
    (hp : fieldsAccept nulls fields entries = true) :
    fieldsAccept nulls' others entries = true := by
  induction h with
  | nil => exact hp
  | @cons field other _ _ hfo _ ih =>
    rw [fieldsAccept, Bool.and_eq_true] at hp ⊢
    refine hp.imp (fun hf => ?_) ih
    rw [← hfo.1]
    cases hv : Value.fieldAt? entries field.1 with
    | none =>
      rw [hv] at hf
      cases hf
    | some value =>
      rw [hv] at hf
      exact hfo.2 value hf

theorem inherited_within (h : nulls = true → nulls' = true) : Inherited (Within nulls nulls') where
  any value hp := by
    rw [accepts, Bool.or_eq_true] at hp ⊢
    exact hp.imp_right h
  union hpq value := anyAccepts_mono hpq value
  list hpq value hp := by
    cases value with
    | null => exact h hp
    | list items =>
      exact List.all_eq_true.2 fun item hi => hpq item (List.all_eq_true.1 hp item hi)
    | _ => cases hp
  tuple hpq value hp := by
    cases value with
    | null => exact h hp
    | tuple values => exact eachAccepts_mono hpq values hp
    | _ => cases hp
  set hpq value hp := by
    cases value with
    | null => exact h hp
    | set members =>
      exact List.all_eq_true.2 fun member hm => hpq member (List.all_eq_true.1 hp member hm)
    | _ => cases hp
  map hk hv value hp := by
    cases value with
    | null => exact h hp
    | dict entries =>
      refine List.all_eq_true.2 fun entry he => ?_
      have hkv := Bool.and_eq_true_iff.1 (List.all_eq_true.1 hp entry he)
      exact Bool.and_eq_true_iff.2 (hkv.imp (hk entry.1) (hv entry.2))
    | _ => cases hp
  record hfo value hp := by
    cases value with
    | null => exact h hp
    | dict entries => exact fieldsAccept_mono hfo entries hp
    | _ => cases hp

theorem accepts_named (nulls : Bool) (name : Text) (types : TypeSet) (value : Value) :
    (named name types).accepts nulls value =
      (types.hasInstance value || value.isNull && nulls) := by
  rw [accepts]
  cases value with
  | null =>
    rw [types.hasInstance_null]
    cases types.admitsNull <;> rfl
  | _ => exact (Bool.or_false _).symm

/-- A name accepts more when it denotes more types. -/
theorem within_named (h : nulls = true → nulls' = true) {s t : TypeSet}
    (hs : ∀ type, s.contains type = true → t.contains type = true) (name : Text) :
    Within nulls nulls' (named name s) (named name t) := by
  intro value hp
  rw [accepts_named, Bool.or_eq_true, Bool.and_eq_true] at hp ⊢
  exact hp.imp (TypeSet.hasInstance_mono hs) (And.imp_right h)

end Within

/-- Two patterns accept the same values, wherever null is accepted and wherever not. -/
def Agrees (p q : Pattern) : Prop := ∀ nulls value, p.accepts nulls value = q.accepts nulls value

namespace Agrees

theorem refl (p : Pattern) : p.Agrees p := fun _ _ => rfl

theorem trans {p q r : Pattern} (h : p.Agrees q) (k : q.Agrees r) : p.Agrees r :=
  fun nulls value => (h nulls value).trans (k nulls value)

theorem symm {p q : Pattern} (h : p.Agrees q) : q.Agrees p :=
  fun nulls value => (h nulls value).symm

theorem within {p q : Pattern} (h : p.Agrees q) (nulls : Bool) : Within nulls nulls p q :=
  fun value hp => (h nulls value).symm.trans hp

end Agrees

theorem agrees_of_within {p q : Pattern}
    (h : ∀ nulls, Within nulls nulls p q ∧ Within nulls nulls q p) : p.Agrees q :=
  fun nulls value => Bool.eq_iff_iff.2 ⟨(h nulls).1 value, (h nulls).2 value⟩

theorem within_of_forall₂ {ps qs : List Pattern} (h : List.Forall₂ Agrees ps qs) (nulls : Bool) :
    List.Forall₂ (Within nulls nulls) ps qs ∧ List.Forall₂ (Within nulls nulls) qs ps :=
  ⟨h.imp fun _ _ hpq => hpq.within nulls, h.flip.imp fun _ _ hqp => (Agrees.symm hqp).within nulls⟩

/-- Agreement is inherited, since it is acceptance of no more and of no less. -/
theorem inherited_agrees : Inherited Agrees where
  any _ _ := rfl
  union h := agrees_of_within fun nulls =>
    (within_of_forall₂ h nulls).imp (inherited_within id).union (inherited_within id).union
  list h := agrees_of_within fun nulls =>
    ⟨(inherited_within id).list (h.within nulls), (inherited_within id).list (h.symm.within nulls)⟩
  tuple h := agrees_of_within fun nulls =>
    (within_of_forall₂ h nulls).imp (inherited_within id).tuple (inherited_within id).tuple
  set h := agrees_of_within fun nulls =>
    ⟨(inherited_within id).set (h.within nulls), (inherited_within id).set (h.symm.within nulls)⟩
  map hk hv := agrees_of_within fun nulls =>
    ⟨(inherited_within id).map (hk.within nulls) (hv.within nulls),
      (inherited_within id).map (hk.symm.within nulls) (hv.symm.within nulls)⟩
  record h := agrees_of_within fun nulls =>
    ⟨(inherited_within id).record (h.imp fun _ _ hf => ⟨hf.1, hf.2.within nulls⟩),
      (inherited_within id).record
        (h.flip.imp fun _ _ hf => ⟨hf.1.symm, (Agrees.symm hf.2).within nulls⟩)⟩

end Pattern

end DocTypes
