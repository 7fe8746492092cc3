import DocTypes.Proofs.Pattern.Replacement
import Mathlib.Logic.Relation

set_option autoImplicit false

/-!
# Rewriting unions and records

The alternatives of a union and the fields of a record may be put in any order and repeated, a union
among the alternatives of a union may be dissolved, and any pattern may stand as the one alternative
of a union. However often and at whatever depth this is done or undone, the pattern accepts what it
accepted. Null needs no case of its own, since a union leaves it to its alternatives.
-/

namespace DocTypes

namespace Pattern

/-- A pattern written in another way. -/
inductive Rewrite : Pattern → Pattern → Prop where
  | permuted {ps qs : List Pattern} (h : ps.Perm qs) : Rewrite (.union ps) (.union qs)
  | repeated (before : List Pattern) (p : Pattern) (after : List Pattern) :
    Rewrite (.union (before ++ p :: after)) (.union (before ++ p :: p :: after))
  | spliced (before inner after : List Pattern) :
    Rewrite (.union (before ++ .union inner :: after)) (.union (before ++ (inner ++ after)))
  | wrapped (p : Pattern) : Rewrite p (.union [p])
  | permutedFields {fields others : List (Text × Pattern)} (h : fields.Perm others) :
    Rewrite (.record fields) (.record others)
  | repeatedField (before : List (Text × Pattern)) (field : Text × Pattern)
    (after : List (Text × Pattern)) :
    Rewrite (.record (before ++ field :: after)) (.record (before ++ field :: field :: after))

/-- Patterns that rewriting leads from one to the other, in steps forth and back. -/
def Rewritten : Pattern → Pattern → Prop := Relation.EqvGen (Replaced Rewrite)

/-- All that counts in a union is whether any alternative accepts the value. -/
theorem agrees_union {ps qs : List Pattern} (h : ∀ f : Pattern → Bool, ps.any f = qs.any f) :
    (union ps).Agrees (union qs) := by
  intro nulls value
  rw [accepts, accepts, anyAccepts_eq_any, anyAccepts_eq_any, h]

/-- All that counts in a record is whether all fields accept what they find. -/
theorem agrees_record {fields others : List (Text × Pattern)}
    (h : ∀ f : Text × Pattern → Bool, fields.all f = others.all f) :
    (record fields).Agrees (record others) := by
  intro nulls value
  cases value with
  | dict entries =>
    change fieldsAccept nulls fields entries = fieldsAccept nulls others entries
    rw [fieldsAccept_eq_all, fieldsAccept_eq_all, h]
  | _ => rfl

theorem agrees_spliced (before inner after : List Pattern) :
    (union (before ++ union inner :: after)).Agrees (union (before ++ (inner ++ after))) := by
  intro nulls value
  simp only [accepts, anyAccepts_eq_any, List.any_append, List.any_cons]

theorem agrees_wrapped (p : Pattern) : p.Agrees (union [p]) := by
  intro nulls value
  rw [accepts, anyAccepts, anyAccepts, Bool.or_false]

theorem Rewrite.agrees {p q : Pattern} (h : Rewrite p q) : p.Agrees q := by
  cases h with
  | permuted h => exact agrees_union fun _ => h.any_eq
  | repeated before p after => exact agrees_union fun f => by simp [← Bool.or_assoc]
  | spliced before inner after => exact agrees_spliced before inner after
  | wrapped => exact agrees_wrapped p
  | permutedFields h => exact agrees_record fun _ => h.all_eq
  | repeatedField before field after => exact agrees_record fun f => by simp [← Bool.and_assoc]

theorem Rewritten.agrees {p q : Pattern} (h : p.Rewritten q) : p.Agrees q := by
  induction h with
  | rel p q h => exact agrees_of_replaced (fun _ _ => Rewrite.agrees) h
  | refl p => exact .refl p
  | symm p q _ ih => exact ih.symm
  | trans p q r _ _ ihp ihq => exact ihp.trans ihq

end Pattern

open Pattern in
/-- A pattern with its unions and records rewritten accepts the same values. -/
theorem Policy.accepts_rewritten (policy : Policy) {p q : Pattern} (h : p.Rewritten q)
    (value : Value) : policy.accepts p value = policy.accepts q value :=
  h.agrees policy.nulls value

open Pattern in
/-- In a field a union is dissolved into its parent and another pattern is no longer wrapped; then
the fields change places and one of them is repeated. -/
theorem Policy.accepts_rewritten_of_fields :
    let named (kind : Kind) := Pattern.named kind.name (.single (.kind kind))
    let a := "a".toList
    let b := "b".toList
    let nested := Pattern.union [named .int, .union [named .str, named .null]]
    let flat := Pattern.union [named .int, named .str, named .null]
    let p := Pattern.record [(a, nested), (b, .union [.list .any])]
    let q := Pattern.record [(b, .list .any), (b, .list .any), (a, flat)]
    let value := Value.dict [(.str a, .null), (.str b, .list [.int 1])]
    p.Rewritten q ∧ Policy.accepts {} p value = Policy.accepts {} q value := by
  intro named a b nested flat p q value
  have hs : Replaced Rewrite p (.record [(a, flat), (b, .union [.list .any])]) :=
    .record (.cons (.field a (.here (.spliced [named .int] [named .str, named .null] [])))
      (.cons (.field b (.refl _)) .nil))
  have hw : Replaced Rewrite (.record [(a, flat), (b, .list .any)])
      (.record [(a, flat), (b, .union [.list .any])]) :=
    .record (.cons (.field a (.refl _)) (.cons (.field b (.here (.wrapped _))) .nil))
  have hp : Replaced Rewrite (.record [(a, flat), (b, .list .any)])
      (.record [(b, .list .any), (a, flat)]) := .here (.permutedFields (.swap ..))
  have hr : Replaced Rewrite (.record [(b, .list .any), (a, flat)]) q :=
    .here (.repeatedField [] (b, .list .any) [(a, flat)])
  have h : p.Rewritten q := by
    refine .trans _ _ _ (.rel _ _ hs) (.trans _ _ _ (.symm _ _ (.rel _ _ hw)) ?_)
    exact .trans _ _ _ (.rel _ _ hp) (.rel _ _ hr)
  exact ⟨h, Policy.accepts_rewritten {} h value⟩

end DocTypes
