import DocTypes.Value

set_option autoImplicit false

/-!
# Types and sets of types

A type is a builtin kind or a class. A set of types keeps its members in the order in which they
came, none of them twice.
-/

namespace DocTypes

inductive TypeRef where
  | kind (k : Kind)
  | ofClass (c : Class)

namespace TypeRef

def equals : TypeRef → TypeRef → Bool
  | kind a, kind b => a == b
  | ofClass a, ofClass b => a == b
  | _, _ => false

instance : BEq TypeRef := ⟨equals⟩

def text : TypeRef → Text
  | kind k => k.name
  | ofClass c => c.path

def isNullType : TypeRef → Bool
  | kind .null => true
  | _ => false

/-- Every value but null is an object. -/
def hasInstance : TypeRef → Value → Bool
  | kind .object, value => !value.isNull
  | kind k, value => value.kind? == some k
  | ofClass c, value => value.class?.any (·.derivesFrom c)

/-- The builtin kind of a name, as a type. -/
def builtin? (name : Text) : Option TypeRef := (Kind.ofName? name).map kind

instance : EquivBEq TypeRef where
  rfl {a} := by
    cases a
    · exact beq_self_eq_true (α := Kind) _
    · exact BEq.rfl (α := Class)
  symm {a b} h := by
    cases a <;> cases b
    · exact BEq.symm (α := Kind) h
    · exact h
    · exact h
    · exact BEq.symm (α := Class) h
  trans {a b c} h k := by
    cases a <;> cases b <;> cases c
    · exact BEq.trans (α := Kind) h k
    · exact k
    · exact Bool.noConfusion h
    · exact Bool.noConfusion h
    · exact Bool.noConfusion h
    · exact Bool.noConfusion h
    · exact k
    · exact BEq.trans (α := Class) h k

theorem isNullType_eq (type : TypeRef) : type.isNullType = (type == kind .null) := by
  rcases type with k | c
  · cases k <;> rfl
  · rfl

theorem hasInstance_null (type : TypeRef) : type.hasInstance .null = type.isNullType := by
  rcases type with k | c
  · cases k <;> rfl
  · rfl

end TypeRef

structure TypeSet where
  members : List TypeRef

namespace TypeSet

def empty : TypeSet := ⟨[]⟩

def single (type : TypeRef) : TypeSet := ⟨[type]⟩

def contains (types : TypeSet) (type : TypeRef) : Bool := types.members.any (· == type)

def insert (types : TypeSet) (type : TypeRef) : TypeSet :=
  if types.contains type then types else ⟨types.members ++ [type]⟩

def ofList (types : List TypeRef) : TypeSet := types.foldl insert empty

def size (types : TypeSet) : Nat := types.members.length

def hasInstance (types : TypeSet) (value : Value) : Bool :=
  types.members.any (·.hasInstance value)

def admitsNull (types : TypeSet) : Bool := types.members.any (·.isNullType)

def equals (a b : TypeSet) : Bool := a.members == b.members

instance : BEq TypeSet := ⟨equals⟩

theorem contains_insert (types : TypeSet) (type other : TypeRef) :
    (types.insert type).contains other = (types.contains other || type == other) := by
  unfold insert
  split
  case isTrue h =>
    cases hb : type == other
    · simp
    · rw [contains, List.any_eq_true] at h
      obtain ⟨member, hm, he⟩ := h
      have ho : types.contains other = true := List.any_eq_true.2 ⟨member, hm, BEq.trans he hb⟩
      simp [ho]
  case isFalse => simp [contains]

theorem insert_of_contains {types : TypeSet} {type : TypeRef} (h : types.contains type = true) :
    types.insert type = types := if_pos h

theorem hasInstance_null (types : TypeSet) : types.hasInstance .null = types.admitsNull := by
  simp only [hasInstance, admitsNull, TypeRef.hasInstance_null]

end TypeSet

end DocTypes
