import DocTypes.TypeSet

set_option autoImplicit false

/-!
# Patterns

A pattern is a type expression with its names bound: a name to the types it denotes, or to nothing
when it denotes none.
-/

namespace DocTypes

inductive Pattern where
  | any
  | unresolved (name : Text)
  | union (alternatives : List Pattern)
  | list (element : Pattern)
  | tuple (items : List Pattern)
  | set (element : Pattern)
  | map (key value : Pattern)
  | record (fields : List (Text × Pattern))
  | named (name : Text) (types : TypeSet)

namespace Pattern

/-- A pattern is made from its parts. -/
@[elab_as_elim, induction_eliminator]
theorem induct {motive : Pattern → Prop} (any : motive .any)
    (unresolved : ∀ name, motive (.unresolved name))
    (union : ∀ alternatives, (∀ pattern ∈ alternatives, motive pattern) →
      motive (.union alternatives))
    (list : ∀ element, motive element → motive (.list element))
    (tuple : ∀ items, (∀ pattern ∈ items, motive pattern) → motive (.tuple items))
    (set : ∀ element, motive element → motive (.set element))
    (map : ∀ key value, motive key → motive value → motive (.map key value))
    (record : ∀ fields, (∀ field ∈ fields, motive field.2) → motive (.record fields))
    (named : ∀ name types, motive (.named name types)) (pattern : Pattern) : motive pattern :=
  @Pattern.rec motive (fun patterns => ∀ pattern ∈ patterns, motive pattern)
    (fun fields => ∀ field ∈ fields, motive field.2) (fun field => motive field.2)
    any unresolved union list tuple set map record named (List.forall_mem_nil _)
    (fun _ _ hp hm => List.forall_mem_cons.2 ⟨hp, hm⟩) (List.forall_mem_nil _)
    (fun _ _ hf hm => List.forall_mem_cons.2 ⟨hf, hm⟩) (fun _ _ hp => hp) pattern

/-- Nothing is said about the value, except that it is one. -/
def isAny : Pattern → Bool
  | any | unresolved _ => true
  | _ => false

/-- Only a name that may denote the null type judges null by itself. -/
def judgesNull : Pattern → Bool
  | named _ types => types.admitsNull
  | _ => false

mutual

def equals : Pattern → Pattern → Bool
  | any, any => true
  | unresolved a, unresolved b => a == b
  | union a, union b => equalsEach a b
  | list a, list b => a.equals b
  | tuple a, tuple b => equalsEach a b
  | set a, set b => a.equals b
  | map k v, map l w => k.equals l && v.equals w
  | record a, record b => equalsFields a b
  | named a s, named b t => a == b && s == t
  | _, _ => false
termination_by structural pattern => pattern

def equalsEach : List Pattern → List Pattern → Bool
  | [], [] => true
  | a :: as, b :: bs => a.equals b && equalsEach as bs
  | _, _ => false
termination_by structural patterns => patterns

def equalsFields : List (Text × Pattern) → List (Text × Pattern) → Bool
  | [], [] => true
  | (n, a) :: as, (m, b) :: bs => n == m && a.equals b && equalsFields as bs
  | _, _ => false
termination_by structural fields => fields

end

instance : BEq Pattern := ⟨equals⟩

mutual

/-- The names at the leaves, from left to right. -/
def names : Pattern → List Text
  | any => []
  | unresolved name => [name]
  | union alternatives => namesEach alternatives
  | list element => element.names
  | tuple items => namesEach items
  | set element => element.names
  | map key value => key.names ++ value.names
  | record fields => namesFields fields
  | named name _ => [name]
termination_by structural pattern => pattern

def namesEach : List Pattern → List Text
  | [] => []
  | pattern :: more => pattern.names ++ namesEach more
termination_by structural patterns => patterns

def namesFields : List (Text × Pattern) → List Text
  | [] => []
  | (_, pattern) :: more => pattern.names ++ namesFields more
termination_by structural fields => fields

end

mutual

/-- The names that denote nothing, from left to right. -/
def unresolvedNames : Pattern → List Text
  | any => []
  | unresolved name => [name]
  | union alternatives => unresolvedEach alternatives
  | list element => element.unresolvedNames
  | tuple items => unresolvedEach items
  | set element => element.unresolvedNames
  | map key value => key.unresolvedNames ++ value.unresolvedNames
  | record fields => unresolvedFields fields
  | named _ _ => []
termination_by structural pattern => pattern

def unresolvedEach : List Pattern → List Text
  | [] => []
  | pattern :: more => pattern.unresolvedNames ++ unresolvedEach more
termination_by structural patterns => patterns

def unresolvedFields : List (Text × Pattern) → List Text
  | [] => []
  | (_, pattern) :: more => pattern.unresolvedNames ++ unresolvedFields more
termination_by structural fields => fields

end

end Pattern

end DocTypes
