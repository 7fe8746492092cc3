import DocTypes.Checker
import DocTypes.DocComment

set_option autoImplicit false

/-!
# Contracts

The contract of a callable holds the types that its doc comment declares for its parameters and for
what it returns, compiled when the contract is drafted. Drafting it checks the defaults; a call
under it checks the arguments before and the result after, and changes neither.
-/

namespace DocTypes

/-- What the user is told about a callable. -/
inductive Notice where
  | mismatch (m : Mismatch)
  | missingDoc (entity : Text)
  | missingType (entity parameter : Text)

def Notice.text : Notice → Text
  | mismatch m => m.text
  | missingDoc entity => "Missing doc for ".toList ++ Text.inTicks entity ++ ['.']
  | missingType entity parameter =>
    "Missing type information for argument ".toList ++ Text.inTicks parameter ++ " in ".toList ++
      Text.inTicks entity ++ ['.']

structure Parameter where
  name : Text
  default? : Option Value := none

structure Signature where
  entity : Text
  doc? : Option Text := none
  parameters : List Parameter := []

/-- A declared type as it is written, and its pattern. -/
structure Declared where
  text : Text
  pattern : Pattern

structure Slot where
  name : Text
  declared? : Option Declared

structure Contract where
  policy : Policy
  entity : Text
  slots : List Slot
  returned? : Option Declared

namespace Declared

def accepts (declared : Declared) (policy : Policy) (value : Value) : Bool :=
  policy.accepts declared.pattern value

def judge (declared : Declared) (policy : Policy) (value : Value) (slot entity : Text) : Verdict :=
  policy.judge declared.text declared.pattern value slot entity

def notices (declared : Declared) (policy : Policy) (value : Value) (slot entity : Text) :
    List Notice :=
  (declared.judge policy value slot entity).toList.map .mismatch

theorem length_notices (declared : Declared) (policy : Policy) (value : Value)
    (slot entity : Text) : (declared.notices policy value slot entity).length =
      if declared.accepts policy value then 0 else 1 := by
  rw [notices, List.length_map, accepts]
  cases hj : declared.judge policy value slot entity with
  | none => rw [if_pos (Policy.judge_eq_none_iff.1 hj), Option.toList_none, List.length_nil]
  | some mismatch =>
    have hn : ¬ policy.accepts declared.pattern value = true := by
      intro ha
      rw [judge, Policy.judge_eq_none_iff.2 ha] at hj
      cases hj
    rw [if_neg hn, Option.toList_some, List.length_singleton]

end Declared

namespace Signature

/-- A first parameter of this name needs no type. -/
def receiver : Text := "self".toList

/-- What there is to tell about an undeclared parameter. -/
def undeclaredNotices (policy : Policy) (entity : Text) (isFirst : Bool) (name : Text) :
    List Notice :=
  if policy.complains && !(isFirst && name == receiver) then [.missingType entity name] else []

def defaultNotices (policy : Policy) (entity : Text) (parameter : Parameter)
    (declared : Declared) : List Notice :=
  match parameter.default? with
  | some value => declared.notices policy value parameter.name entity
  | none => []

/-- Drafts the slots in order, up to the first type that has a fault. -/
def draftSlots (entity doc : Text) (isFirst : Bool) :
    List Parameter → Desk → Desk × List Notice × Except Fault (List Slot)
  | [], desk => (desk, [], .ok [])
  | parameter :: more, desk =>
    match DocComment.declared? doc parameter.name with
    | none =>
      let notices := undeclaredNotices desk.checker.policy entity isFirst parameter.name
      let (after, later, slots) := draftSlots entity doc false more desk
      (after, notices ++ later, slots.map (⟨parameter.name, none⟩ :: ·))
    | some text =>
      match desk.compile text with
      | (after, .error f) => (after, [], .error f)
      | (after, .ok compiled) =>
        let declared : Declared := ⟨text, compiled.pattern⟩
        let notices := defaultNotices desk.checker.policy entity parameter declared
        let (last, later, slots) := draftSlots entity doc false more after
        (last, notices ++ later, slots.map (⟨parameter.name, some declared⟩ :: ·))

def draftReturned (doc : Text) (desk : Desk) : Desk × Except Fault (Option Declared) :=
  match DocComment.returned? doc with
  | none => (desk, .ok none)
  | some text =>
    match desk.compile text with
    | (after, .error f) => (after, .error f)
    | (after, .ok compiled) => (after, .ok (some ⟨text, compiled.pattern⟩))

def draftDocumented (signature : Signature) (doc : Text) (desk : Desk) :
    Desk × List Notice × Except Fault Contract :=
  match draftSlots signature.entity doc true signature.parameters desk with
  | (after, notices, .error f) => (after, notices, .error f)
  | (after, notices, .ok slots) =>
    match draftReturned doc after with
    | (last, .error f) => (last, notices, .error f)
    | (last, .ok returned?) =>
      (last, notices, .ok ⟨desk.checker.policy, signature.entity, slots, returned?⟩)

/-- The contract of a callable without a doc comment, which asks for nothing. -/
def undocumented (signature : Signature) (policy : Policy) : Contract :=
  ⟨policy, signature.entity, signature.parameters.map fun parameter => ⟨parameter.name, none⟩, none⟩

def draft (signature : Signature) (desk : Desk) : Desk × List Notice × Except Fault Contract :=
  match signature.doc? with
  | some doc => signature.draftDocumented doc desk
  | none =>
    (desk, if desk.checker.policy.complains then [.missingDoc signature.entity] else [],
      .ok (signature.undocumented desk.checker.policy))

end Signature

abbrev Keywords := List (Text × Value)

namespace Keywords

def find? (keywords : Keywords) (name : Text) : Option Value :=
  (List.find? (fun keyword => keyword.1 = name) keywords).map Prod.snd

end Keywords

namespace Contract

/-- The notices for the parameters from the `index`-th on: a parameter gets the argument at its
place, or else the first keyword of its name. -/
def slotNotices (contract : Contract) (arguments : List Value) (keywords : Keywords) :
    Nat → List Slot → List Notice
  | _, [] => []
  | index, slot :: more =>
    (match slot.declared?, arguments[index]? <|> Keywords.find? keywords slot.name with
      | some declared, some value =>
        declared.notices contract.policy value slot.name contract.entity
      | _, _ => []) ++ slotNotices contract arguments keywords (index + 1) more

def callNotices (contract : Contract) (arguments : List Value) (keywords : Keywords) :
    List Notice :=
  contract.slotNotices arguments keywords 0 contract.slots

/-- How many of the parameters from the `index`-th on get a value that is rejected. -/
def slotMismatches (contract : Contract) (arguments : List Value) (keywords : Keywords) :
    Nat → List Slot → Nat
  | _, [] => 0
  | index, slot :: more =>
    (match slot.declared?, arguments[index]? <|> Keywords.find? keywords slot.name with
      | some declared, some value => if declared.accepts contract.policy value then 0 else 1
      | _, _ => 0) + slotMismatches contract arguments keywords (index + 1) more

def callMismatches (contract : Contract) (arguments : List Value) (keywords : Keywords) : Nat :=
  contract.slotMismatches arguments keywords 0 contract.slots

def acceptsReturned (contract : Contract) (value : Value) : Bool :=
  match contract.returned? with
  | some declared => declared.accepts contract.policy value
  | none => true

def returnNotices (contract : Contract) (value : Value) : List Notice :=
  match contract.returned? with
  | some declared => declared.notices contract.policy value Mismatch.returnSlot contract.entity
  | none => []

/-- Calls `f` with the arguments as they are. What is wrong with them is told before the call, and
what is wrong with the result after it. -/
def call {m : Type → Type} [Monad m] (contract : Contract) (tell : Notice → m Unit)
    (f : List Value → Keywords → m Value) (arguments : List Value) (keywords : Keywords) :
    m Value := do
  (contract.callNotices arguments keywords).forM tell
  let result ← f arguments keywords
  (contract.returnNotices result).forM tell
  return result

theorem length_slotNotices (contract : Contract) (arguments : List Value) (keywords : Keywords)
    (index : Nat) (slots : List Slot) :
    (contract.slotNotices arguments keywords index slots).length =
      contract.slotMismatches arguments keywords index slots := by
  induction slots generalizing index with
  | nil => rfl
  | cons slot more ih =>
    rw [slotNotices, slotMismatches, List.length_append, ih]
    refine congrArg (· + _) ?_
    split
    · exact Declared.length_notices ..
    · rfl

/-- What is told of a call are the mismatches that are counted. -/
theorem length_callNotices (contract : Contract) (arguments : List Value) (keywords : Keywords) :
    (contract.callNotices arguments keywords).length =
      contract.callMismatches arguments keywords :=
  contract.length_slotNotices arguments keywords 0 contract.slots

section World

variable {ω : Type} (tell : ω → Notice → ω)

theorem run_forM_tell (notices : List Notice) (world : ω) :
    (notices.forM fun notice => (modify (tell · notice) : StateM ω Unit)).run world =
      ((), notices.foldl tell world) := by
  induction notices generalizing world with
  | nil => rfl
  | cons notice more ih => exact ih (tell world notice)

/-- A call by which the callable and those who are told change one world. -/
theorem run_call (contract : Contract) (f : List Value → Keywords → StateM ω Value)
    (arguments : List Value) (keywords : Keywords) (world : ω) :
    (contract.call (fun notice => modify (tell · notice)) f arguments keywords).run world =
      let before := (contract.callNotices arguments keywords).foldl tell world
      let (result, after) := (f arguments keywords).run before
      (result, (contract.returnNotices result).foldl tell after) := by
  simp only [call, StateT.run_bind, run_forM_tell]
  rfl

end World

end Contract

end DocTypes
