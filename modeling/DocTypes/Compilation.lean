import DocTypes.Catalog
import DocTypes.Outline
import DocTypes.Pattern

set_option autoImplicit false

/-!
# Compiling expressions

A scope says what names denote: the types of the catalog, else the answer of a resolver asked from
outside, else the builtin kind of that name, else nothing. Compiling an expression binds the names
of its outline from left to right and stops at the first fault.

A resolver may answer differently at different moments. Moments count the questions that were put
before.
-/

namespace DocTypes

namespace Outline

variable {σ : Type}

mutual

/-- Binds each name in the state that the names to its left have left behind. -/
def compile (bind : Text → σ → Pattern × σ) : Outline → σ → Except Fault Pattern × σ
  | blank, state => (.ok .any, state)
  | name n, state => (bind n state).map .ok id
  | union alternatives, state => (compileEach bind alternatives state).map (·.map .union) id
  | list element, state => (element.compile bind state).map (·.map .list) id
  | tuple items, state => (compileEach bind items state).map (·.map .tuple) id
  | set element, state => (element.compile bind state).map (·.map .set) id
  | map key value, state =>
    match key.compile bind state with
    | (.ok k, state) => (value.compile bind state).map (·.map (.map k)) id
    | (.error f, state) => (.error f, state)
  | record fields, state => (compileFields bind fields state).map (·.map .record) id
  | fault f, state => (.error f, state)
termination_by structural outline => outline

def compileEach (bind : Text → σ → Pattern × σ) :
    List Outline → σ → Except Fault (List Pattern) × σ
  | [], state => (.ok [], state)
  | outline :: more, state =>
    match outline.compile bind state with
    | (.ok pattern, state) => (compileEach bind more state).map (·.map (pattern :: ·)) id
    | (.error f, state) => (.error f, state)
termination_by structural outlines => outlines

def compileFields (bind : Text → σ → Pattern × σ) :
    List (Text × Outline) → σ → Except Fault (List (Text × Pattern)) × σ
  | [], state => (.ok [], state)
  | (label, outline) :: more, state =>
    match outline.compile bind state with
    | (.ok pattern, state) =>
      (compileFields bind more state).map (·.map ((label, pattern) :: ·)) id
    | (.error f, state) => (.error f, state)
termination_by structural fields => fields

end

end Outline

structure Scope where
  catalog : Catalog
  answer? : Option (Nat → Text → Option TypeRef)

/-- What binding names has come to: the names the resolver was asked for, and those that denote
nothing, both in order and with repeats. -/
structure Findings where
  asked : List Text := []
  unresolved : List Text := []

/-- What compiling one text came to. The names are those that stand before the first fault. -/
structure Compilation extends Findings where
  result : Except Fault Pattern

namespace Scope

/-- The type of a name that the catalog lacks. -/
def outside? (scope : Scope) (moment : Nat) (name : Text) : Option TypeRef :=
  (scope.answer?.bind fun answer => answer moment name).or (TypeRef.builtin? name)

def bind (scope : Scope) (moment : Nat) (name : Text) : Pattern :=
  match scope.catalog.find? name with
  | some types => .named name types
  | none =>
    match scope.outside? moment name with
    | some type => .named name (.single type)
    | none => .unresolved name

def asks (scope : Scope) (name : Text) : Bool :=
  scope.answer?.isSome && !scope.catalog.contains name

def leavesUnresolved (scope : Scope) (moment : Nat) (name : Text) : Bool :=
  !scope.catalog.contains name && (scope.outside? moment name).isNone

def note (scope : Scope) (moment : Nat) (name : Text) (found : Findings) : Findings where
  asked := if scope.asks name then found.asked ++ [name] else found.asked
  unresolved :=
    if scope.leavesUnresolved moment name then found.unresolved ++ [name] else found.unresolved

/-- Binds the name that comes up next, in a compilation that began at `start`. -/
def bindNext (scope : Scope) (start : Nat) (name : Text) (found : Findings) : Pattern × Findings :=
  let moment := start + found.asked.length
  (scope.bind moment name, scope.note moment name found)

def compileAt (scope : Scope) (start : Nat) (text : Text) : Compilation :=
  let (result, found) := (Outline.read text).compile (scope.bindNext start) {}
  ⟨found, result⟩

def patternAt? (scope : Scope) (start : Nat) (text : Text) : Except Fault Pattern :=
  (scope.compileAt start text).result

def pattern? (scope : Scope) (text : Text) : Except Fault Pattern := scope.patternAt? 0 text

end Scope

/-- Adds the names that are new, each once, in order. -/
def addNames (seen names : List Text) : List Text :=
  names.foldl (fun seen name => if name ∈ seen then seen else seen ++ [name]) seen

namespace Scope

/-- Compiles texts one after the other, each with the unresolved names seen up to and in it. -/
def compileEachAt (scope : Scope) (start : Nat) (seen : List Text) :
    List Text → List (Compilation × List Text)
  | [] => []
  | text :: more =>
    let compilation := scope.compileAt start text
    let seen := addNames seen compilation.unresolved
    (compilation, seen) :: scope.compileEachAt (start + compilation.asked.length) seen more

def compileEach (scope : Scope) (seen texts : List Text) : List (Compilation × List Text) :=
  scope.compileEachAt 0 seen texts

end Scope

theorem mem_addNames {name : Text} {seen names : List Text} :
    name ∈ addNames seen names ↔ name ∈ seen ∨ name ∈ names := by
  unfold addNames
  induction names generalizing seen with
  | nil => simp
  | cons first more ih =>
    rw [List.foldl_cons, ih]
    split
    case isTrue h =>
      constructor
      · rintro (h | h)
        · exact .inl h
        · exact .inr (List.mem_cons_of_mem _ h)
      · rintro (h | h)
        · exact .inl h
        · rcases List.mem_cons.1 h with rfl | h
          · exact .inl ‹_›
          · exact .inr h
    case isFalse => simp [or_assoc]

theorem nodup_addNames {seen names : List Text} (h : seen.Nodup) : (addNames seen names).Nodup := by
  unfold addNames
  induction names generalizing seen with
  | nil => exact h
  | cons first more ih =>
    rw [List.foldl_cons]
    apply ih
    split
    · exact h
    · rename_i hn
      exact List.nodup_append.2 ⟨h, List.nodup_cons.2 ⟨List.not_mem_nil, List.nodup_nil⟩,
        fun a ha b hb => by
          rintro rfl
          exact hn (List.mem_singleton.1 hb ▸ ha)⟩

end DocTypes
