import DocTypes.Compilation
import DocTypes.Proofs.Pattern.Bare

set_option autoImplicit false

/-!
# Filling in names

When what a name is bound to depends on the name alone, compiling an outline fills each name in and
otherwise copies the outline. Whatever the names are bound to, the outcome has the shape of the
outline filled with unbound names, and is a fault exactly when that is one.
-/

namespace DocTypes.Outline

mutual

def fill (bind : Text → Pattern) : Outline → Except Fault Pattern
  | blank => .ok .any
  | name n => .ok (bind n)
  | union alternatives => (fillEach bind alternatives).map .union
  | list element => (element.fill bind).map .list
  | tuple items => (fillEach bind items).map .tuple
  | set element => (element.fill bind).map .set
  | map key value =>
    match key.fill bind with
    | .ok k => (value.fill bind).map (.map k)
    | .error f => .error f
  | record fields => (fillFields bind fields).map .record
  | fault f => .error f
termination_by structural outline => outline

def fillEach (bind : Text → Pattern) : List Outline → Except Fault (List Pattern)
  | [] => .ok []
  | outline :: more =>
    match outline.fill bind with
    | .ok pattern => (fillEach bind more).map (pattern :: ·)
    | .error f => .error f
termination_by structural outlines => outlines

def fillFields (bind : Text → Pattern) :
    List (Text × Outline) → Except Fault (List (Text × Pattern))
  | [] => .ok []
  | (label, outline) :: more =>
    match outline.fill bind with
    | .ok pattern => (fillFields bind more).map ((label, pattern) :: ·)
    | .error f => .error f
termination_by structural fields => fields

end

theorem exists_of_map_eq_ok {α β : Type} {f : α → β} {result : Except Fault α} {b : β}
    (h : result.map f = .ok b) : ∃ a, result = .ok a ∧ f a = b := by
  cases result with
  | error e => cases h
  | ok a => exact ⟨a, rfl, Except.ok.inj h⟩

theorem map_map {α β γ : Type} (f : α → β) (g : β → γ) (result : Except Fault α) :
    (result.map f).map g = result.map (g ∘ f) := by
  cases result <;> rfl

/-- A change of patterns that reaches nothing but the names in them. -/
structure Leafwise (change : Pattern → Pattern) : Prop where
  any : change .any = .any
  union : ∀ patterns, change (.union patterns) = .union (patterns.map change)
  list : ∀ pattern, change (.list pattern) = .list (change pattern)
  tuple : ∀ patterns, change (.tuple patterns) = .tuple (patterns.map change)
  set : ∀ pattern, change (.set pattern) = .set (change pattern)
  map : ∀ key value, change (.map key value) = .map (change key) (change value)
  record : ∀ fields, change (.record fields) =
    .record (fields.map fun field => (field.1, change field.2))

theorem leafwise_id : Leafwise id := by
  constructor <;> simp

theorem leafwise_bare : Leafwise Pattern.bare where
  any := rfl
  union patterns := by rw [Pattern.bare, Pattern.bareEach_eq_map]
  list _ := rfl
  tuple patterns := by rw [Pattern.bare, Pattern.bareEach_eq_map]
  set _ := rfl
  map _ _ := rfl
  record fields := by rw [Pattern.bare, Pattern.bareFields_eq_map]

section Compile

variable {σ : Type} {step : Text → σ → Pattern × σ} {bind : Text → Pattern}
  {change : Pattern → Pattern}

theorem compileEach_map {outlines : List Outline}
    (h : ∀ outline ∈ outlines, ∀ state,
      (outline.compile step state).1.map change = outline.fill bind) (state : σ) :
    (compileEach step outlines state).1.map (List.map change) = fillEach bind outlines := by
  induction outlines generalizing state with
  | nil => rfl
  | cons outline more ih =>
    have ho := h outline (List.mem_cons_self ..) state
    have hm := ih fun o ho => h o (List.mem_cons_of_mem _ ho)
    rw [compileEach, fillEach, ← ho]
    rcases outline.compile step state with ⟨f | pattern, after⟩
    · rfl
    · calc
        ((compileEach step more after).1.map (pattern :: ·)).map (List.map change) =
            ((compileEach step more after).1.map (List.map change)).map (change pattern :: ·) := by
          rw [map_map, map_map]
          rfl
        _ = (fillEach bind more).map (change pattern :: ·) := by rw [hm after]

theorem compileFields_map {fields : List (Text × Outline)}
    (h : ∀ field ∈ fields, ∀ state,
      (field.2.compile step state).1.map change = field.2.fill bind) (state : σ) :
    (compileFields step fields state).1.map
        (List.map fun field => (field.1, change field.2)) = fillFields bind fields := by
  induction fields generalizing state with
  | nil => rfl
  | cons field more ih =>
    obtain ⟨label, outline⟩ := field
    have ho := h (label, outline) (List.mem_cons_self ..) state
    have hm := ih fun f hf => h f (List.mem_cons_of_mem _ hf)
    rw [compileFields, fillFields, ← ho]
    rcases outline.compile step state with ⟨f | pattern, after⟩
    · rfl
    · calc
        ((compileFields step more after).1.map ((label, pattern) :: ·)).map
              (List.map fun field => (field.1, change field.2)) =
            ((compileFields step more after).1.map
              (List.map fun field => (field.1, change field.2))).map
                ((label, change pattern) :: ·) := by
          rw [map_map, map_map]
          rfl
        _ = (fillFields bind more).map ((label, change pattern) :: ·) := by rw [hm after]

/-- If what names are bound to in the end depends on the name alone, so does what is compiled. -/
theorem compile_map (hc : Leafwise change)
    (h : ∀ name state, change (step name state).1 = bind name) (outline : Outline) (state : σ) :
    (outline.compile step state).1.map change = outline.fill bind := by
  induction outline generalizing state with
  | blank => exact congrArg Except.ok hc.any
  | name n => exact congrArg Except.ok (h n state)
  | union alternatives ih =>
    rw [fill, ← compileEach_map ih state, map_map]
    exact (map_map ..).trans (congrArg (Except.map · _) (funext hc.union))
  | list element ih =>
    rw [fill, ← ih state, map_map]
    exact (map_map ..).trans (congrArg (Except.map · _) (funext hc.list))
  | tuple items ih =>
    rw [fill, ← compileEach_map ih state, map_map]
    exact (map_map ..).trans (congrArg (Except.map · _) (funext hc.tuple))
  | set element ih =>
    rw [fill, ← ih state, map_map]
    exact (map_map ..).trans (congrArg (Except.map · _) (funext hc.set))
  | map key value ihk ihv =>
    rw [compile, fill, ← ihk state]
    rcases key.compile step state with ⟨f | k, after⟩
    · rfl
    · change _ = (value.fill bind).map (Pattern.map (change k))
      rw [← ihv after, map_map]
      exact (map_map ..).trans (congrArg (Except.map · _) (funext (hc.map k)))
  | record fields ih =>
    rw [fill, ← compileFields_map ih state, map_map]
    exact (map_map ..).trans (congrArg (Except.map · _) (funext hc.record))
  | fault f => rfl

/-- Compiling with bindings that depend on the name alone is filling. -/
theorem compile_eq_fill (h : ∀ name state, (step name state).1 = bind name) (outline : Outline)
    (state : σ) : (outline.compile step state).1 = outline.fill bind := by
  have hm := compile_map leafwise_id h outline state
  rwa [Except.map_id, id] at hm

/-- Bindings that keep the names, however they come about, do not show in the bare pattern. -/
theorem compile_bare (h : ∀ name state, (step name state).1.bare = .unresolved name)
    (outline : Outline) (state : σ) :
    (outline.compile step state).1.map Pattern.bare = outline.fill .unresolved :=
  compile_map leafwise_bare h outline state

end Compile

end DocTypes.Outline
