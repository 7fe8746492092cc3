import DocTypes.Compilation

set_option autoImplicit false

/-!
# Compiling as a walk

Compiling an outline passes its leaves from left to right, each name in the state that the names
before it have left behind, up to the first fault. The constructs around the leaves play no part.
-/

namespace DocTypes.Outline

variable {σ α β : Type}

/-- Passes leaves up to the first fault. -/
def walk (step : Text → σ → Pattern × σ) : List (Except Fault Text) → σ → Option Fault × σ
  | [], state => (none, state)
  | .ok n :: more, state => walk step more (step n state).2
  | .error f :: _, state => (some f, state)

def faultOf : Except Fault α → Option Fault
  | .ok _ => none
  | .error f => some f

/-- What is done from a state on passes these leaves and ends at the fault where they end. -/
def Walks (step : Text → σ → Pattern × σ) (leaves : List (Except Fault Text))
    (run : σ → Except Fault α × σ) : Prop :=
  ∀ state, walk step leaves state = (run state).map faultOf id

variable {step : Text → σ → Pattern × σ} {leaves later : List (Except Fault Text)}
  {run : σ → Except Fault α × σ} {next : α → σ → Except Fault β × σ}

theorem walk_append (state : σ) : walk step (leaves ++ later) state =
    match walk step leaves state with
    | (none, state) => walk step later state
    | (some f, state) => (some f, state) := by
  induction leaves generalizing state with
  | nil => rfl
  | cons leaf more ih =>
    cases leaf with
    | ok n => exact ih (step n state).2
    | error f => rfl

theorem Walks.map (h : Walks step leaves run) (f : α → β) :
    Walks step leaves fun state => (run state).map (·.map f) id := by
  intro state
  change _ = ((run state).map (·.map f) id).map faultOf id
  rw [h state]
  rcases run state with ⟨e | a, after⟩ <;> rfl

/-- What goes on only where the first part has met no fault passes the leaves of both parts. -/
theorem Walks.seq (h : Walks step leaves run) (hn : ∀ a, Walks step later (next a))
    {whole : σ → Except Fault β × σ} (hw : ∀ state, whole state = match run state with
      | (.ok a, state) => next a state
      | (.error f, state) => (.error f, state)) : Walks step (leaves ++ later) whole := by
  intro state
  rw [walk_append, h state, hw state]
  rcases run state with ⟨e | a, after⟩
  · rfl
  · exact hn a after

theorem walks_compileEach {outlines : List Outline}
    (h : ∀ outline ∈ outlines, Walks step outline.leaves (outline.compile step)) :
    Walks step (leavesEach outlines) (compileEach step outlines) := by
  induction outlines with
  | nil => exact fun _ => rfl
  | cons outline more ih =>
    obtain ⟨ho, hm⟩ := List.forall_mem_cons.1 h
    refine ho.seq (fun pattern => (ih hm).map (pattern :: ·)) fun state => ?_
    rw [compileEach]
    rcases outline.compile step state with ⟨f | pattern, after⟩ <;> rfl

theorem walks_compileFields {fields : List (Text × Outline)}
    (h : ∀ field ∈ fields, Walks step field.2.leaves (field.2.compile step)) :
    Walks step (leavesFields fields) (compileFields step fields) := by
  induction fields with
  | nil => exact fun _ => rfl
  | cons field more ih =>
    obtain ⟨label, outline⟩ := field
    obtain ⟨ho, hm⟩ := List.forall_mem_cons.1 h
    refine ho.seq (fun pattern => (ih hm).map ((label, pattern) :: ·)) fun state => ?_
    rw [compileFields]
    rcases outline.compile step state with ⟨f | pattern, after⟩ <;> rfl

theorem walks_compile (step : Text → σ → Pattern × σ) (outline : Outline) :
    Walks step outline.leaves (outline.compile step) := by
  induction outline with
  | blank => exact fun _ => rfl
  | name n => exact fun _ => rfl
  | union alternatives ih => exact (walks_compileEach ih).map Pattern.union
  | list element ih => exact ih.map Pattern.list
  | tuple items ih => exact (walks_compileEach ih).map Pattern.tuple
  | set element ih => exact ih.map Pattern.set
  | map key value ihk ihv =>
    refine ihk.seq (fun k => ihv.map (Pattern.map k)) fun state => ?_
    rw [compile]
    rcases key.compile step state with ⟨f | k, after⟩ <;> rfl
  | record fields ih => exact (walks_compileFields ih).map Pattern.record
  | fault f => exact fun _ => rfl

theorem walk_snd (leaves : List (Except Fault Text)) (state : σ) :
    (walk step leaves state).2 =
      ((leaves.takeWhile fun leaf => leaf.toBool).filterMap Except.toOption).foldl
        (fun state n => (step n state).2) state := by
  induction leaves generalizing state with
  | nil => rfl
  | cons leaf more ih =>
    cases leaf with
    | ok n => exact ih (step n state).2
    | error f => rfl

/-- Compiling leaves the state in which binding the names before the first fault leaves it. -/
theorem compile_snd (step : Text → σ → Pattern × σ) (outline : Outline) (state : σ) :
    (outline.compile step state).2 =
      outline.names.foldl (fun state n => (step n state).2) state := by
  rw [names, ← walk_snd, walks_compile step outline state]
  rfl

end DocTypes.Outline
