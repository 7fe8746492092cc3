import DocTypes.Compilation

set_option autoImplicit false

/-!
# What compiling finds

A compilation that succeeds has found unresolved exactly the names that its pattern leaves unbound,
in the same order and as often.
-/

namespace DocTypes.Outline

variable {σ : Type} {step : Text → σ → Pattern × σ} {log : σ → List Text}

theorem exists_of_map_eq {α β : Type} {f : α → β} {outcome : Except Fault α × σ} {b : β} {after : σ}
    (h : outcome.map (·.map f) id = (.ok b, after)) : ∃ a, outcome = (.ok a, after) ∧ f a = b := by
  obtain ⟨e | a, state⟩ := outcome
  · cases h
  · cases h
    exact ⟨a, rfl, rfl⟩

/-- The log of a state gains what the outline leaves unbound. -/
def Logs (step : Text → σ → Pattern × σ) (log : σ → List Text) (outline : Outline) : Prop :=
  ∀ (state after : σ) (p : Pattern), outline.compile step state = (.ok p, after) →
    log after = log state ++ p.unresolvedNames

theorem log_compileEach {outlines : List Outline} (h : ∀ outline ∈ outlines, outline.Logs step log)
    {state after : σ} {ps : List Pattern}
    (hc : compileEach step outlines state = (.ok ps, after)) :
    log after = log state ++ Pattern.unresolvedEach ps := by
  induction outlines generalizing state ps with
  | nil =>
    cases hc
    exact (List.append_nil _).symm
  | cons outline more ih =>
    obtain ⟨ho, hm⟩ := List.forall_mem_cons.1 h
    rw [compileEach] at hc
    rcases hp : outline.compile step state with ⟨f | p, between⟩
    · rw [hp] at hc
      cases hc
    · rw [hp] at hc
      obtain ⟨rest, hr, rfl⟩ := exists_of_map_eq hc
      rw [ih hm hr, ho _ _ _ hp, List.append_assoc, Pattern.unresolvedEach]

theorem log_compileFields {fields : List (Text × Outline)}
    (h : ∀ field ∈ fields, field.2.Logs step log) {state after : σ}
    {found : List (Text × Pattern)} (hc : compileFields step fields state = (.ok found, after)) :
    log after = log state ++ Pattern.unresolvedFields found := by
  induction fields generalizing state found with
  | nil =>
    cases hc
    exact (List.append_nil _).symm
  | cons field more ih =>
    obtain ⟨label, outline⟩ := field
    obtain ⟨ho, hm⟩ := List.forall_mem_cons.1 h
    rw [compileFields] at hc
    rcases hp : outline.compile step state with ⟨f | p, between⟩
    · rw [hp] at hc
      cases hc
    · rw [hp] at hc
      obtain ⟨rest, hr, rfl⟩ := exists_of_map_eq hc
      rw [ih hm hr, ho _ _ _ hp, List.append_assoc, Pattern.unresolvedFields]

/-- If binding a name logs it whenever it is left unbound, compiling logs all such names. -/
theorem logs_of_step
    (h : ∀ name state, log (step name state).2 = log state ++ (step name state).1.unresolvedNames)
    (outline : Outline) : outline.Logs step log := by
  induction outline with
  | blank =>
    rintro state after p ⟨⟩
    exact (List.append_nil _).symm
  | name n =>
    rintro state after p ⟨⟩
    exact h n state
  | union alternatives ih =>
    intro state after p hc
    obtain ⟨ps, hp, rfl⟩ := exists_of_map_eq hc
    exact log_compileEach ih hp
  | list element ih =>
    intro state after p hc
    obtain ⟨q, hp, rfl⟩ := exists_of_map_eq hc
    exact ih _ _ q hp
  | tuple items ih =>
    intro state after p hc
    obtain ⟨ps, hp, rfl⟩ := exists_of_map_eq hc
    exact log_compileEach ih hp
  | set element ih =>
    intro state after p hc
    obtain ⟨q, hp, rfl⟩ := exists_of_map_eq hc
    exact ih _ _ q hp
  | map key value ihk ihv =>
    intro state after p hc
    rw [compile] at hc
    rcases hk : key.compile step state with ⟨f | k, between⟩
    · rw [hk] at hc
      cases hc
    · rw [hk] at hc
      obtain ⟨v, hv, rfl⟩ := exists_of_map_eq hc
      rw [ihv _ _ _ hv, ihk _ _ _ hk, List.append_assoc, Pattern.unresolvedNames]
  | record fields ih =>
    intro state after p hc
    obtain ⟨found, hp, rfl⟩ := exists_of_map_eq hc
    exact log_compileFields ih hp
  | fault f => rintro state after p ⟨⟩

end DocTypes.Outline

namespace DocTypes.Scope

theorem unresolvedNames_bind (scope : Scope) (moment : Nat) (name : Text) :
    (scope.bind moment name).unresolvedNames =
      if scope.leavesUnresolved moment name then [name] else [] := by
  unfold bind leavesUnresolved Catalog.contains
  cases scope.catalog.find? name with
  | some types => rfl
  | none => cases scope.outside? moment name <;> rfl

theorem unresolved_bindNext (scope : Scope) (start : Nat) (name : Text) (found : Findings) :
    (scope.bindNext start name found).2.unresolved =
      found.unresolved ++ (scope.bindNext start name found).1.unresolvedNames := by
  simp only [bindNext, note, unresolvedNames_bind]
  split
  · rfl
  · exact (List.append_nil _).symm

theorem unresolved_compileAt (scope : Scope) {start : Nat} {text : Text} {p : Pattern}
    (h : (scope.compileAt start text).result = .ok p) :
    (scope.compileAt start text).unresolved = p.unresolvedNames := by
  rcases hc : (Outline.read text).compile (scope.bindNext start) {} with ⟨result, found⟩
  have hl := Outline.logs_of_step (unresolved_bindNext scope start) (Outline.read text)
  simp only [compileAt, hc] at h ⊢
  subst h
  exact hl _ _ _ hc

end DocTypes.Scope
