import DocTypes.Memo
import DocTypes.Proofs.Distinct

set_option autoImplicit false

/-!
# What a memo has been used for

A memo is told by the builds that have succeeded since it was last cleared. For each text it
remembers the latest of them, whatever the stamps, and it serves that one under its own stamp only.
A build that fails is as if it had not been tried.
-/

namespace DocTypes.Memo

variable {ε α : Type}

/-- One use of a memo. -/
inductive Use (ε α : Type) where
  | getOrBuild (text : Text) (stamp : Stamp) (build : Unit → Except ε α)
  | get (text : Text) (stamp : Stamp)
  | clear

/-- The memo after a use of it. -/
def use (memo : Memo α) : Use ε α → Memo α
  | .getOrBuild text stamp build => (memo.getOrBuild text stamp build).1
  | .get _ _ => memo
  | .clear => .empty

/-- The builds that have succeeded since the last clearing, given those before a use. A builder that
is not run builds nothing. -/
def record (memo : Memo α) (builds : List (Text × Stamp × α)) :
    Use ε α → List (Text × Stamp × α)
  | .getOrBuild text stamp build =>
    match (memo.getOrBuild text stamp build).2.1, build () with
    | true, .ok item => builds ++ [(text, stamp, item)]
    | _, _ => builds
  | .get _ _ => builds
  | .clear => []

def step (state : Memo α × List (Text × Stamp × α)) (use : Use ε α) :
    Memo α × List (Text × Stamp × α) :=
  (state.1.use use, state.1.record state.2 use)

/-- A memo that was empty, after these uses, and the builds that have succeeded since it was last
cleared, the earliest first. -/
def run (uses : List (Use ε α)) : Memo α × List (Text × Stamp × α) :=
  uses.foldl step (empty, [])

/-- The latest build of a text. -/
def latest? (builds : List (Text × Stamp × α)) (text : Text) : Option (Stamp × α) :=
  (builds.filter fun build => build.1 = text).getLast?.map Prod.snd

theorem get?_eq_some_iff {memo : Memo α} {text : Text} {stamp : Stamp} {item : α} :
    memo.get? text stamp = some item ↔ memo.last? text = some (stamp, item) := by
  unfold get?
  cases hl : memo.last? text with
  | none => simp
  | some entry =>
    obtain ⟨found, kept⟩ := entry
    by_cases hf : found = stamp <;> simp [hf]

theorem latest?_concat (builds : List (Text × Stamp × α)) (build : Text × Stamp × α)
    (text : Text) : latest? (builds ++ [build]) text =
      if build.1 = text then some build.2 else latest? builds text := by
  rw [latest?, List.filter_append]
  by_cases h : build.1 = text <;> simp [h, latest?]

theorem map_fst_putEntry (text : Text) (stamp : Stamp) (item : α)
    (entries : List (Text × Stamp × α)) :
    (putEntry text stamp item entries).map Prod.fst =
      if (entries.map Prod.fst).any (· == text) then entries.map Prod.fst
      else entries.map Prod.fst ++ [text] := by
  induction entries with
  | nil => rfl
  | cons entry more ih =>
    obtain ⟨other, kept⟩ := entry
    rw [putEntry]
    by_cases h : other = text
    · simp [h]
    · rw [if_neg h, List.map_cons, ih, List.map_cons, List.any_cons, beq_eq_false_iff_ne.2 h,
        Bool.false_or]
      split <;> rfl

/-- The memo remembers the latest build of each text, and nothing else. -/
structure Recalls (memo : Memo α) (builds : List (Text × Stamp × α)) : Prop where
  last? (text : Text) : memo.last? text = latest? builds text
  texts : memo.entries.map Prod.fst = (builds.map Prod.fst).eraseDups

variable {memo : Memo α} {builds : List (Text × Stamp × α)} {text : Text} {stamp : Stamp}
  {build : Unit → Except ε α}

theorem recalls_empty : (empty : Memo α).Recalls [] := ⟨fun _ => rfl, rfl⟩

theorem Recalls.put (h : memo.Recalls builds) (text : Text) (stamp : Stamp) (item : α) :
    (memo.put text stamp item).Recalls (builds ++ [(text, stamp, item)]) where
  last? other := by rw [last?_put, latest?_concat, h.last?]
  texts := by
    have ha : (builds.map Prod.fst).eraseDups.any (· == text) =
        (builds.map Prod.fst).any (· == text) := by
      rw [Bool.eq_iff_iff]
      simp only [List.any_eq_true, List.mem_eraseDups]
    rw [Memo.put, map_fst_putEntry, h.texts, ha, List.map_append, List.map_singleton,
      eraseDups_concat]

theorem getOrBuild_of_get? {item : α} (h : memo.get? text stamp = some item) :
    memo.getOrBuild text stamp build = (memo, false, .ok item) := by
  simp only [getOrBuild, h]

theorem getOrBuild_of_ok {item : α} (h : memo.get? text stamp = none) (hb : build () = .ok item) :
    memo.getOrBuild text stamp build = (memo.put text stamp item, true, .ok item) := by
  simp only [getOrBuild, h, hb]

theorem getOrBuild_of_error {e : ε} (h : memo.get? text stamp = none) (hb : build () = .error e) :
    memo.getOrBuild text stamp build = (memo, true, .error e) := by
  simp only [getOrBuild, h, hb]

/-- What is asked for is remembered, or it is built now and then remembered, or it cannot be built
and all stays as it was. -/
theorem getOrBuild_cases (memo : Memo α) (text : Text) (stamp : Stamp)
    (build : Unit → Except ε α) :
    (∃ item, memo.get? text stamp = some item ∧
      memo.getOrBuild text stamp build = (memo, false, .ok item)) ∨
    (∃ item, memo.get? text stamp = none ∧ build () = .ok item ∧
      memo.getOrBuild text stamp build = (memo.put text stamp item, true, .ok item)) ∨
    ∃ e, memo.get? text stamp = none ∧ build () = .error e ∧
      memo.getOrBuild text stamp build = (memo, true, .error e) := by
  cases hg : memo.get? text stamp with
  | some item => exact .inl ⟨item, rfl, getOrBuild_of_get? hg⟩
  | none =>
    cases hb : build () with
    | ok item => exact .inr (.inl ⟨item, rfl, rfl, getOrBuild_of_ok hg hb⟩)
    | error e => exact .inr (.inr ⟨e, rfl, rfl, getOrBuild_of_error hg hb⟩)

theorem Recalls.use (h : memo.Recalls builds) (use : Use ε α) :
    (memo.use use).Recalls (memo.record builds use) := by
  cases use with
  | getOrBuild text stamp build =>
    rw [Memo.use, record]
    rcases getOrBuild_cases memo text stamp build with
      ⟨item, -, hr⟩ | ⟨item, -, hb, hr⟩ | ⟨e, -, hb, hr⟩
    · rw [hr]
      exact h
    · rw [hr, hb]
      exact h.put text stamp item
    · rw [hr, hb]
      exact h
  | get text stamp => exact h
  | clear => exact recalls_empty

theorem recalls_run (uses : List (Use ε α)) : (run uses).1.Recalls (run uses).2 :=
  List.foldlRecOn (motive := fun state => state.1.Recalls state.2) uses step recalls_empty
    fun _ h use _ => h.use use

theorem Recalls.size_eq (h : memo.Recalls builds) :
    memo.size = (builds.map Prod.fst).eraseDups.length := by
  rw [size, ← h.texts, List.length_map]

theorem Recalls.get?_eq_some_iff (h : memo.Recalls builds) {item : α} :
    memo.get? text stamp = some item ↔ latest? builds text = some (stamp, item) := by
  rw [Memo.get?_eq_some_iff, h.last?]

theorem runs_builder_iff :
    (memo.getOrBuild text stamp build).2.1 = true ↔ memo.get? text stamp = none := by
  rcases getOrBuild_cases memo text stamp build with
    ⟨item, hg, hr⟩ | ⟨item, hg, -, hr⟩ | ⟨e, hg, -, hr⟩
  · rw [hr, hg]
    exact iff_of_false nofun nofun
  · rw [hr]
    exact iff_of_true rfl hg
  · rw [hr]
    exact iff_of_true rfl hg

/-- A use whose builder fails changes nothing, now or later. -/
theorem run_append_of_error {uses : List (Use ε α)} {e : ε}
    (hg : (run uses).1.get? text stamp = none) (hb : build () = .error e)
    (later : List (Use ε α)) :
    run (uses ++ .getOrBuild text stamp build :: later) = run (uses ++ later) := by
  have hs : step (run uses) (.getOrBuild text stamp build) = run uses := by
    rw [step, Memo.use, record, getOrBuild_of_error hg hb, hb]
  rw [run, List.foldl_append, List.foldl_cons]
  change later.foldl step (step (run uses) _) = _
  rw [hs, run, run, List.foldl_append]

/-- Whatever a memo has been used for, it serves the latest successful build of a text since it was
last cleared, if that was made under the stamp asked for. It runs a builder exactly when it has
nothing to serve; one that fails leaves no trace. Its size counts the texts of these builds. -/
theorem serves_latest_run (uses : List (Use ε α)) :
    let memo := (run uses).1
    let builds := (run uses).2
    (∀ text stamp item, memo.get? text stamp = some item ↔
      latest? builds text = some (stamp, item)) ∧
    (∀ text stamp (build : Unit → Except ε α),
      (memo.getOrBuild text stamp build).2.1 = true ↔ memo.get? text stamp = none) ∧
    (∀ text stamp item (build : Unit → Except ε α), memo.get? text stamp = some item →
      (memo.getOrBuild text stamp build).2.2 = .ok item) ∧
    (∀ text stamp (build : Unit → Except ε α), memo.get? text stamp = none →
      (memo.getOrBuild text stamp build).2.2 = build ()) ∧
    (∀ text stamp (build : Unit → Except ε α) e, memo.get? text stamp = none →
      build () = .error e →
        ∀ later, run (uses ++ .getOrBuild text stamp build :: later) = run (uses ++ later)) ∧
    memo.size = (builds.map Prod.fst).eraseDups.length := by
  intro memo builds
  have h : memo.Recalls builds := recalls_run uses
  refine ⟨fun text stamp item => h.get?_eq_some_iff, fun text stamp build => runs_builder_iff,
    ?_, ?_, fun text stamp build e => run_append_of_error, h.size_eq⟩
  · intro text stamp item build hg
    rw [getOrBuild_of_get? hg]
  · intro text stamp build hg
    cases hb : build () with
    | ok item => rw [getOrBuild_of_ok hg hb]
    | error e => rw [getOrBuild_of_error hg hb]

/-- A failed build for a second stamp, and what is still served for the first. -/
example :
    let a := "a".toList
    let uses : List (Use Unit Nat) :=
      [.getOrBuild a ⟨0, 0⟩ fun _ => .ok 1, .getOrBuild a ⟨1, 0⟩ fun _ => .error ()]
    (run uses).1.get? a ⟨0, 0⟩ = some 1 ∧ (run uses).1.get? a ⟨1, 0⟩ = none := by decide

end DocTypes.Memo
