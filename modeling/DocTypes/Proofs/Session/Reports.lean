import DocTypes.Proofs.Outline.Findings
import DocTypes.Proofs.Session.Freshness
import DocTypes.Proofs.Text.Order

set_option autoImplicit false

/-!
# What is reported

In its present run a checker has reported the names that the patterns it answered with leave
unbound, and no others. A pattern that is served again reports nothing. It need not: whatever is
remembered, even what no stamp will ever ask for again, has been reported in the present run. None
of this depends on what resolvers answer or do.
-/

namespace DocTypes

/-- The pattern that a call is answered with, unless it meets a fault. -/
def Call.pattern? (call : Call) : Option Pattern := call.answer.toOption.map Compiled.pattern

theorem Call.mem_filterMap_pattern? {calls : List Call} {p : Pattern} :
    p ∈ calls.filterMap Call.pattern? ↔
      ∃ call ∈ calls, ∃ compiled, call.answer = .ok compiled ∧ compiled.pattern = p := by
  rw [List.mem_filterMap]
  refine exists_congr fun call => and_congr_right fun _ => ?_
  cases h : call.answer with
  | error f => simp [Call.pattern?, h, Except.toOption]
  | ok compiled => simp [Call.pattern?, h, Except.toOption]

namespace Checker

/-- A checker that has answered with these patterns since its run began. -/
structure Reports (checker : Checker) (patterns : List Pattern) : Prop where
  nodup : checker.reported.Nodup
  mem_iff : ∀ name, name ∈ checker.reported ↔ ∃ p ∈ patterns, name ∈ p.unresolvedNames
  remembered : ∀ (text : Text) (entry : Stamp × Compiled),
    checker.memo.last? text = some entry →
      ∀ name ∈ entry.2.pattern.unresolvedNames, name ∈ checker.reported

/-- What becomes of a checker while its resolver reacts: it reports nothing and remembers nothing
new. -/
structure Fades (before after : Checker) : Prop where
  reported : after.reported = before.reported
  memo : ∀ (text : Text) (entry : Stamp × Compiled), after.memo.last? text = some entry →
    before.memo.last? text = some entry

theorem Fades.refl (checker : Checker) : checker.Fades checker := ⟨rfl, fun _ _ h => h⟩

theorem Fades.trans {a b c : Checker} (h : a.Fades b) (k : b.Fades c) : a.Fades c :=
  ⟨k.reported.trans h.reported, fun text entry he => h.memo text entry (k.memo text entry he)⟩

theorem fades_install (checker : Checker) (resolver? : Option Resolver) :
    checker.Fades (checker.install resolver?) := ⟨rfl, fun _ _ h => by cases h⟩

variable {checker after : Checker} {patterns : List Pattern}

theorem reports_of_empty (policy : Policy) : ({ policy := policy } : Checker).Reports [] where
  nodup := .nil
  mem_iff name := by simp
  remembered _ _ he := by cases he

theorem reports_startRun (checker : Checker) : checker.startRun.Reports [] where
  nodup := .nil
  mem_iff name := by simp [startRun]
  remembered _ _ he := by cases he

theorem Reports.fade (h : checker.Reports patterns) (hf : checker.Fades after) :
    after.Reports patterns where
  nodup := by
    rw [hf.reported]
    exact h.nodup
  mem_iff := by
    rw [hf.reported]
    exact h.mem_iff
  remembered text entry he := by
    rw [hf.reported]
    exact h.remembered text entry (hf.memo text entry he)

/-- A pattern whose names are reported may be answered with again. -/
theorem Reports.again (h : checker.Reports patterns) {p : Pattern}
    (hp : ∀ name ∈ p.unresolvedNames, name ∈ checker.reported) :
    checker.Reports (patterns ++ [p]) where
  nodup := h.nodup
  mem_iff name := by
    simp only [List.mem_append, List.mem_singleton, or_and_right, exists_or, exists_eq_left,
      ← h.mem_iff]
    exact (or_iff_left_of_imp (hp name)).symm
  remembered := h.remembered

theorem Reports.keep (h : checker.Reports patterns) (text : Text) (stamp : Stamp) (p : Pattern) :
    (checker.keep text stamp p p.unresolvedNames).Reports (patterns ++ [p]) where
  nodup := nodup_addNames h.nodup
  mem_iff name := by
    simp only [Checker.keep, mem_addNames, h.mem_iff, List.mem_append, List.mem_singleton,
      or_and_right, exists_or, exists_eq_left]
  remembered other entry he name hn := by
    simp only [Checker.keep, mem_addNames, Memo.last?_put] at he ⊢
    split at he
    · cases he
      exact .inr hn
    · exact .inl (h.remembered other entry he name hn)

end Checker

namespace Desk

open Checker

theorem fades_react (desk : Desk) (reaction : Reaction) :
    desk.checker.Fades (desk.react reaction).checker := by
  cases reaction with
  | install resolver? => exact desk.checker.fades_install resolver?
  | _ => exact .refl _

theorem fades_foldl {α : Type} {step : Desk → α → Desk}
    (h : ∀ (desk : Desk) (item : α), desk.checker.Fades (step desk item).checker) (desk : Desk)
    (items : List α) : desk.checker.Fades (items.foldl step desk).checker := by
  induction items generalizing desk with
  | nil => exact .refl _
  | cons item more ih => exact (h desk item).trans (ih _)

theorem fades_askAll (resolver? : Option Resolver) (desk : Desk) (names : List Text) :
    desk.checker.Fades (desk.askAll resolver? names).checker := by
  cases resolver? with
  | none => exact .refl _
  | some resolver =>
    refine fades_foldl (fun later name => ?_) desk names
    exact fades_foldl fades_react { later with moment := later.moment + 1 } _

variable {desk : Desk} {patterns : List Pattern}

/-- A call reports what its pattern leaves unbound, and nothing if it meets a fault. -/
theorem reports_compile (h : desk.checker.Reports patterns) (index : Nat) (text : Text) :
    (desk.compile text).1.checker.Reports
      (patterns ++ (Call.pattern? ⟨index, desk, text⟩).toList) := by
  cases hg : desk.checker.memo.get? text desk.stamp with
  | some compiled =>
    have hl := Memo.get?_eq_some_iff.1 hg
    simp only [Call.pattern?, Call.answer, compile, deliver, hg]
    exact h.again (h.remembered text _ hl)
  | none =>
    have hf := h.fade
      (fades_askAll desk.checker.resolver? desk (desk.scope.compileAt desk.moment text).asked)
    cases hr : (desk.scope.compileAt desk.moment text).result with
    | error f =>
      simp only [Call.pattern?, Call.answer, compile, deliver, hg, hr]
      change Reports _ (patterns ++ [])
      rwa [List.append_nil]
    | ok p =>
      have hu := desk.scope.unresolved_compileAt hr
      simp only [Call.pattern?, Call.answer, compile, deliver, hg, hr, hu]
      exact hf.keep text desk.stamp p

theorem reports_afterCalls (h : desk.checker.Reports patterns) (index : Nat) (texts : List Text) :
    (desk.afterCalls texts).checker.Reports
      (patterns ++ (desk.calls index texts).filterMap Call.pattern?) := by
  induction texts generalizing desk patterns with
  | nil => rwa [calls, List.filterMap_nil, List.append_nil]
  | cons text more ih =>
    have hr := reports_compile h index text
    have hs (later : List Call) : (⟨index, desk, text⟩ :: later).filterMap Call.pattern? =
        (Call.pattern? ⟨index, desk, text⟩).toList ++ later.filterMap Call.pattern? := by
      rw [List.filterMap_cons]
      cases Call.pattern? ⟨index, desk, text⟩ <;> rfl
    rcases hc : desk.compile text with ⟨after, f | compiled⟩
    · rw [hc] at hr
      rw [calls_of_error hc, afterCalls_of_error hc, hs, List.filterMap_nil, List.append_nil]
      exact hr
    · rw [hc] at hr
      rw [calls_of_ok hc, afterCalls_of_ok hc, hs, ← List.append_assoc]
      exact ih hr

end Desk

namespace Session

/-- The calls that a checker has made in its present run after an action, if `made` are those that
it had made before. -/
def callsAfter (session : Session) (index : Nat) (made : List Call) (actor : Nat)
    (action : Action) : List Call :=
  if actor = index then
    match action with
    | .startRun => []
    | _ => made ++ (session.desk? index).elim [] (·.calls index action.texts)
  else made

/-- The calls that a checker has made when all actions are done, without those before its present
run. -/
def presentCalls (session : Session) (index : Nat) (made : List Call) :
    List (Nat × Action) → List Call
  | [] => made
  | (actor, action) :: more =>
    (session.step actor action).1.presentCalls index (session.callsAfter index made actor action)
      more

/-- The checker of that index, if there is one, has made these calls in its present run. -/
def Reports (session : Session) (index : Nat) (made : List Call) : Prop :=
  match session.checkers[index]? with
  | some checker => checker.Reports (made.filterMap Call.pattern?)
  | none => made = []

variable {session : Session} {index : Nat} {made : List Call}

theorem reports_perform {desk : Desk} (h : desk.checker.Reports (made.filterMap Call.pattern?))
    (index : Nat) (action : Action) :
    (desk.perform action).checker.Reports
      ((match action with
        | .startRun => []
        | _ => made ++ desk.calls index action.texts).filterMap Call.pattern?) := by
  have hn {after : Checker} (ha : after.Reports (made.filterMap Call.pattern?)) :
      after.Reports ((made ++ []).filterMap Call.pattern?) := by
    rwa [List.append_nil]
  cases action with
  | startRun => exact desk.checker.reports_startRun
  | install resolver? => exact hn (h.fade (desk.checker.fades_install resolver?))
  | register name type => exact hn h
  | registerClass c => exact hn h
  | _ =>
    rw [List.filterMap_append]
    exact Desk.reports_afterCalls h index _

theorem callsAfter_of_ne {actor : Nat} (h : actor ≠ index) (action : Action) :
    session.callsAfter index made actor action = made := if_neg h

theorem Reports.step (h : session.Reports index made) (actor : Nat) (action : Action) :
    (session.step actor action).1.Reports index (session.callsAfter index made actor action) := by
  cases hi : session.desk? actor with
  | none =>
    rw [step_of_none hi]
    by_cases he : actor = index
    · -- There is no such checker, so that no call is made and none was.
      subst he
      have hk : session.checkers[actor]? = none := Option.map_eq_none_iff.1 hi
      simp only [Reports, hk] at h ⊢
      subst h
      simp only [callsAfter, if_true, hi, Option.elim_none, List.append_nil]
      split <;> rfl
    · rwa [callsAfter_of_ne he]
  | some desk =>
    have hf := (step_fields hi action).2
    obtain ⟨checker, hk, rfl⟩ := desk?_eq_some_iff.1 hi
    by_cases he : actor = index
    · subst he
      obtain ⟨hl, -⟩ := List.getElem?_eq_some_iff.1 hk
      simp only [Reports, hk] at h
      simp only [Reports, hf, List.getElem?_set_self hl, callsAfter, if_true, hi,
        Option.elim_some]
      exact reports_perform h actor action
    · rw [callsAfter_of_ne he]
      simp only [Reports, hf, List.getElem?_set_ne he]
      exact h

theorem Reports.run (h : session.Reports index made) (run : List (Nat × Action)) :
    (session.run run).1.Reports index (session.presentCalls index made run) := by
  induction run generalizing session made with
  | nil => exact h
  | cons entry more ih => exact ih (h.step entry.1 entry.2)

theorem reports_start (catalog : Catalog) (policies : List Policy) (collects : Bool) (index : Nat) :
    (start catalog policies collects).Reports index [] := by
  unfold Reports
  rw [start, List.getElem?_map]
  cases policies[index]? with
  | none => rfl
  | some policy => exact Checker.reports_of_empty policy

theorem callsAfter_sublist {past : List Call} (h : made.Sublist past) (actor : Nat)
    (action : Action) : (session.callsAfter index made actor action).Sublist
      (past ++ (session.desk? actor).elim [] (·.calls actor action.texts)) := by
  unfold callsAfter
  split
  case isTrue he =>
    subst he
    split
    · exact List.nil_sublist _
    · exact h.append (List.Sublist.refl _)
  case isFalse => exact h.trans (List.sublist_append_left ..)

/-- The calls of a present run are among all calls, in the same order. -/
theorem presentCalls_sublist {past : List Call} (h : made.Sublist past)
    (run : List (Nat × Action)) :
    (session.presentCalls index made run).Sublist (past ++ session.calls run) := by
  induction run generalizing session made past with
  | nil => rwa [calls, List.append_nil]
  | cons entry more ih =>
    obtain ⟨actor, action⟩ := entry
    have ha : (session.callsAfter index made actor action).Sublist
        (past ++ (session.desk? actor).elim [] (·.calls actor action.texts)) :=
      callsAfter_sublist h actor action
    have hs : ((session.step actor action).1.presentCalls index
        (session.callsAfter index made actor action) more).Sublist _ := ih ha
    rw [List.append_assoc] at hs
    rw [presentCalls, calls]
    cases hd : session.desk? actor <;> rwa [hd] at hs

/-- Whatever resolvers do, the reported names of a checker are in strictly ascending order, and they
are the names that some answer of its present run leaves unbound. The calls of the present run are
among those of the whole run, whose answers the replies tell. -/
theorem reportedNames_run (catalog : Catalog) (policies : List Policy) (collects : Bool)
    (run : List (Nat × Action)) (index : Nat) :
    let session := start catalog policies collects
    let names := (session.run run).1.reportedNames index
    names.Pairwise (· < ·) ∧
    (∀ name, name ∈ names ↔ ∃ call ∈ session.presentCalls index [] run, ∃ compiled,
      call.answer = .ok compiled ∧ name ∈ compiled.pattern.unresolvedNames) ∧
    (session.presentCalls index [] run).Sublist (session.calls run) ∧
    session.Told run (session.run run).2 := by
  intro session names
  have hs : (session.presentCalls index [] run).Sublist ([] ++ session.calls run) :=
    presentCalls_sublist (List.Sublist.refl []) run
  have ht := session.told_run run
  have h := (reports_start catalog policies collects index).run run
  simp only [Reports] at h
  simp only [names, reportedNames]
  cases hk : (session.run run).1.checkers[index]? with
  | none =>
    rw [hk] at h
    exact ⟨.nil, fun name => by simp [session, h], hs, ht⟩
  | some checker =>
    rw [hk] at h
    refine ⟨Text.pairwise_lt_sorted h.nodup, fun name => ?_, hs, ht⟩
    change name ∈ Text.sorted checker.reported ↔ _
    rw [Text.mem_sorted, h.mem_iff]
    constructor
    · rintro ⟨p, hp, hn⟩
      obtain ⟨call, hc, compiled, ha, rfl⟩ := Call.mem_filterMap_pattern?.1 hp
      exact ⟨call, hc, compiled, ha, hn⟩
    · rintro ⟨call, hc, compiled, ha, hn⟩
      exact ⟨_, Call.mem_filterMap_pattern?.2 ⟨call, hc, compiled, ha, rfl⟩, hn⟩

end Session

end DocTypes
