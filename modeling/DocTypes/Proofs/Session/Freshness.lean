import DocTypes.Proofs.Session.Replies

set_option autoImplicit false

/-!
# Freshness

Every call in a run of a session is answered as if nothing were remembered.
-/

namespace DocTypes

def Action.Steady : Action → Prop
  | .install resolver? => ∀ resolver ∈ resolver?, resolver.Steady
  | _ => True

namespace Desk

variable {desk : Desk}

theorem Sound.follows_afterCalls (h : desk.Sound) (texts : List Text) :
    desk.Follows (desk.afterCalls texts) :=
  afterCalls_of_kept (fun _ text hf => hf.trans (hf.sound.follows_compile text)) h.follows texts

theorem Sound.follows_perform (h : desk.Sound) {action : Action} (ha : action.Steady) :
    desk.Follows (desk.perform action) := by
  cases action with
  | register name type => exact (drifts_catalog (Catalog.grows_register ..)).follows h
  | registerClass c => exact (drifts_catalog (Catalog.grows_registerClass ..)).follows h
  | install resolver? => exact (desk.drifts_install ha).follows h
  | startRun => exact desk.drifts_startRun.follows h
  | _ => exact h.follows_afterCalls _

/-- Every call of a checker is made at a sound desk, and the calls that come after it go on from
the desk it has left behind. -/
theorem Sound.follows_of_mem_calls (h : desk.Sound) (checker : Nat) (texts : List Text) :
    ∀ call ∈ desk.calls checker texts, call.checker = checker ∧ desk.Follows call.desk ∧
      (call.desk.compile call.text).1.Follows (desk.afterCalls texts) := by
  induction texts generalizing desk with
  | nil => exact List.forall_mem_nil _
  | cons text more ih =>
    have hf := h.follows_compile text
    rcases hc : desk.compile text with ⟨after, f | compiled⟩
    · rw [calls_of_error hc, afterCalls_of_error hc]
      refine List.forall_mem_singleton.2 ⟨rfl, h.follows, ?_⟩
      rw [hc] at hf ⊢
      exact hf.sound.follows
    · rw [calls_of_ok hc, afterCalls_of_ok hc]
      refine List.forall_mem_cons.2 ⟨⟨rfl, h.follows, ?_⟩, ?_⟩
      · rw [hc] at hf ⊢
        exact hf.sound.follows_afterCalls more
      · rw [hc] at hf
        intro call hm
        obtain ⟨hi, hd, ha⟩ := ih hf.sound call hm
        exact ⟨hi, hf.trans hd, ha⟩

end Desk

namespace Call

/-- Two calls of one checker are answered with the very same build. -/
def SameBuild (a b : Call) : Prop :=
  a.checker = b.checker ∧ ∃ p q, a.answer = .ok p ∧ b.answer = .ok q ∧ p.build = q.build

/-- A build that serves two calls serves them under one stamp, one catalog and one resolver. -/
def Unchanged (a b : Call) : Prop :=
  a.SameBuild b → a.desk.stamp = b.desk.stamp ∧ a.desk.catalog = b.desk.catalog ∧
    a.desk.checker.resolver? = b.desk.checker.resolver?

/-- What a desk of the same checker knows of a call that is over. -/
structure Before (call : Call) (desk : Desk) : Prop where
  later : call.desk.Later desk
  issued : ∀ compiled, call.answer = .ok compiled → desk.Issued compiled.build call.desk.stamp

variable {a b : Call} {desk after : Desk}

theorem before_compile (h : a.desk.Sound) : a.Before (a.desk.compile a.text).1 :=
  ⟨(h.follows_compile a.text).toLater, fun _ ha => h.issues_compile ha⟩

theorem Before.follows (h : a.Before desk) (k : desk.Follows after) : a.Before after :=
  ⟨h.later.trans k.toLater, fun compiled ha => k.issued (h.issued compiled ha)⟩

theorem Before.unchanged (h : a.Before b.desk) (hs : b.desk.Sound) : a.Unchanged b := by
  rintro ⟨-, p, q, hp, hq, hb⟩
  have hst : a.desk.stamp = b.desk.stamp :=
    (hs.stamp_of_issued (h.issued p hp) hq hb.symm).symm
  exact ⟨hst, h.later.eq_of_stamp hst⟩

theorem pairwise_calls (hs : desk.Sound) (checker : Nat) (texts : List Text) :
    (desk.calls checker texts).Pairwise Unchanged := by
  induction texts generalizing desk with
  | nil => exact .nil
  | cons text more ih =>
    have hb : Before ⟨checker, desk, text⟩ (desk.compile text).1 := before_compile hs
    have hf := hs.follows_compile text
    rcases hc : desk.compile text with ⟨after, f | compiled⟩
    · rw [Desk.calls_of_error hc]
      exact List.pairwise_singleton ..
    · rw [Desk.calls_of_ok hc]
      rw [hc] at hb hf
      refine .cons (fun call hm => ?_) (ih hf.sound)
      have hd := (hf.sound.follows_of_mem_calls checker more call hm).2.1
      exact (hb.follows hd).unchanged hd.sound

end Call

namespace Session

def Sound (session : Session) : Prop :=
  ∀ (index : Nat) (desk : Desk), session.desk? index = some desk → desk.Sound

variable {session : Session} {index : Nat} {desk after : Desk} {action : Action}

/-- All that an action changes for later calls, it changes at the desk it is done at. -/
theorem act_fields (hc : session.catalog = desk.catalog)
    (hk : session.checkers[index]? = some desk.checker) (action : Action) :
    (session.act index desk action).1.catalog = (desk.perform action).catalog ∧
      (session.act index desk action).1.checkers =
        session.checkers.set index (desk.perform action).checker := by
  have hi : session.checkers.set index desk.checker = session.checkers := by
    obtain ⟨hl, he⟩ := List.getElem?_eq_some_iff.1 hk
    rw [← he, List.set_getElem_self]
  cases action with
  | compile text =>
    simp only [act, compile, Desk.perform, Action.texts, Desk.afterCalls_singleton]
    rcases desk.compile text with ⟨after, f | compiled⟩ <;> exact ⟨rfl, rfl⟩
  | check handle declared? value slot entity =>
    simp only [act, Desk.perform, Action.texts, Desk.afterCalls]
    split <;> simp [hc, hi]
  | checkText text value slot entity =>
    simp only [act, Desk.check, Desk.perform, Action.texts, Desk.afterCalls_singleton]
    rcases desk.compile text with ⟨after, f | compiled⟩ <;> exact ⟨rfl, rfl⟩
  | register name type => simp [act, Desk.perform, Catalog.register, hc, hi]
  | registerClass c => simp [act, Desk.perform, Catalog.registerClass, hc, hi]
  | install resolver? => exact ⟨rfl, rfl⟩
  | startRun => exact ⟨rfl, rfl⟩
  | contains name => exact ⟨hc, hi.symm⟩
  | draft signature =>
    have hd := (signature.draft_eq index desk).1
    simp only [act, draft, Desk.perform, Action.texts, ← hd]
    rcases signature.draft desk with ⟨after, notices, f | contract⟩ <;> simp [afterDesk]
  | checkCall contract arguments keywords =>
    simp only [act, Desk.perform, Action.texts, Desk.afterCalls]
    split <;> simp [hc, hi]
  | checkReturn contract value =>
    simp only [act, Desk.perform, Action.texts, Desk.afterCalls]
    split <;> simp [hc, hi]
  | call contract f arguments keywords =>
    simp only [Desk.perform, Action.texts, Desk.afterCalls]
    cases hf : session.contracts[contract]? with
    | some found => simp [act_call hf, hc, hi]
    | none => simp [act, hf, hc, hi]

theorem step_fields (h : session.desk? index = some desk) (action : Action) :
    (session.step index action).1.catalog = (desk.perform action).catalog ∧
      (session.step index action).1.checkers =
        session.checkers.set index (desk.perform action).checker := by
  obtain ⟨checker, hk, rfl⟩ := desk?_eq_some_iff.1 h
  simp only [step, hk]
  exact act_fields rfl hk action

theorem step_of_none (h : session.desk? index = none) (action : Action) :
    (session.step index action).1 = { session with journal := [] } := by
  have hk : session.checkers[index]? = none := Option.map_eq_none_iff.1 h
  simp only [step, hk]

theorem desk?_step_self (h : session.desk? index = some desk)
    (ha : (session.step index action).1.desk? index = some after) :
    after.catalog = (desk.perform action).catalog ∧
      after.checker = (desk.perform action).checker := by
  obtain ⟨hc, hk⟩ := step_fields h action
  obtain ⟨own, ho, -⟩ := desk?_eq_some_iff.1 h
  obtain ⟨checker, hf, rfl⟩ := desk?_eq_some_iff.1 ha
  obtain ⟨hl, -⟩ := List.getElem?_eq_some_iff.1 ho
  rw [hk, List.getElem?_set_self hl] at hf
  exact ⟨hc, (Option.some.inj hf).symm⟩

theorem desk?_step_ne (h : session.desk? index = some desk) {other : Nat} (hn : index ≠ other)
    (ha : (session.step index action).1.desk? other = some after) :
    ∃ before, session.desk? other = some before ∧ after.catalog = (desk.perform action).catalog ∧
      after.checker = before.checker := by
  obtain ⟨hc, hk⟩ := step_fields h action
  obtain ⟨checker, hf, rfl⟩ := desk?_eq_some_iff.1 ha
  rw [hk, List.getElem?_set_ne hn] at hf
  exact ⟨_, desk?_eq_some_iff.2 ⟨checker, hf, rfl⟩, hc, rfl⟩

/-- Whoever acts, each checker finds a desk that follows the one it left. -/
theorem Sound.exists_follows_step (hs : session.Sound) (ha : action.Steady) {other : Nat}
    (h : (session.step index action).1.desk? other = some after) :
    ∃ before, session.desk? other = some before ∧ before.Follows after := by
  cases hi : session.desk? index with
  | none =>
    rw [step_of_none hi] at h
    exact ⟨after, h, (hs other after h).follows⟩
  | some desk =>
    have hw := (hs index desk hi).follows_perform ha
    by_cases he : index = other
    · subst he
      obtain ⟨hc, hk⟩ := desk?_step_self hi h
      exact ⟨desk, hi, hw.of_eq hc.symm hk.symm⟩
    · obtain ⟨before, hb, hc, hk⟩ := desk?_step_ne hi he h
      have hd : desk.catalog = before.catalog := by
        obtain ⟨_, -, rfl⟩ := desk?_eq_some_iff.1 hi
        obtain ⟨_, -, rfl⟩ := desk?_eq_some_iff.1 hb
        rfl
      have hg := hw.catalog
      rw [hd] at hg
      have hf := (Desk.drifts_catalog hg).follows (hs other before hb)
      exact ⟨before, hb, hf.of_eq hc.symm hk.symm⟩

theorem Sound.step (hs : session.Sound) (index : Nat) (ha : action.Steady) :
    (session.step index action).1.Sound := by
  intro other after h
  obtain ⟨before, -, hf⟩ := hs.exists_follows_step ha h
  exact hf.sound

theorem sound_start (catalog : Catalog) (policies : List Policy) (collects : Bool) :
    (start catalog policies collects).Sound := by
  intro index desk h
  obtain ⟨checker, hk, rfl⟩ := desk?_eq_some_iff.1 h
  rw [start, List.getElem?_map] at hk
  obtain ⟨policy, -, rfl⟩ := Option.map_eq_some_iff.1 hk
  constructor
  · intro resolver hr
    cases hr
  · intro text entry he
    cases he
  · intro text entry he
    cases he
  · intro text entry he
    cases he

theorem mem_calls_cons {more : List (Nat × Action)} {call : Call} :
    call ∈ session.calls ((index, action) :: more) ↔
      (∃ desk, session.desk? index = some desk ∧ call ∈ desk.calls index action.texts) ∨
        call ∈ (session.step index action).1.calls more := by
  rw [calls, List.mem_append]
  cases session.desk? index <;> simp

theorem Sound.follows_of_mem_calls (hs : session.Sound) {run : List (Nat × Action)}
    (hr : ∀ entry ∈ run, entry.2.Steady) : ∀ call ∈ session.calls run,
      ∃ desk, session.desk? call.checker = some desk ∧ desk.Follows call.desk := by
  induction run generalizing session with
  | nil => exact List.forall_mem_nil _
  | cons entry more ih =>
    obtain ⟨index, action⟩ := entry
    obtain ⟨ha, hm⟩ := List.forall_mem_cons.1 hr
    intro call hc
    rcases mem_calls_cons.1 hc with ⟨desk, hd, hc⟩ | hc
    · obtain ⟨rfl, hf, -⟩ := (hs index desk hd).follows_of_mem_calls index action.texts call hc
      exact ⟨desk, hd, hf⟩
    · obtain ⟨after, hd, hf⟩ := ih (hs.step index ha) hm call hc
      obtain ⟨before, hb, hk⟩ := hs.exists_follows_step ha hd
      exact ⟨before, hb, hk.trans hf⟩

theorem perform_of_mem_calls {call : Call} (h : call ∈ desk.calls index action.texts) :
    desk.perform action = desk.afterCalls action.texts := by
  cases action with
  | register | registerClass | install | startRun => cases h
  | _ => rfl

theorem Sound.pairwise_calls (hs : session.Sound) {run : List (Nat × Action)}
    (hr : ∀ entry ∈ run, entry.2.Steady) : (session.calls run).Pairwise Call.Unchanged := by
  induction run generalizing session with
  | nil => exact .nil
  | cons entry more ih =>
    obtain ⟨index, action⟩ := entry
    obtain ⟨ha, hm⟩ := List.forall_mem_cons.1 hr
    have hl := ih (hs.step index ha) hm
    rw [calls]
    cases hi : session.desk? index with
    | none => exact hl
    | some desk =>
      have hd := hs index desk hi
      refine List.pairwise_append.2 ⟨Call.pairwise_calls hd index action.texts, hl, ?_⟩
      intro a hma b hmb hb
      obtain ⟨rfl, hf, hk⟩ := hd.follows_of_mem_calls index action.texts a hma
      obtain ⟨after, hn, hg⟩ := (hs.step _ ha).follows_of_mem_calls hm b hmb
      rw [← hb.1] at hn
      obtain ⟨hc, hq⟩ := desk?_step_self hi hn
      rw [perform_of_mem_calls hma] at hc hq
      have hba := (Call.before_compile hf.sound).follows (hk.of_eq hc.symm hq.symm)
      exact (hba.follows hg).unchanged hg.sound hb

/-- In every run in which a resolver's answer depends on the name alone, each call is answered with
what its text compiles to at its start, in the catalog and with the resolver of that moment, and the
replies tell these answers. No build is served again once the catalog or the resolver has
changed. -/
theorem calls_fresh (catalog : Catalog) (policies : List Policy) (collects : Bool)
    {run : List (Nat × Action)} (hr : ∀ entry ∈ run, entry.2.Steady) :
    (∀ call ∈ (start catalog policies collects).calls run, ∀ moment : Nat,
      call.answer.map Compiled.pattern = call.desk.scope.patternAt? moment call.text) ∧
    (start catalog policies collects).Told run ((start catalog policies collects).run run).2 ∧
    ((start catalog policies collects).calls run).Pairwise Call.Unchanged := by
  have hs := sound_start catalog policies collects
  refine ⟨fun call hc moment => ?_, told_run _ run, hs.pairwise_calls hr⟩
  obtain ⟨desk, -, hf⟩ := hs.follows_of_mem_calls hr call hc
  exact hf.sound.result_compile call.text moment

/-- The resolver of the first checker registers what it is asked for, and withdraws meanwhile. -/
theorem calls_fresh_of_withdrawal :
    let table := [("Foo".toList, TypeRef.kind .int)]
    let run := [(0, Action.install (some (.ofTable table true true))),
      (0, .compile "Foo".toList), (1, .compile "Foo".toList), (0, .compile "Foo".toList)]
    let session := start .withBuiltins [{}, {}] true
    (∀ entry ∈ run, entry.2.Steady) ∧
      (∀ call ∈ session.calls run, ∀ moment : Nat,
        call.answer.map Compiled.pattern = call.desk.scope.patternAt? moment call.text) ∧
      session.Told run (session.run run).2 ∧ (session.calls run).Pairwise Call.Unchanged := by
  intro table run session
  have hr : ∀ entry ∈ run, entry.2.Steady := by
    refine List.forall_mem_cons.2 ⟨?_, by simp [Action.Steady]⟩
    rintro resolver ⟨⟩
    exact Resolver.steady_ofTable table true true
  exact ⟨hr, calls_fresh .withBuiltins [{}, {}] true hr⟩

end Session

end DocTypes
