import DocTypes.Proofs.Outline.Form
import DocTypes.Proofs.Reactions
import DocTypes.Proofs.Session.Freshness

set_option autoImplicit false

/-!
# Recall

A call is served from memory exactly when its checker has had the same text compiled under the same
stamp before, in its present run. Nothing is assumed of what resolvers answer or of how they react:
a reaction that changes the catalog or the resolver changes the stamp as well, and no stamp ever
comes back.
-/

namespace DocTypes

/-- What checkers do in turn: one of them is called, or one of them starts a run. -/
inductive Event where
  | call (call : Call)
  | startRun (checker : Nat)

namespace Event

def checker : Event → Nat
  | call c => c.checker
  | startRun index => index

def call? : Event → Option Call
  | call c => some c
  | startRun _ => none

/-- Each call among the events has the property, given the events before it. -/
def Throughout (P : List Event → Call → Prop) (past : List Event) : List Event → Prop
  | [] => True
  | event :: more =>
    (∀ c, event = call c → P past c) ∧ Throughout P (past ++ [event]) more

variable {P : List Event → Call → Prop} {past events more : List Event}

theorem throughout_append (h : Throughout P past events)
    (k : Throughout P (past ++ events) more) : Throughout P past (events ++ more) := by
  induction events generalizing past with
  | nil => rwa [List.append_nil] at k
  | cons event rest ih =>
    refine ⟨h.1, ih h.2 ?_⟩
    rwa [List.append_assoc, List.singleton_append]

theorem Throughout.of_append {earlier later : List Event} {c : Call}
    (h : Throughout P past (earlier ++ call c :: later)) : P (past ++ earlier) c := by
  induction earlier generalizing past with
  | nil =>
    rw [List.append_nil]
    exact h.1 c rfl
  | cons event rest ih =>
    have hr := ih h.2
    rwa [List.append_assoc, List.singleton_append] at hr

end Event

namespace Call

/-- The call is one of the events, and its checker has started no run after it. -/
def Recent (call : Call) (past : List Event) : Prop :=
  ∃ earlier between, past = earlier ++ .call call :: between ∧ .startRun call.checker ∉ between

/-- Two calls of one checker for one text under one stamp. -/
def SameRequest (a b : Call) : Prop :=
  a.checker = b.checker ∧ a.text = b.text ∧ a.desk.stamp = b.desk.stamp

/-- The call finds nothing to serve and makes a build. -/
def Builds (call : Call) : Prop :=
  call.desk.checker.memo.get? call.text call.desk.stamp = none ∧
    ∃ compiled, call.answer = .ok compiled

/-- The call is answered with the very build of a call before it, without a question to the
resolver, and what is reported stays as it was. -/
def Recalled (call : Call) (past : List Event) : Prop :=
  (∃ first, .call first ∈ past ∧ first.SameBuild call) ∧
    (call.desk.deliver call.text).asked = [] ∧
    (call.desk.deliver call.text).desk.checker.reportedNames = call.desk.checker.reportedNames

variable {call : Call} {past : List Event}

theorem Recent.mem (h : call.Recent past) : .call call ∈ past := by
  obtain ⟨earlier, between, rfl, -⟩ := h
  exact List.mem_append_right _ (List.mem_cons_self ..)

theorem mem_concat {event : Event} :
    .call call ∈ past ++ [event] ↔ .call call ∈ past ∨ event = .call call := by
  rw [List.mem_append, List.mem_singleton]
  exact or_congr_right eq_comm

theorem recent_concat {event : Event} :
    call.Recent (past ++ [event]) ↔
      event = .call call ∨ call.Recent past ∧ event ≠ .startRun call.checker := by
  constructor
  · rintro ⟨earlier, between, he, hn⟩
    rcases List.eq_nil_or_concat between with rfl | ⟨firsts, last, rfl⟩
    · left
      exact List.singleton_inj.1 (List.append_inj' he rfl).2
    · right
      rw [List.concat_eq_append, ← List.cons_append, ← List.append_assoc] at he
      obtain ⟨hp, hl⟩ := List.append_inj' he rfl
      obtain rfl := List.singleton_inj.1 hl
      rw [List.concat_eq_append, List.mem_append, List.mem_singleton, not_or] at hn
      exact ⟨⟨earlier, firsts, hp, hn.1⟩, Ne.symm hn.2⟩
  · rintro (rfl | ⟨⟨earlier, between, rfl, hn⟩, he⟩)
    · exact ⟨past, [], rfl, List.not_mem_nil⟩
    · refine ⟨earlier, between ++ [event], by simp, fun hm => ?_⟩
      rcases List.mem_append.1 hm with hm | hm
      · exact hn hm
      · exact he (List.mem_singleton.1 hm).symm

theorem Recent.concat (h : call.Recent past) (next : Call) : call.Recent (past ++ [.call next]) :=
  recent_concat.2 (.inr ⟨h, fun he => by cases he⟩)

end Call

namespace Desk

open DocTypes.Event

/-- What a checker knows, at this desk, of the past of its session. -/
structure Remembers (desk : Desk) (index : Nat) (past : List Event) : Prop where
  stamp_le : ∀ call : Call, .call call ∈ past → call.checker = index →
    call.desk.stamp.revision ≤ desk.stamp.revision ∧ call.desk.stamp.epoch ≤ desk.stamp.epoch
  build_lt : ∀ call : Call, .call call ∈ past → call.checker = index →
    ∀ compiled, call.answer = .ok compiled → compiled.build < desk.checker.builds
  made : ∀ (text : Text) (entry : Stamp × Compiled),
    desk.checker.memo.last? text = some entry → ∃ call : Call, call.Recent past ∧
      call.checker = index ∧ call.text = text ∧ call.desk.stamp = entry.1 ∧
      call.answer = .ok entry.2
  kept : ∀ call : Call, call.Recent past → call.checker = index → call.desk.stamp = desk.stamp →
    ∀ compiled, call.answer = .ok compiled →
      ∃ served, desk.checker.memo.last? call.text = some (desk.stamp, served)

variable {desk after : Desk} {index : Nat} {past : List Event} {text : Text}

theorem remembers_nil (hm : desk.checker.memo = .empty) : desk.Remembers index [] where
  stamp_le call hc := by cases hc
  build_lt call hc := by cases hc
  made text entry he := by
    rw [hm] at he
    cases he
  kept call hr := by
    have hc := hr.mem
    cases hc

/-- A reaction that changes what a checker remembers gives it a stamp that no call has had. -/
theorem Remembers.reacts (h : desk.Remembers index past) (hr : desk.Reacts after) :
    after.Remembers index past where
  stamp_le call hc hi := by
    have hp := h.stamp_le call hc hi
    have hl := hr.stamp_le
    omega
  build_lt call hc hi compiled ha := by
    have hb := h.build_lt call hc hi compiled ha
    have he := hr.builds
    omega
  made text entry he := h.made text entry (hr.memo text entry he)
  kept call hc hi hs compiled ha := by
    have hst := Stamp.eq_of_between (h.stamp_le call hc.mem hi) hr.stamp_le hs
    rw [← hr.checker_of_stamp hst, ← hst]
    exact h.kept call hc hi (hs.trans hst.symm) compiled ha

/-- What other checkers do is not a checker's own past. -/
theorem Remembers.others (h : desk.Remembers index past) {events : List Event}
    (hn : ∀ event ∈ events, event.checker ≠ index) : desk.Remembers index (past ++ events) := by
  induction events generalizing past with
  | nil => rwa [List.append_nil]
  | cons event more ih =>
    obtain ⟨he, hm⟩ := List.forall_mem_cons.1 hn
    have hp : desk.Remembers index (past ++ [event]) := by
      have hc {call : Call} (hi : call.checker = index) : event ≠ .call call := by
        rintro rfl
        exact he hi
      have hb {call : Call} (hm : .call call ∈ past ++ [event]) (hi : call.checker = index) :
          .call call ∈ past := (Call.mem_concat.1 hm).resolve_right (hc hi)
      constructor
      · exact fun call hm hi => h.stamp_le call (hb hm hi) hi
      · exact fun call hm hi => h.build_lt call (hb hm hi) hi
      · intro text entry hl
        obtain ⟨call, hr, hi, hrest⟩ := h.made text entry hl
        refine ⟨call, Call.recent_concat.2 (.inr ⟨hr, ?_⟩), hi, hrest⟩
        rintro rfl
        exact he hi
      · intro call hr hi
        rcases Call.recent_concat.1 hr with hr | ⟨hr, -⟩
        · exact absurd hr (hc hi)
        · exact h.kept call hr hi
    rw [← List.singleton_append, ← List.append_assoc]
    exact ih hp hm

theorem Remembers.startRun (h : desk.Remembers index past) :
    Remembers { desk with checker := desk.checker.startRun } index
      (past ++ [.startRun index]) := by
  have hb {call : Call} (hm : .call call ∈ past ++ [Event.startRun index]) :
      .call call ∈ past := by
    rcases Call.mem_concat.1 hm with hm | he
    · exact hm
    · cases he
  constructor
  · exact fun call hm hi => h.stamp_le call (hb hm) hi
  · exact fun call hm hi => h.build_lt call (hb hm) hi
  · intro text entry he
    cases he
  · intro call hr hi
    rcases Call.recent_concat.1 hr with hr | ⟨-, hn⟩
    · cases hr
    · exact absurd (congrArg Event.startRun hi.symm) hn

variable {call : Call}

/-- A call that puts nothing into memory. -/
theorem Remembers.served (h : desk.Remembers call.checker past)
    (hs : call.desk.stamp.revision ≤ desk.stamp.revision ∧
      call.desk.stamp.epoch ≤ desk.stamp.epoch)
    (ha : ∀ compiled, call.answer = .ok compiled → compiled.build < desk.checker.builds ∧
      ∃ served, desk.checker.memo.last? call.text = some (desk.stamp, served)) :
    desk.Remembers call.checker (past ++ [.call call]) where
  stamp_le other hm hi := by
    rcases Call.mem_concat.1 hm with hm | he
    · exact h.stamp_le other hm hi
    · cases he
      exact hs
  build_lt other hm hi compiled hc := by
    rcases Call.mem_concat.1 hm with hm | he
    · exact h.build_lt other hm hi compiled hc
    · cases he
      exact (ha compiled hc).1
  made text entry he := by
    obtain ⟨other, hr, hrest⟩ := h.made text entry he
    exact ⟨other, hr.concat call, hrest⟩
  kept other hr hi hst compiled hc := by
    rcases Call.recent_concat.1 hr with he | ⟨hr, -⟩
    · cases he
      exact (ha compiled hc).2
    · exact h.kept other hr hi hst compiled hc

/-- A call that puts a build into memory, after the reactions to its questions. -/
theorem Remembers.built (h : call.desk.Remembers call.checker past)
    (hr : call.desk.Reacts after) {pattern : Pattern} (unresolved : List Text)
    (ha : call.answer = .ok ⟨after.checker.builds, pattern⟩) :
    (after.keep call.text call.desk.stamp pattern unresolved).Remembers call.checker
      (past ++ [.call call]) where
  stamp_le other hm hi := by
    rcases Call.mem_concat.1 hm with hm | he
    · exact (h.reacts hr).stamp_le other hm hi
    · cases he
      exact hr.stamp_le
  build_lt other hm hi compiled hc := by
    rcases Call.mem_concat.1 hm with hm | he
    · exact Nat.lt_succ_of_lt ((h.reacts hr).build_lt other hm hi compiled hc)
    · cases he
      rw [ha] at hc
      cases hc
      exact Nat.lt_succ_self _
  made text entry he := by
    rw [last?_keep] at he
    split at he
    case isTrue ht =>
      cases he
      exact ⟨call, Call.recent_concat.2 (.inl rfl), rfl, ht, rfl, ha⟩
    case isFalse =>
      obtain ⟨other, ho, hrest⟩ := (h.reacts hr).made text entry he
      exact ⟨other, ho.concat call, hrest⟩
  kept other ho hi hst compiled hc := by
    rw [last?_keep]
    rcases Call.recent_concat.1 ho with he | ⟨ho, -⟩
    · cases he
      rw [if_pos rfl, hst]
      exact ⟨_, rfl⟩
    · split
      case isTrue ht =>
        -- Between the other call and now, this call began under the same stamp.
        rw [Stamp.eq_of_between (h.stamp_le other ho.mem hi) hr.stamp_le hst]
        exact ⟨_, rfl⟩
      case isFalse => exact (h.reacts hr).kept other ho hi hst compiled hc

theorem Remembers.compile (h : call.desk.Remembers call.checker past) :
    (call.desk.compile call.text).1.Remembers call.checker (past ++ [.call call]) := by
  rcases call.desk.deliver_cases call.text with
    ⟨compiled, hm, hd⟩ | ⟨after, asked, hr, ⟨f, hd⟩ | ⟨pattern, unresolved, hd⟩⟩
  · have ha : call.answer = .ok compiled := congrArg Prod.snd (compile_of_deliver hd)
    rw [compile_of_deliver hd]
    refine h.served ⟨Nat.le_refl _, Nat.le_refl _⟩ fun other ho => ?_
    rw [ha] at ho
    cases ho
    obtain ⟨first, hf, hi, -, -, hc⟩ := h.made call.text _ hm
    exact ⟨h.build_lt first hf.mem hi _ hc, _, hm⟩
  · have ha : call.answer = .error f := congrArg Prod.snd (compile_of_deliver hd)
    rw [compile_of_deliver hd]
    refine (h.reacts hr).served hr.stamp_le fun other ho => ?_
    rw [ha] at ho
    cases ho
  · rw [compile_of_deliver hd]
    exact h.built hr unresolved (congrArg Prod.snd (compile_of_deliver hd))

/-- The events of an action that is done at a desk. -/
def events (checker : Nat) (desk : Desk) : Action → List Event
  | .startRun => [.startRun checker]
  | action => (desk.calls checker action.texts).map .call

/-- At its desk, the checker of a call knows the past. -/
def Informed (past : List Event) (call : Call) : Prop := call.desk.Remembers call.checker past

theorem Remembers.afterCalls (h : desk.Remembers index past) (texts : List Text) :
    Throughout Informed past ((desk.calls index texts).map .call) ∧
      (desk.afterCalls texts).Remembers index (past ++ (desk.calls index texts).map .call) := by
  induction texts generalizing desk past with
  | nil =>
    rw [calls, List.map_nil, List.append_nil]
    exact ⟨trivial, h⟩
  | cons text more ih =>
    let call : Call := ⟨index, desk, text⟩
    have hk : call.desk.Remembers call.checker past := h
    have hc : (desk.compile text).1.Remembers index (past ++ [.call call]) := hk.compile
    have hn (c : Call) (he : Event.call call = .call c) : Informed past c := by
      cases he
      exact h
    rcases hd : desk.compile text with ⟨after, f | compiled⟩
    · rw [calls_of_error hd, afterCalls_of_error hd]
      rw [hd] at hc
      exact ⟨⟨hn, trivial⟩, hc⟩
    · rw [calls_of_ok hd, afterCalls_of_ok hd]
      rw [hd] at hc
      obtain ⟨ht, hr⟩ := ih hc
      rw [List.append_assoc] at hr
      exact ⟨⟨hn, ht⟩, hr⟩

theorem Remembers.perform (h : desk.Remembers index past) (action : Action) :
    Throughout Informed past (desk.events index action) ∧
      (desk.perform action).Remembers index (past ++ desk.events index action) := by
  have hn {later : Desk} (hr : desk.Reacts later) : Throughout Informed past [] ∧
      later.Remembers index (past ++ []) := by
    rw [List.append_nil]
    exact ⟨trivial, h.reacts hr⟩
  cases action with
  | startRun => exact ⟨⟨fun call he => (by cases he), trivial⟩, h.startRun⟩
  | install resolver? => exact hn (desk.reacts_install resolver?)
  | register name type => exact hn (reacts_of_checker_eq (Catalog.grows_register ..) rfl)
  | registerClass c => exact hn (reacts_of_checker_eq (Catalog.grows_registerClass ..) rfl)
  | _ => exact h.afterCalls _

theorem checker_of_mem_calls (texts : List Text) :
    ∀ call ∈ desk.calls index texts, call.checker = index := by
  induction texts generalizing desk with
  | nil => exact List.forall_mem_nil _
  | cons text more ih =>
    rcases hd : desk.compile text with ⟨after, f | compiled⟩
    · rw [calls_of_error hd]
      exact List.forall_mem_singleton.2 rfl
    · rw [calls_of_ok hd]
      exact List.forall_mem_cons.2 ⟨rfl, ih⟩

theorem checker_of_mem_events (action : Action) :
    ∀ event ∈ desk.events index action, event.checker = index := by
  cases action with
  | startRun => exact List.forall_mem_singleton.2 rfl
  | _ => exact List.forall_mem_map.2 (checker_of_mem_calls _)

theorem grows_afterCalls (desk : Desk) (texts : List Text) :
    desk.catalog.Grows (desk.afterCalls texts).catalog :=
  afterCalls_of_kept (motive := fun later => desk.catalog.Grows later.catalog)
    (fun later text hg => hg.trans (later.grows_compile text)) (.refl _) texts

theorem grows_perform (desk : Desk) (action : Action) :
    desk.catalog.Grows (desk.perform action).catalog := by
  cases action with
  | register name type => exact Catalog.grows_register ..
  | registerClass c => exact Catalog.grows_registerClass ..
  | install resolver? => exact .refl _
  | startRun => exact .refl _
  | _ => exact desk.grows_afterCalls _

end Desk

namespace Session

open DocTypes.Event

/-- The events of the next action. -/
def eventsOf (session : Session) (index : Nat) (action : Action) : List Event :=
  match session.desk? index with
  | some desk => desk.events index action
  | none => []

/-- All events of a run, in order. -/
def events (session : Session) : List (Nat × Action) → List Event
  | [] => []
  | (index, action) :: more =>
    session.eventsOf index action ++ (session.step index action).1.events more

/-- The events tell all calls. -/
theorem filterMap_events (session : Session) (run : List (Nat × Action)) :
    (session.events run).filterMap Event.call? = session.calls run := by
  induction run generalizing session with
  | nil => rfl
  | cons entry more ih =>
    obtain ⟨index, action⟩ := entry
    have hm (calls : List Call) : (calls.map Event.call).filterMap Event.call? = calls := by
      rw [List.filterMap_map]
      exact List.filterMap_some
    rw [events, calls, List.filterMap_append, ih, eventsOf]
    congr 1
    cases session.desk? index with
    | none => rfl
    | some desk => cases action <;> first | rfl | exact hm _

def Remembers (session : Session) (past : List Event) : Prop :=
  ∀ (index : Nat) (desk : Desk), session.desk? index = some desk → desk.Remembers index past

variable {session : Session} {past : List Event}

theorem events_compile {desk after : Desk} {compiled : Compiled} {index : Nat} {text : Text}
    (hd : session.desk? index = some desk) (hc : desk.compile text = (after, .ok compiled)) :
    session.eventsOf index (.compile text) = [.call ⟨index, desk, text⟩] ∧
      (session.step index (.compile text)).1 =
        { session.afterDesk index after with
          handles := session.handles ++ [⟨index, compiled⟩] } := by
  constructor
  · simp only [eventsOf, hd, Desk.events, Action.texts, Desk.calls_of_ok hc]
    rfl
  · obtain ⟨checker, hk, rfl⟩ := desk?_eq_some_iff.1 hd
    simp only [step, hk, act, compile, hc]
    rfl

theorem Remembers.step (h : session.Remembers past) (index : Nat) (action : Action) :
    Throughout Desk.Informed past (session.eventsOf index action) ∧
      (session.step index action).1.Remembers (past ++ session.eventsOf index action) := by
  rw [eventsOf]
  cases hi : session.desk? index with
  | none =>
    rw [List.append_nil, step_of_none hi]
    exact ⟨trivial, h⟩
  | some desk =>
    obtain ⟨ht, hp⟩ := (h index desk hi).perform action
    refine ⟨ht, fun other after ha => ?_⟩
    by_cases he : index = other
    · subst he
      obtain ⟨hc, hk⟩ := desk?_step_self hi ha
      refine hp.reacts (Desk.reacts_of_checker_eq ?_ hk.symm)
      rw [hc]
      exact .refl _
    · obtain ⟨before, hb, hc, hk⟩ := desk?_step_ne hi he ha
      have ho : before.Remembers other (past ++ desk.events index action) := by
        refine (h other before hb).others fun event hm => ?_
        rw [Desk.checker_of_mem_events action event hm]
        exact he
      refine ho.reacts (Desk.reacts_of_checker_eq ?_ hk.symm)
      have hd : before.catalog = desk.catalog := by
        obtain ⟨_, -, rfl⟩ := desk?_eq_some_iff.1 hi
        obtain ⟨_, -, rfl⟩ := desk?_eq_some_iff.1 hb
        rfl
      rw [hc, hd]
      exact desk.grows_perform action

/-- Throughout a run, every checker that is called knows the past. -/
theorem Remembers.run (h : session.Remembers past) (run : List (Nat × Action)) :
    Throughout Desk.Informed past (session.events run) := by
  induction run generalizing session past with
  | nil => exact trivial
  | cons entry more ih =>
    obtain ⟨ht, hs⟩ := h.step entry.1 entry.2
    exact throughout_append ht (ih hs)

theorem remembers_start (catalog : Catalog) (policies : List Policy) (collects : Bool) :
    (start catalog policies collects).Remembers [] := by
  intro index desk h
  obtain ⟨checker, hk, rfl⟩ := desk?_eq_some_iff.1 h
  rw [start, List.getElem?_map] at hk
  obtain ⟨policy, -, rfl⟩ := Option.map_eq_some_iff.1 hk
  exact Desk.remembers_nil rfl

end Session

namespace Call

variable {call first : Call} {past : List Event}

theorem Recent.last?_of_sameRequest (h : call.desk.Remembers call.checker past)
    (hr : first.Recent past) (hs : first.SameRequest call) {compiled : Compiled}
    (ha : first.answer = .ok compiled) :
    ∃ served, call.desk.checker.memo.last? call.text = some (call.desk.stamp, served) := by
  obtain ⟨hi, ht, hst⟩ := hs
  rw [← ht]
  exact h.kept first hr hi hst compiled ha

theorem recalled_iff (h : call.desk.Remembers call.checker past) :
    call.Recalled past ↔ ∃ first : Call, first.Recent past ∧ first.SameRequest call ∧
      ∃ compiled, first.answer = .ok compiled := by
  constructor
  · rintro ⟨⟨first, hm, hi, p, q, hp, hq, hb⟩, -, -⟩
    rcases call.desk.deliver_cases call.text with
      ⟨compiled, hl, hd⟩ | ⟨after, asked, hr, ⟨f, hd⟩ | ⟨pattern, unresolved, hd⟩⟩
    · obtain ⟨made, hr, hc, ht, hs, ha⟩ := h.made call.text _ hl
      exact ⟨made, hr, ⟨hc, ht, hs⟩, compiled, ha⟩
    · have ha : call.answer = .error f := congrArg Prod.snd (Desk.compile_of_deliver hd)
      rw [ha] at hq
      cases hq
    · -- What is built anew has a number that no earlier answer has.
      have ha : call.answer = .ok ⟨after.checker.builds, pattern⟩ :=
        congrArg Prod.snd (Desk.compile_of_deliver hd)
      rw [ha] at hq
      cases hq
      have hl := h.build_lt first hm hi p hp
      have hn := hr.builds
      simp only at hb
      omega
  · rintro ⟨first, hr, hs, compiled, ha⟩
    obtain ⟨served, hl⟩ := hr.last?_of_sameRequest h hs ha
    have hd := Desk.deliver_of_last? hl
    obtain ⟨made, hm, hc, -, -, hp⟩ := h.made call.text _ hl
    refine ⟨⟨made, hm.mem, hc, served, served, hp, ?_, rfl⟩, ?_, ?_⟩
    · exact congrArg Prod.snd (Desk.compile_of_deliver hd)
    · rw [hd]
    · rw [hd]

end Call

namespace Session

/-- In every run, a call is served with the build of an earlier one, asking and reporting nothing,
exactly when its checker has answered a call for the same text under the same stamp since it last
started a run. So a text is built at most once under one stamp between two such starts. The events
hold all calls of the run, and its replies tell what they are answered with. -/
theorem recalled_iff_answered (catalog : Catalog) (policies : List Policy) (collects : Bool)
    {run : List (Nat × Action)} {earlier later : List Event} {call : Call}
    (h : (start catalog policies collects).events run = earlier ++ .call call :: later) :
    (call.Recalled earlier ↔ ∃ first : Call, first.Recent earlier ∧ first.SameRequest call ∧
      ∃ compiled, first.answer = .ok compiled) ∧
    (∀ first : Call, first.Recent earlier → first.SameRequest call → first.Builds →
      ¬ call.Builds) ∧
    (earlier ++ .call call :: later).filterMap Event.call? =
      (start catalog policies collects).calls run ∧
    (start catalog policies collects).Told run ((start catalog policies collects).run run).2 := by
  have he := filterMap_events (start catalog policies collects) run
  rw [h] at he
  have ht := (remembers_start catalog policies collects).run run
  rw [h] at ht
  have hr : call.desk.Remembers call.checker ([] ++ earlier) := ht.of_append
  rw [List.nil_append] at hr
  refine ⟨Call.recalled_iff hr, fun first hf hs hb hc => ?_, he, told_run _ run⟩
  obtain ⟨compiled, ha⟩ := hb.2
  obtain ⟨served, hl⟩ := hf.last?_of_sameRequest hr hs ha
  have hg := Memo.get?_eq_some_iff.2 hl
  rw [hc.1] at hg
  cases hg

/-- The resolver registers what it is asked for, and withdraws meanwhile: the first build is not
served again, and the second one is. -/
theorem recalled_iff_answered_of_withdrawal :
    let foo := "Foo".toList
    let resolver := Resolver.ofTable [(foo, TypeRef.kind .int)] true true
    let run := [(0, Action.install (some resolver)), (0, .compile foo), (0, .compile foo),
      (0, .compile foo)]
    let catalog := Catalog.withBuiltins.register foo (.kind .int)
    let pattern := Pattern.named foo (.single (.kind .int))
    let asking : Checker := { policy := {}, resolver? := some resolver, epoch := 1 }
    let asked : Checker :=
      { policy := {}, resolver? := some .silent, epoch := 2, builds := 1,
        memo := ⟨[(foo, ⟨Catalog.withBuiltins.revision, 1⟩, ⟨0, pattern⟩)]⟩ }
    let settled : Checker :=
      { policy := {}, resolver? := some .silent, epoch := 2, builds := 2,
        memo := ⟨[(foo, ⟨catalog.revision, 2⟩, ⟨1, pattern⟩)]⟩ }
    let a : Call := ⟨0, ⟨.withBuiltins, asking, [], 0⟩, foo⟩
    let b : Call := ⟨0, ⟨catalog, asked, [], 1⟩, foo⟩
    let c : Call := ⟨0, ⟨catalog, settled, [], 1⟩, foo⟩
    (start .withBuiltins [{}] true).events run = [.call a, .call b] ++ .call c :: [] ∧
      (c.Recalled [.call a, .call b] ↔
        ∃ first : Call, first.Recent [.call a, .call b] ∧ first.SameRequest c ∧
          ∃ compiled, first.answer = .ok compiled) ∧
      (∀ first : Call, first.Recent [.call a, .call b] → first.SameRequest c → first.Builds →
        ¬ c.Builds) ∧
      (start .withBuiltins [{}] true).calls run = [a, b, c] ∧
      (start .withBuiltins [{}] true).Told run ((start .withBuiltins [{}] true).run run).2 := by
  intro foo resolver run catalog pattern asking asked settled a b c
  have hf : Outline.read foo = .name foo := Outline.read_of_form (.name _) rfl
  have ha : a.desk.compile foo = ({ b.desk with journal := [foo] }, .ok ⟨0, pattern⟩) := by
    rw [Desk.compile, Desk.deliver]
    unfold Scope.compileAt
    rw [hf]
    rfl
  have hb : b.desk.compile foo = (c.desk, .ok ⟨1, pattern⟩) := by
    rw [Desk.compile, Desk.deliver]
    unfold Scope.compileAt
    rw [hf]
    rfl
  have hc : c.desk.compile foo = (c.desk, .ok ⟨1, pattern⟩) := by
    rw [Desk.compile, Desk.deliver]
    rfl
  let first := ((start .withBuiltins [{}] true).step 0 (.install (some resolver))).1
  let second := (first.step 0 (.compile foo)).1
  let third := (second.step 0 (.compile foo)).1
  have da : first.desk? 0 = some a.desk := rfl
  obtain ⟨ea, sa⟩ := events_compile da ha
  have db : second.desk? 0 = some b.desk := by
    rw [show second = _ from sa]
    rfl
  obtain ⟨eb, sb⟩ := events_compile db hb
  have dc : third.desk? 0 = some c.desk := by
    rw [show third = _ from sb, show second = _ from sa]
    rfl
  obtain ⟨ec, -⟩ := events_compile dc hc
  have he : (start .withBuiltins [{}] true).events run = [.call a, .call b] ++ .call c :: [] := by
    change [] ++ (first.eventsOf 0 (.compile foo) ++ (second.eventsOf 0 (.compile foo) ++
      (third.eventsOf 0 (.compile foo) ++ []))) = _
    rw [ea, eb, ec]
    rfl
  obtain ⟨hi, ho, hl, ht⟩ := recalled_iff_answered .withBuiltins [{}] true he
  exact ⟨he, hi, ho, hl.symm, ht⟩

end Session

end DocTypes
