import DocTypes.Proofs.Growth
import DocTypes.Proofs.Memo

set_option autoImplicit false

/-!
# What a checker remembers

A pattern that is remembered under the present stamp is what its text compiles to at present. This
holds because an entry keeps the stamp of the moment at which its building began: once the catalog
or the resolver has changed the stamp is a past one, even for an entry that is stored after the
change.
-/

namespace DocTypes

namespace Desk

/-- The desk has made this build, and remembers it under no other stamp. -/
structure Issued (desk : Desk) (build : Nat) (stamp : Stamp) : Prop where
  lt : build < desk.checker.builds
  stamp_eq : ∀ (text : Text) (entry : Stamp × Compiled),
    desk.checker.memo.last? text = some entry → entry.2.build = build → entry.1 = stamp

structure Sound (desk : Desk) : Prop where
  steady : desk.Steady
  stamp_le : ∀ (text : Text) (entry : Stamp × Compiled),
    desk.checker.memo.last? text = some entry →
      entry.1.revision ≤ desk.stamp.revision ∧ entry.1.epoch ≤ desk.stamp.epoch
  pattern : ∀ (text : Text) (entry : Stamp × Compiled),
    desk.checker.memo.last? text = some entry → entry.1 = desk.stamp →
      ∀ moment : Nat, desk.scope.patternAt? moment text = .ok entry.2.pattern
  issued : ∀ (text : Text) (entry : Stamp × Compiled),
    desk.checker.memo.last? text = some entry → desk.Issued entry.2.build entry.1

def keep (desk : Desk) (text : Text) (stamp : Stamp) (pattern : Pattern)
    (unresolved : List Text) : Desk :=
  { desk with checker := desk.checker.keep text stamp pattern unresolved }

variable {desk after : Desk} {text : Text} {stamp : Stamp} {build : Nat}

theorem Drifts.issued (h : desk.Drifts after) (hi : desk.Issued build stamp) :
    after.Issued build stamp := by
  refine ⟨?_, fun text entry he => hi.stamp_eq text entry (h.memo text entry he)⟩
  have hb := h.builds
  have hl := hi.lt
  omega

theorem Drifts.sound (h : desk.Drifts after) (hs : desk.Sound) : after.Sound where
  steady := h.steady hs.steady
  stamp_le text entry he := by
    have hd := hs.stamp_le text entry (h.memo text entry he)
    have hl := h.toLater.stamp_le
    omega
  pattern text entry he hp moment := by
    have hb := h.memo text entry he
    have hd := hs.stamp_le text entry hb
    have hl := h.toLater.stamp_le
    -- The entry cannot be newer than the earlier desk, so that the two stamps are the same.
    have hst : desk.stamp = after.stamp := by
      rw [hp] at hd
      rw [Stamp.mk.injEq]
      omega
    rw [← h.toLater.scope_eq hst]
    exact hs.pattern text entry hb (hp.trans hst.symm) moment
  issued text entry he := h.issued (hs.issued text entry (h.memo text entry he))

theorem last?_keep (desk : Desk) (text other : Text) (stamp : Stamp) (pattern : Pattern)
    (unresolved : List Text) :
    (desk.keep text stamp pattern unresolved).checker.memo.last? other =
      if text = other then some (stamp, ⟨desk.checker.builds, pattern⟩)
      else desk.checker.memo.last? other :=
  Memo.last?_put ..

variable {pattern : Pattern} {unresolved : List Text}

theorem Issued.keep (h : desk.Issued build stamp) (present : Stamp) :
    (desk.keep text present pattern unresolved).Issued build stamp := by
  refine ⟨Nat.lt_succ_of_lt h.lt, fun other entry he hb => ?_⟩
  rw [last?_keep] at he
  split at he
  · cases he
    have hl := h.lt
    simp only at hb
    omega
  · exact h.stamp_eq other entry he hb

theorem Sound.issued_keep (h : desk.Sound) :
    (desk.keep text stamp pattern unresolved).Issued desk.checker.builds stamp := by
  refine ⟨Nat.lt_succ_self _, fun other entry he hb => ?_⟩
  rw [last?_keep] at he
  split at he
  · cases he
    rfl
  · have hl := (h.issued other entry he).lt
    omega

theorem Sound.keep (h : desk.Sound)
    (hl : stamp.revision ≤ desk.stamp.revision ∧ stamp.epoch ≤ desk.stamp.epoch)
    (hp : stamp = desk.stamp → ∀ moment : Nat, desk.scope.patternAt? moment text = .ok pattern) :
    (desk.keep text stamp pattern unresolved).Sound where
  steady := h.steady
  stamp_le other entry he := by
    rw [last?_keep] at he
    split at he
    · cases he
      exact hl
    · exact h.stamp_le other entry he
  pattern other entry he hst := by
    rw [last?_keep] at he
    split at he
    case isTrue ht =>
      cases he
      subst ht
      exact hp hst
    case isFalse => exact h.pattern other entry he hst
  issued other entry he := by
    rw [last?_keep] at he
    split at he
    · cases he
      exact h.issued_keep
    · exact (h.issued other entry he).keep stamp

/-- A call answers from memory, or it meets a fault and remembers nothing, or it remembers what it
has built under the stamp of its start. -/
theorem compile_cases (hs : desk.Steady) (text : Text) :
    (∃ compiled, desk.checker.memo.last? text = some (desk.stamp, compiled) ∧
      desk.compile text = (desk, .ok compiled)) ∨
    (∃ after f, desk.Drifts after ∧ desk.scope.patternAt? desk.moment text = .error f ∧
      desk.compile text = (after, .error f)) ∨
    ∃ after pattern unresolved, desk.Drifts after ∧
      desk.scope.patternAt? desk.moment text = .ok pattern ∧
      desk.compile text = (after.keep text desk.stamp pattern unresolved,
        .ok ⟨after.checker.builds, pattern⟩) := by
  cases hg : desk.checker.memo.get? text desk.stamp with
  | some compiled =>
    left
    refine ⟨compiled, Memo.get?_eq_some_iff.1 hg, ?_⟩
    simp only [compile, deliver, hg]
  | none =>
    right
    have hd := drifts_askAll hs desk (desk.scope.compileAt desk.moment text).asked
    cases hr : (desk.scope.compileAt desk.moment text).result with
    | error f =>
      left
      refine ⟨_, f, hd, hr, ?_⟩
      simp only [compile, deliver, hg, hr]
    | ok pattern =>
      right
      refine ⟨_, pattern, (desk.scope.compileAt desk.moment text).unresolved, hd, hr, ?_⟩
      simp only [compile, deliver, hg, hr]
      rfl

/-- What holds of a desk after all that can be done at a sound one. -/
structure Follows (before after : Desk) : Prop extends Later before after where
  sound : after.Sound
  issued : ∀ {build : Nat} {stamp : Stamp}, before.Issued build stamp → after.Issued build stamp

theorem Sound.follows (h : desk.Sound) : desk.Follows desk := ⟨.refl desk, h, fun hi => hi⟩

theorem Follows.trans {a b c : Desk} (h : a.Follows b) (k : b.Follows c) : a.Follows c :=
  ⟨h.toLater.trans k.toLater, k.sound, fun hi => k.issued (h.issued hi)⟩

theorem Follows.of_eq {a b c : Desk} (h : a.Follows b) (hc : b.catalog = c.catalog)
    (hk : b.checker = c.checker) : a.Follows c :=
  have hd := drifts_of_eq hc hk
  ⟨h.toLater.trans hd.toLater, hd.sound h.sound, fun hi => hd.issued (h.issued hi)⟩

theorem Drifts.follows (h : desk.Drifts after) (hs : desk.Sound) : desk.Follows after :=
  ⟨h.toLater, h.sound hs, h.issued⟩

theorem Sound.follows_compile (h : desk.Sound) (text : Text) :
    desk.Follows (desk.compile text).1 := by
  rcases compile_cases h.steady text with
    ⟨compiled, -, hc⟩ | ⟨after, f, hd, -, hc⟩ | ⟨after, pattern, unresolved, hd, hp, hc⟩
  · rw [hc]
    exact h.follows
  · rw [hc]
    exact hd.follows h
  · rw [hc]
    refine ⟨⟨hd.catalog, hd.epoch, hd.resolver⟩, ?_, fun hi => (hd.issued hi).keep desk.stamp⟩
    refine (hd.sound h).keep hd.toLater.stamp_le fun hst moment => ?_
    rw [← hd.toLater.scope_eq hst, h.steady.scope.patternAt?_eq moment desk.moment]
    exact hp

/-- Memory makes no difference to the answer. -/
theorem Sound.result_compile (h : desk.Sound) (text : Text) (moment : Nat) :
    (desk.compile text).2.map Compiled.pattern = desk.scope.patternAt? moment text := by
  rcases compile_cases h.steady text with
    ⟨compiled, hl, hc⟩ | ⟨after, f, -, hp, hc⟩ | ⟨after, pattern, unresolved, -, hp, hc⟩
  · rw [hc, h.pattern text _ hl rfl]
    rfl
  · rw [hc, h.steady.scope.patternAt?_eq moment desk.moment, hp]
    rfl
  · rw [hc, h.steady.scope.patternAt?_eq moment desk.moment, hp]
    rfl

theorem Sound.issues_compile (h : desk.Sound) {compiled : Compiled}
    (ha : (desk.compile text).2 = .ok compiled) :
    (desk.compile text).1.Issued compiled.build desk.stamp := by
  rcases compile_cases h.steady text with
    ⟨found, hl, hc⟩ | ⟨after, f, -, -, hc⟩ | ⟨after, pattern, unresolved, hd, -, hc⟩
  · rw [hc] at ha ⊢
    cases ha
    exact h.issued text _ hl
  · rw [hc] at ha
    cases ha
  · rw [hc] at ha ⊢
    cases ha
    exact (hd.sound h).issued_keep

/-- A build is served again only under the stamp it was made under. -/
theorem Sound.stamp_of_issued (h : desk.Sound) (hi : desk.Issued build stamp)
    {compiled : Compiled} (ha : (desk.compile text).2 = .ok compiled)
    (hb : compiled.build = build) : desk.stamp = stamp := by
  rcases compile_cases h.steady text with
    ⟨found, hl, hc⟩ | ⟨after, f, -, -, hc⟩ | ⟨after, pattern, unresolved, hd, -, hc⟩
  · rw [hc] at ha
    cases ha
    exact hi.stamp_eq text _ hl hb
  · rw [hc] at ha
    cases ha
  · rw [hc] at ha
    cases ha
    -- What is built anew has a number that was never issued.
    have hl := hi.lt
    have hn := hd.builds
    simp only at hb
    omega

end Desk

end DocTypes
