import DocTypes.Proofs.Memory

set_option autoImplicit false

/-!
# What reactions can do

Whatever resolvers answer and however they react, the catalog only grows, and a checker whose
resolver is not replaced stays as it is. A checker whose resolver is replaced forgets its patterns
but not how many it has built. Policies stay.
-/

namespace DocTypes

/-- Stamps only go up, so that one between two equal stamps is the same as both. -/
theorem Stamp.eq_of_between {a b c : Stamp} (hab : a.revision ≤ b.revision ∧ a.epoch ≤ b.epoch)
    (hbc : b.revision ≤ c.revision ∧ b.epoch ≤ c.epoch) (h : a = c) : b = c := by
  subst h
  cases a
  cases b
  simp only at hab hbc
  rw [Stamp.mk.injEq]
  omega

namespace Desk

/-- What reactions can make of a desk. -/
structure Reacts (before after : Desk) : Prop where
  catalog : before.catalog.Grows after.catalog
  epoch : before.checker.epoch ≤ after.checker.epoch
  checker : before.checker.epoch = after.checker.epoch → before.checker = after.checker
  policy : before.checker.policy = after.checker.policy
  builds : before.checker.builds = after.checker.builds
  memo : ∀ (text : Text) (entry : Stamp × Compiled), after.checker.memo.last? text = some entry →
    before.checker.memo.last? text = some entry

variable {a b c : Desk}

theorem Reacts.trans (h : a.Reacts b) (k : b.Reacts c) : a.Reacts c where
  catalog := h.catalog.trans k.catalog
  epoch := Nat.le_trans h.epoch k.epoch
  checker he := by
    have hl := h.epoch
    have kl := k.epoch
    have hb : a.checker = b.checker := h.checker (by omega)
    have hc : b.checker = c.checker := k.checker (by omega)
    rw [hb, hc]
  policy := h.policy.trans k.policy
  builds := h.builds.trans k.builds
  memo text entry he := h.memo text entry (k.memo text entry he)

theorem reacts_of_checker_eq (hc : a.catalog.Grows b.catalog) (hk : a.checker = b.checker) :
    a.Reacts b where
  catalog := hc
  epoch := Nat.le_of_eq (congrArg Checker.epoch hk)
  checker _ := hk
  policy := congrArg Checker.policy hk
  builds := congrArg Checker.builds hk
  memo text entry he := by rwa [hk]

theorem Reacts.refl (desk : Desk) : desk.Reacts desk := reacts_of_checker_eq (.refl _) rfl

theorem reacts_install (desk : Desk) (resolver? : Option Resolver) :
    desk.Reacts { desk with checker := desk.checker.install resolver? } where
  catalog := .refl _
  epoch := Nat.le_succ _
  checker he := by simp [Checker.install] at he
  policy := rfl
  builds := rfl
  memo text entry he := by cases he

theorem Reacts.stamp_le (h : a.Reacts b) :
    a.stamp.revision ≤ b.stamp.revision ∧ a.stamp.epoch ≤ b.stamp.epoch :=
  ⟨h.catalog.revision, h.epoch⟩

theorem Reacts.checker_of_stamp (h : a.Reacts b) (hs : a.stamp = b.stamp) :
    a.checker = b.checker :=
  h.checker (congrArg Stamp.epoch hs)

theorem reacts_react (desk : Desk) (reaction : Reaction) : desk.Reacts (desk.react reaction) := by
  cases reaction with
  | note name => exact reacts_of_checker_eq (.refl _) rfl
  | register name type => exact reacts_of_checker_eq (Catalog.grows_register ..) rfl
  | registerClass c => exact reacts_of_checker_eq (Catalog.grows_registerClass ..) rfl
  | install resolver? => exact desk.reacts_install resolver?

theorem reacts_foldl {α : Type} {step : Desk → α → Desk}
    (h : ∀ (desk : Desk) (item : α), desk.Reacts (step desk item)) (desk : Desk)
    (items : List α) : desk.Reacts (items.foldl step desk) := by
  apply List.foldlRecOn items step (Reacts.refl desk)
  intro later hl item hm
  exact hl.trans (h later item)

theorem reacts_askAll (resolver? : Option Resolver) (desk : Desk) (names : List Text) :
    desk.Reacts (desk.askAll resolver? names) := by
  cases resolver? with
  | none => exact .refl desk
  | some resolver =>
    refine reacts_foldl (fun later name => ?_) desk names
    have hm : later.Reacts { later with moment := later.moment + 1 } :=
      reacts_of_checker_eq (.refl _) rfl
    exact hm.trans (reacts_foldl reacts_react _ _)

variable {desk : Desk} {text : Text}

/-- A call is served from memory and does nothing, or it lets the resolver react and then meets a
fault or remembers a new build under the stamp of its start. -/
theorem deliver_cases (desk : Desk) (text : Text) :
    (∃ compiled, desk.checker.memo.last? text = some (desk.stamp, compiled) ∧
      desk.deliver text = ⟨desk, [], .ok compiled⟩) ∨
    ∃ after asked, desk.Reacts after ∧
      ((∃ f, desk.deliver text = ⟨after, asked, .error f⟩) ∨
        ∃ pattern unresolved, desk.deliver text =
          ⟨after.keep text desk.stamp pattern unresolved, asked,
            .ok ⟨after.checker.builds, pattern⟩⟩) := by
  cases hg : desk.checker.memo.get? text desk.stamp with
  | some compiled =>
    left
    refine ⟨compiled, Memo.get?_eq_some_iff.1 hg, ?_⟩
    simp only [deliver, hg]
  | none =>
    right
    let compilation := desk.scope.compileAt desk.moment text
    refine ⟨_, compilation.asked, desk.reacts_askAll desk.checker.resolver? compilation.asked, ?_⟩
    cases hr : compilation.result with
    | error f =>
      left
      refine ⟨f, ?_⟩
      simp only [deliver, hg, hr, compilation]
    | ok pattern =>
      right
      refine ⟨pattern, compilation.unresolved, ?_⟩
      simp only [deliver, hg, hr, compilation]
      rfl

theorem deliver_of_last? {compiled : Compiled}
    (h : desk.checker.memo.last? text = some (desk.stamp, compiled)) :
    desk.deliver text = ⟨desk, [], .ok compiled⟩ := by
  have hg := Memo.get?_eq_some_iff.2 h
  simp only [deliver, hg]

theorem compile_of_deliver {delivery : Delivery} (h : desk.deliver text = delivery) :
    desk.compile text = (delivery.desk, delivery.result) := by
  rw [compile, h]

/-- What a call changes besides what the checker remembers is changed by reactions. -/
theorem exists_reacts_compile (desk : Desk) (text : Text) :
    ∃ after, desk.Reacts after ∧ (desk.compile text).1.catalog = after.catalog ∧
      (desk.compile text).1.checker.policy = after.checker.policy := by
  rcases desk.deliver_cases text with
    ⟨compiled, -, hd⟩ | ⟨after, asked, hr, ⟨f, hd⟩ | ⟨pattern, unresolved, hd⟩⟩
  · rw [compile_of_deliver hd]
    exact ⟨desk, .refl desk, rfl, rfl⟩
  · rw [compile_of_deliver hd]
    exact ⟨after, hr, rfl, rfl⟩
  · rw [compile_of_deliver hd]
    exact ⟨after, hr, rfl, rfl⟩

theorem grows_compile (desk : Desk) (text : Text) :
    desk.catalog.Grows (desk.compile text).1.catalog := by
  obtain ⟨after, hr, hc, -⟩ := desk.exists_reacts_compile text
  rw [hc]
  exact hr.catalog

theorem policy_compile (desk : Desk) (text : Text) :
    (desk.compile text).1.checker.policy = desk.checker.policy := by
  obtain ⟨after, hr, -, hp⟩ := desk.exists_reacts_compile text
  rw [hp, hr.policy]

end Desk

end DocTypes
