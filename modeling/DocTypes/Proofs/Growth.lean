import DocTypes.Checker
import DocTypes.Proofs.Scope

set_option autoImplicit false

/-!
# What can change at a desk

The catalog only grows, and its revision tells when it has grown. The resolver only changes together
with the epoch. Between two builds a memo can lose entries, but it gains none.
-/

namespace DocTypes

/-- The later catalog holds what the earlier one holds, and nothing else if the revision is still
the same. -/
structure Catalog.Grows (before after : Catalog) : Prop where
  revision : before.revision ≤ after.revision
  eq_of_revision : before.revision = after.revision → before = after

namespace Catalog.Grows

theorem refl (catalog : Catalog) : catalog.Grows catalog := ⟨Nat.le_refl _, fun _ => rfl⟩

theorem trans {a b c : Catalog} (h : a.Grows b) (k : b.Grows c) : a.Grows c := by
  have hr := h.revision
  have kr := k.revision
  refine ⟨by omega, fun he => ?_⟩
  have hb : a = b := h.eq_of_revision (by omega)
  have hc : b = c := k.eq_of_revision (by omega)
  rw [hb, hc]

end Catalog.Grows

namespace Catalog

theorem grows_register (catalog : Catalog) (name : Text) (type : TypeRef) :
    catalog.Grows (catalog.register name type) := by
  rw [register_eq]
  split
  · exact .refl catalog
  · refine ⟨Nat.le_succ _, fun he => ?_⟩
    simp at he

theorem grows_registerClass (catalog : Catalog) (c : Class) :
    catalog.Grows (catalog.registerClass c) := by
  rw [registerClass_eq]
  generalize c.names = names
  induction names generalizing catalog with
  | nil => exact .refl catalog
  | cons name more ih => exact (grows_register catalog name (.ofClass c)).trans (ih _)

end Catalog

/-- A resolver gives a name the same answer at every moment, and so does every resolver that it may
put in its place. -/
inductive Resolver.Steady : Resolver → Prop where
  | mk {answer : Nat → Text → Option TypeRef} {react : Nat → Text → List Reaction}
    (ha : ∀ (m n : Nat) (name : Text), answer m name = answer n name)
    (hr : ∀ (moment : Nat) (name : Text) (resolver : Resolver),
      .install (some resolver) ∈ react moment name → Steady resolver) : Steady (.mk answer react)

def Reaction.Steady : Reaction → Prop
  | .install resolver? => ∀ resolver ∈ resolver?, resolver.Steady
  | _ => True

namespace Resolver

theorem Steady.answer_eq {resolver : Resolver} (h : resolver.Steady) (m n : Nat) (name : Text) :
    resolver.answer m name = resolver.answer n name := by
  cases h with
  | mk ha _ => exact ha m n name

theorem Steady.react {resolver : Resolver} (h : resolver.Steady) (moment : Nat) (name : Text) :
    ∀ reaction ∈ resolver.react moment name, reaction.Steady := by
  cases h with
  | mk _ hr =>
    intro reaction hm
    cases reaction with
    | install resolver? =>
      rintro resolver rfl
      exact hr moment name resolver hm
    | _ => trivial

theorem steady_silent : silent.Steady := .mk (fun _ _ _ => rfl) fun _ _ _ h => by cases h

theorem steady_ofTable (table : List (Text × TypeRef)) (registers withdraws : Bool) :
    (ofTable table registers withdraws).Steady := by
  refine .mk (fun _ _ _ => rfl) fun moment name resolver h => ?_
  rcases List.mem_cons.1 h with h | h
  · cases h
  rcases List.mem_append.1 h with h | h
  · cases withdraws with
    | false => cases h
    | true =>
      cases List.mem_singleton.1 h
      exact steady_silent
  · cases registers with
    | false => cases h
    | true =>
      simp only [if_true, Option.mem_toList, Option.map_eq_some_iff] at h
      obtain ⟨type, -, hr⟩ := h
      cases type <;> cases hr

end Resolver

namespace Desk

def Steady (desk : Desk) : Prop := ∀ resolver ∈ desk.checker.resolver?, resolver.Steady

theorem Steady.scope {desk : Desk} (h : desk.Steady) : desk.scope.Steady := by
  intro answer ha
  obtain ⟨resolver, hr, rfl⟩ := Option.map_eq_some_iff.1 ha
  exact (h resolver hr).answer_eq

/-- As long as neither the revision nor the epoch has changed, the catalog and the resolver are
what they were. -/
structure Later (before after : Desk) : Prop where
  catalog : before.catalog.Grows after.catalog
  epoch : before.checker.epoch ≤ after.checker.epoch
  resolver : before.checker.epoch = after.checker.epoch →
    before.checker.resolver? = after.checker.resolver?

/-- How a desk can change without a build. -/
structure Drifts (before after : Desk) : Prop extends Later before after where
  builds : before.checker.builds = after.checker.builds
  memo : ∀ (text : Text) (entry : Stamp × Compiled), after.checker.memo.last? text = some entry →
    before.checker.memo.last? text = some entry
  steady : before.Steady → after.Steady

variable {a b c : Desk}

theorem Later.refl (desk : Desk) : desk.Later desk := ⟨.refl _, Nat.le_refl _, fun _ => rfl⟩

theorem Later.trans (h : a.Later b) (k : b.Later c) : a.Later c := by
  have he := h.epoch
  have ke := k.epoch
  refine ⟨h.catalog.trans k.catalog, by omega, fun hc => ?_⟩
  rw [h.resolver (by omega), k.resolver (by omega)]

theorem Later.stamp_le (h : a.Later b) :
    a.stamp.revision ≤ b.stamp.revision ∧ a.stamp.epoch ≤ b.stamp.epoch :=
  ⟨h.catalog.revision, h.epoch⟩

theorem Later.eq_of_stamp (h : a.Later b) (hs : a.stamp = b.stamp) :
    a.catalog = b.catalog ∧ a.checker.resolver? = b.checker.resolver? :=
  ⟨h.catalog.eq_of_revision (congrArg Stamp.revision hs), h.resolver (congrArg Stamp.epoch hs)⟩

theorem Later.scope_eq (h : a.Later b) (hs : a.stamp = b.stamp) : a.scope = b.scope := by
  obtain ⟨hc, hr⟩ := h.eq_of_stamp hs
  unfold scope
  rw [hc, hr]

/-- The journal and the moment do not count. -/
theorem drifts_of_eq (hc : a.catalog = b.catalog) (hk : a.checker = b.checker) : a.Drifts b := by
  obtain ⟨catalog, checker, journal, moment⟩ := a
  obtain ⟨other, other', journal', moment'⟩ := b
  obtain rfl : catalog = other := hc
  obtain rfl : checker = other' := hk
  exact ⟨⟨.refl _, Nat.le_refl _, fun _ => rfl⟩, rfl, fun _ _ he => he, fun hs => hs⟩

theorem Drifts.refl (desk : Desk) : desk.Drifts desk := drifts_of_eq rfl rfl

theorem Drifts.trans (h : a.Drifts b) (k : b.Drifts c) : a.Drifts c where
  toLater := h.toLater.trans k.toLater
  builds := h.builds.trans k.builds
  memo text entry he := h.memo text entry (k.memo text entry he)
  steady hs := k.steady (h.steady hs)

theorem drifts_catalog {desk : Desk} {catalog : Catalog} (h : desk.catalog.Grows catalog) :
    desk.Drifts { desk with catalog := catalog } :=
  ⟨⟨h, Nat.le_refl _, fun _ => rfl⟩, rfl, fun _ _ he => he, fun hs => hs⟩

theorem drifts_install (desk : Desk) {resolver? : Option Resolver}
    (h : ∀ resolver ∈ resolver?, resolver.Steady) :
    desk.Drifts { desk with checker := desk.checker.install resolver? } where
  catalog := .refl _
  epoch := Nat.le_succ _
  resolver he := by simp [Checker.install] at he
  builds := rfl
  memo text entry he := by cases he
  steady _ := h

theorem drifts_startRun (desk : Desk) :
    desk.Drifts { desk with checker := desk.checker.startRun } where
  catalog := .refl _
  epoch := Nat.le_refl _
  resolver _ := rfl
  builds := rfl
  memo text entry he := by cases he
  steady hs := hs

theorem drifts_react (desk : Desk) {reaction : Reaction} (h : reaction.Steady) :
    desk.Drifts (desk.react reaction) := by
  cases reaction with
  | note name => exact drifts_of_eq rfl rfl
  | register name type => exact drifts_catalog (Catalog.grows_register ..)
  | registerClass c => exact drifts_catalog (Catalog.grows_registerClass ..)
  | install resolver? => exact desk.drifts_install h

theorem drifts_foldl {α : Type} {step : Desk → α → Desk} {items : List α}
    (h : ∀ item ∈ items, ∀ desk : Desk, desk.Drifts (step desk item)) (desk : Desk) :
    desk.Drifts (items.foldl step desk) := by
  induction items generalizing desk with
  | nil => exact .refl desk
  | cons item more ih =>
    have hi := h item (List.mem_cons_self ..) desk
    have hm := ih (fun other ho => h other (List.mem_cons_of_mem _ ho)) (step desk item)
    exact hi.trans hm

theorem drifts_ask {resolver : Resolver} (h : resolver.Steady) (desk : Desk) (name : Text) :
    desk.Drifts (desk.ask resolver name) := by
  have hd : desk.Drifts { desk with moment := desk.moment + 1 } := drifts_of_eq rfl rfl
  have hr := h.react desk.moment name
  exact hd.trans (drifts_foldl (fun reaction hm later => later.drifts_react (hr reaction hm)) _)

theorem drifts_askAll {resolver? : Option Resolver}
    (h : ∀ resolver ∈ resolver?, resolver.Steady) (desk : Desk) (names : List Text) :
    desk.Drifts (desk.askAll resolver? names) := by
  cases resolver? with
  | none => exact .refl desk
  | some resolver =>
    exact drifts_foldl (fun name _ later => drifts_ask (h resolver rfl) later name) desk

end Desk

end DocTypes
