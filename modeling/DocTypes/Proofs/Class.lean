import DocTypes.Class

set_option autoImplicit false

/-!
# Classes that agree

Classes are equal when they have one path, even if their bases differ. Where the bases of equal
classes are equal too, up to the last one, equal classes are the same.
-/

namespace DocTypes.Class

mutual

/-- The class and all that it derives from. -/
def ancestry : Class → List Class
  | ⟨path, bases⟩ => ⟨path, bases⟩ :: ancestryEach bases
termination_by structural c => c

def ancestryEach : List Class → List Class
  | [] => []
  | base :: more => base.ancestry ++ ancestryEach more
termination_by structural bases => bases

end

theorem mem_ancestryEach {c : Class} {bases : List Class} :
    c ∈ ancestryEach bases ↔ ∃ base ∈ bases, c ∈ base.ancestry := by
  induction bases with
  | nil => simp [ancestryEach]
  | cons base more ih => simp [ancestryEach, ih]

theorem mem_ancestry_self (c : Class) : c ∈ c.ancestry := by
  cases c
  rw [ancestry]
  exact List.mem_cons_self ..

/-- With each class the bases of that class are there. -/
def Closed (classes : List Class) : Prop := ∀ c ∈ classes, ∀ base ∈ c.bases, base ∈ classes

theorem closed_ancestry (c : Class) : Closed c.ancestry := by
  induction c with
  | mk path bases ih =>
    intro d hd base hb
    rw [ancestry] at hd ⊢
    refine List.mem_cons_of_mem _ (mem_ancestryEach.2 ?_)
    rcases List.mem_cons.1 hd with rfl | hd
    · exact ⟨base, hb, base.mem_ancestry_self⟩
    · obtain ⟨own, ho, hm⟩ := mem_ancestryEach.1 hd
      exact ⟨own, ho, ih own ho d hm base hb⟩

theorem Closed.append {classes others : List Class} (h : Closed classes) (k : Closed others) :
    Closed (classes ++ others) := by
  intro c hc base hb
  rcases List.mem_append.1 hc with hc | hc
  · exact List.mem_append_left _ (h c hc base hb)
  · exact List.mem_append_right _ (k c hc base hb)

/-- Equal classes have equal bases. -/
def Consistent (classes : List Class) : Prop :=
  ∀ c ∈ classes, ∀ d ∈ classes, (c == d) = true → (c.bases == d.bases) = true

instance (classes : List Class) : Decidable (Consistent classes) :=
  inferInstanceAs (Decidable (∀ c ∈ classes, ∀ d ∈ classes, _ → _))

theorem Consistent.mono {classes fewer : List Class} (h : Consistent classes)
    (hs : ∀ c ∈ fewer, c ∈ classes) : Consistent fewer :=
  fun c hc d hd => h c (hs c hc) d (hs d hd)

theorem eq_of_beq_of_forall {as bs : List Class} (h : (as == bs) = true)
    (he : ∀ a ∈ as, ∀ b ∈ bs, (a == b) = true → a = b) : as = bs := by
  induction as generalizing bs with
  | nil =>
    cases bs with
    | nil => rfl
    | cons b bs => cases h
  | cons a as ih =>
    cases bs with
    | nil => cases h
    | cons b bs =>
      rw [List.cons_beq_cons, Bool.and_eq_true] at h
      rw [he a (List.mem_cons_self ..) b (List.mem_cons_self ..) h.1]
      refine congrArg (b :: ·) (ih h.2 fun c hc d hd => ?_)
      exact he c (List.mem_cons_of_mem _ hc) d (List.mem_cons_of_mem _ hd)

/-- The bases are the same, as those of the bases are. -/
theorem Consistent.eq_of_beq {classes : List Class} (h : Consistent classes) (hb : Closed classes)
    {c d : Class} (hc : c ∈ classes) (hd : d ∈ classes) (he : (c == d) = true) : c = d := by
  induction c generalizing d with
  | mk path bases ih =>
    obtain ⟨other, others⟩ := d
    obtain rfl : path = other := beq_iff.1 he
    have hbases : bases = others := by
      refine eq_of_beq_of_forall (h _ hc _ hd he) fun a ha b hm hab => ?_
      exact ih a ha (hb _ hc a ha) (hb _ hd b hm) hab
    rw [hbases]

end DocTypes.Class
