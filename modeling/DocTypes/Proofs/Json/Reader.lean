import DocTypes.Json.Reader
import DocTypes.Proofs.Binary64
import DocTypes.Proofs.Json.Document
import DocTypes.Proofs.Text.Order

set_option autoImplicit false

/-!
# What is read is well-formed

A numeral is read as a rounding, and members are put in by their keys, so every document that is
read is well-formed. So is all that is in the containers that are open meanwhile.
-/

namespace DocTypes.Json

namespace Numeral

theorem isNaN_scale? {x y : Binary64} {power : Int} (hx : x.isNaN = false)
    (h : scale? x power = some y) : y.isNaN = false := by
  fun_induction scale? x power with
  | case1 | case6 => rwa [← Option.some.inj h]
  | case2 _ _ _ _ ih => exact ih (Binary64.isNaN_ofQuotient ..) h
  | case3 | case5 =>
    rw [← Option.some.inj h]
    exact Binary64.isNaN_ofQuotient ..
  | case4 | case7 => cases h

theorem isNaN_withSign (isNegative : Bool) (x : Binary64) :
    (withSign isNegative x).isNaN = x.isNaN := by
  cases isNegative
  · rfl
  · exact x.isNaN_negate

theorem isNaN_real? {numeral : Numeral} {x : Binary64} (h : numeral.real? = some x) :
    x.isNaN = false := by
  rw [real?] at h
  obtain ⟨number, wholeCount⟩ := takeIn 0 numeral.whole
  obtain ⟨significand, fractionCount⟩ := takeIn number numeral.fraction
  dsimp only at h
  split at h
  · obtain ⟨y, hy, rfl⟩ := Option.map_eq_some_iff.1 h
    rw [isNaN_withSign]
    exact isNaN_scale? (Binary64.isNaN_ofQuotient ..) hy
  · split at h
    · rw [← Option.some.inj h, isNaN_withSign]
      exact Binary64.isNaN_ofQuotient ..
    · cases h

theorem wellFormed_value? {numeral : Numeral} {json : Json} (h : numeral.value? = some json) :
    json.WellFormed := by
  rw [value?] at h
  split at h
  · obtain ⟨x, hx, rfl⟩ := Option.map_eq_some_iff.1 h
    exact .real (isNaN_real? hx)
  · split at h
    · rw [← Option.some.inj h]
      exact .whole _
    · split at h
      · rw [← Option.some.inj h]
        refine .real ?_
        rw [Binary64.isNaN_negate]
        exact Binary64.isNaN_ofQuotient ..
      · rw [← Option.some.inj h]
        exact .whole _

end Numeral

namespace Token

def WellFormed : Token → Prop
  | mark _ => True
  | scalar value => value.WellFormed

theorem wellFormed_readWord? {text rest : Text} {token : Token}
    (h : readWord? text = some (token, rest)) : token.WellFormed := by
  obtain ⟨word, hw, hf⟩ := List.exists_of_findSome?_eq_some h
  obtain ⟨after, -, he⟩ := Option.map_eq_some_iff.1 hf
  obtain ⟨rfl, -⟩ := Prod.mk.inj he
  simp only [words, List.mem_cons, List.not_mem_nil, or_false] at hw
  rcases hw with rfl | rfl | rfl
  · exact .null
  · exact .bool true
  · exact .bool false

theorem wellFormed_readNumber? {text rest : Text} {token : Token}
    (h : readNumber? text = some (token, rest)) : token.WellFormed := by
  unfold readNumber? at h
  split at h
  · obtain ⟨value, hv, he⟩ := Option.map_eq_some_iff.1 h
    obtain ⟨rfl, -⟩ := Prod.mk.inj he
    exact Numeral.wellFormed_value? hv
  · cases h

theorem wellFormed_read? {text rest : Text} {token : Token}
    (h : read? text = some (token, rest)) : token.WellFormed := by
  cases text with
  | nil => cases h
  | cons c after =>
    rw [read?] at h
    split at h
    · obtain ⟨rfl, -⟩ := Prod.mk.inj (Option.some.inj h)
      trivial
    · split at h
      · obtain ⟨found, -, he⟩ := Option.map_eq_some_iff.1 h
        obtain ⟨rfl, -⟩ := Prod.mk.inj he
        exact .string _
      · split at h
        · exact wellFormed_readNumber? h
        · exact wellFormed_readWord? h

theorem wellFormed_readAll? {text : Text} {tokens : List Token}
    (h : readAll? text = some tokens) : ∀ token ∈ tokens, token.WellFormed := by
  fun_induction readAll? text generalizing tokens with
  | case1 =>
    rw [← Option.some.inj h]
    exact List.forall_mem_nil _
  | case2 c rest hb ih => exact ih h
  | case3 => cases h
  | case4 c rest hb token after hr ih =>
    obtain ⟨more, hm, rfl⟩ := Option.map_eq_some_iff.1 h
    exact List.forall_mem_cons.2 ⟨wellFormed_read? hr, ih hm⟩

end Token

/-- Well-formed members in strictly ascending order of their keys. -/
structure InOrder (members : List (Text × Json)) : Prop where
  ascending : (members.map Prod.fst).Pairwise (· < ·)
  values : ∀ value ∈ members.map Prod.snd, value.WellFormed

variable {members : List (Text × Json)} {key : Text} {value : Json}

theorem InOrder.wellFormed (h : InOrder members) : (object members).WellFormed := by
  refine .object (h.ascending.imp fun hlt he => ?_) h.values
  subst he
  exact List.lt_irrefl _ hlt

theorem mem_putMember {member : Text × Json} (h : member ∈ putMember key value members) :
    member = (key, value) ∨ member ∈ members := by
  induction members with
  | nil => exact .inl (List.mem_singleton.1 h)
  | cons first more ih =>
    obtain ⟨other, old⟩ := first
    rw [putMember] at h
    split at h
    · exact (List.mem_cons.1 h).imp_right (List.mem_cons_of_mem _)
    · split at h
      · exact List.mem_cons.1 h
      · rcases List.mem_cons.1 h with rfl | h
        · exact .inr (List.mem_cons_self ..)
        · exact (ih h).imp_right (List.mem_cons_of_mem _)

theorem ascending_putMember (h : (members.map Prod.fst).Pairwise (· < ·)) (key : Text)
    (value : Json) : ((putMember key value members).map Prod.fst).Pairwise (· < ·) := by
  induction members with
  | nil => exact List.pairwise_singleton ..
  | cons first more ih =>
    obtain ⟨other, old⟩ := first
    obtain ⟨ho, hm⟩ := List.pairwise_cons.1 h
    rw [putMember]
    split
    case isTrue he =>
      subst he
      exact h
    case isFalse hne =>
      split
      case isTrue ha =>
        have hlt := Text.lt_of_atMost ha hne
        have hl : ∀ later ∈ more.map Prod.fst, key < later :=
          fun later hm => List.lt_trans hlt (ho later hm)
        exact .cons (List.forall_mem_cons.2 ⟨hlt, hl⟩) h
      case isFalse ha =>
        refine .cons (fun later hl => ?_) (ih hm)
        obtain ⟨member, hp, rfl⟩ := List.mem_map.1 hl
        rcases mem_putMember hp with rfl | hp
        · exact Text.lt_of_atMost (Text.atMost_of_not_atMost ha) (Ne.symm hne)
        · exact ho _ (List.mem_map_of_mem hp)

theorem InOrder.putMember (h : InOrder members) (key : Text) (hv : value.WellFormed) :
    InOrder (putMember key value members) where
  ascending := ascending_putMember h.ascending key value
  values := by
    refine List.forall_mem_map.2 fun member hm => ?_
    rcases mem_putMember hm with rfl | hm
    · exact hv
    · exact h.values _ (List.mem_map_of_mem hm)

def Frame.WellFormed : Frame → Prop
  | .items read => ∀ item ∈ read, item.WellFormed
  | .members read => InOrder read
  | .member read _ => InOrder read

def Phase.WellFormed : Phase → Prop
  | .after value => value.WellFormed
  | _ => True

namespace Reading

/-- All that has been read is well-formed. -/
structure WellFormed (reading : Reading) : Prop where
  frames : ∀ frame ∈ reading.frames, frame.WellFormed
  phase : reading.phase.WellFormed

variable {reading next : Reading} {token : Token} {frames : List Frame}

theorem WellFormed.enter (h : reading.WellFormed) {frame : Frame} {phase : Phase}
    (hs : reading.enter frame phase = some next) (hf : frame.WellFormed) (hp : phase.WellFormed) :
    next.WellFormed := by
  rw [Reading.enter] at hs
  split at hs
  · rw [← Option.some.inj hs]
    exact ⟨List.forall_mem_cons.2 ⟨hf, h.frames⟩, hp⟩
  · cases hs

theorem WellFormed.beginValue (h : reading.WellFormed) (ht : token.WellFormed)
    (hs : reading.beginValue token = some next) : next.WellFormed := by
  rw [Reading.beginValue.eq_def] at hs
  split at hs
  case h_1 =>
    rw [← Option.some.inj hs]
    exact ⟨h.frames, ht⟩
  case h_2 => exact h.enter hs (List.forall_mem_nil _) trivial
  case h_3 => exact h.enter hs ⟨.nil, List.forall_mem_nil _⟩ trivial
  case h_4 => cases hs

theorem wellFormed_readKey (h : ∀ frame ∈ frames, frame.WellFormed)
    (hs : readKey frames token = some next) : next.WellFormed := by
  rw [readKey.eq_def] at hs
  split at hs
  · rw [← Option.some.inj hs]
    exact ⟨h, trivial⟩
  · cases hs

theorem wellFormed_afterValue (h : ∀ frame ∈ frames, frame.WellFormed) (hv : value.WellFormed)
    {mark : Char} (hs : afterValue value mark frames = some next) : next.WellFormed := by
  rw [afterValue.eq_def] at hs
  split at hs
  case h_1 read below =>
    obtain ⟨hr, hb⟩ := List.forall_mem_cons.1 h
    have hr : ∀ item ∈ value :: read, item.WellFormed := List.forall_mem_cons.2 ⟨hv, hr⟩
    split at hs
    · rw [← Option.some.inj hs]
      exact ⟨List.forall_mem_cons.2 ⟨hr, hb⟩, trivial⟩
    · rw [Option.ite_none_right_eq_some] at hs
      rw [← Option.some.inj hs.2]
      exact ⟨hb, .array fun item hi => hr item (List.mem_reverse.1 hi)⟩
  case h_2 read key below =>
    obtain ⟨hr, hb⟩ := List.forall_mem_cons.1 h
    have hr : InOrder (putMember key value read) := hr.putMember key hv
    split at hs
    · rw [← Option.some.inj hs]
      exact ⟨List.forall_mem_cons.2 ⟨hr, hb⟩, trivial⟩
    · rw [Option.ite_none_right_eq_some] at hs
      rw [← Option.some.inj hs.2]
      exact ⟨hb, hr.wellFormed⟩
  case h_3 => cases hs

/-- One more token keeps all that has been read well-formed. -/
theorem WellFormed.step (h : reading.WellFormed) (ht : token.WellFormed)
    (hs : reading.step token = some next) : next.WellFormed := by
  have hf := h.frames
  have hp := h.phase
  rw [Reading.step.eq_def] at hs
  split at hs
  case h_1 | h_3 => exact h.beginValue ht hs
  case h_4 | h_6 => exact wellFormed_readKey hf hs
  case h_2 frame below _ he =>
    rw [he, List.forall_mem_cons] at hf
    rw [← Option.some.inj hs]
    exact ⟨hf.2, .array (List.forall_mem_nil _)⟩
  case h_5 frame below _ he =>
    rw [he, List.forall_mem_cons] at hf
    rw [← Option.some.inj hs]
    exact ⟨hf.2, .object .nil (List.forall_mem_nil _)⟩
  case h_7 key read below _ he =>
    rw [he, List.forall_mem_cons] at hf
    rw [← Option.some.inj hs]
    exact ⟨List.forall_mem_cons.2 hf, trivial⟩
  case h_8 value mark he =>
    rw [he] at hp
    exact wellFormed_afterValue hf hp hs
  case h_9 => cases hs

theorem WellFormed.foldlM (h : reading.WellFormed) {tokens : List Token}
    (ht : ∀ token ∈ tokens, token.WellFormed)
    (hs : tokens.foldlM Reading.step reading = some next) : next.WellFormed := by
  induction tokens generalizing reading with
  | nil =>
    rw [← Option.some.inj hs]
    exact h
  | cons token more ih =>
    obtain ⟨hfirst, hmore⟩ := List.forall_mem_cons.1 ht
    obtain ⟨middle, hm, hs⟩ := Option.bind_eq_some_iff.1 hs
    exact ih (h.step hfirst hm) hmore hs

theorem WellFormed.result? (h : reading.WellFormed) (hr : reading.result? = some value) :
    value.WellFormed := by
  rw [Reading.result?.eq_def] at hr
  split at hr
  · rw [← Option.some.inj hr]
    exact h.phase
  · cases hr

end Reading

theorem wellFormed_of_ofText? {text : Text} {json : Json} (h : ofText? text = some json) :
    json.WellFormed := by
  obtain ⟨tokens, ht, h⟩ := Option.bind_eq_some_iff.1 h
  obtain ⟨reading, hs, h⟩ := Option.bind_eq_some_iff.1 h
  have hw : Reading.start.WellFormed := ⟨List.forall_mem_nil _, trivial⟩
  exact (hw.foldlM (Token.wellFormed_readAll? ht) hs).result? h

end DocTypes.Json
