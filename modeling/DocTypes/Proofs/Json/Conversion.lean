import DocTypes.Json.Conversion
import DocTypes.Proofs.Binary64
import DocTypes.Proofs.Json.Reader
import DocTypes.Proofs.Value.Entries
import DocTypes.Proofs.Value.Equality

set_option autoImplicit false

/-!
# Documents and their values

A document and its value tell the same: the items of an array and the members of an object keep
their places, each member is found under its key, and equal values come from documents that differ
in how their numbers are written at most.
-/

namespace DocTypes

namespace Json

open Value (ofJson)

/-- The same document but for numbers that have equal ints or equal floats as their values. -/
inductive SameTree : Json → Json → Prop where
  | null : SameTree .null .null
  | bool (b : Bool) : SameTree (.bool b) (.bool b)
  | int {a b : Json} {n : Int64} (ha : ofJson a = .int n) (hb : ofJson b = .int n) :
    SameTree a b
  | float {a b : Json} {x y : Binary64} (ha : ofJson a = .float x) (hb : ofJson b = .float y)
    (he : x.equals y = true) : SameTree a b
  | string (s : Text) : SameTree (.string s) (.string s)
  | array {items others : List Json} (hi : List.Forall₂ SameTree items others) :
    SameTree (.array items) (.array others)
  | object {members others : List (Text × Json)}
    (hk : members.map Prod.fst = others.map Prod.fst)
    (hv : List.Forall₂ SameTree (members.map Prod.snd) (others.map Prod.snd)) :
    SameTree (.object members) (.object others)

theorem SameTree.induct {motive : Json → Json → Prop} (null : motive .null .null)
    (bool : ∀ b, motive (.bool b) (.bool b))
    (int : ∀ {a b : Json} {n : Int64}, ofJson a = .int n → ofJson b = .int n → motive a b)
    (float : ∀ {a b : Json} {x y : Binary64}, ofJson a = .float x → ofJson b = .float y →
      x.equals y = true → motive a b)
    (string : ∀ s, motive (.string s) (.string s))
    (array : ∀ {items others : List Json}, List.Forall₂ motive items others →
      motive (.array items) (.array others))
    (object : ∀ {members others : List (Text × Json)},
      members.map Prod.fst = others.map Prod.fst →
      List.Forall₂ motive (members.map Prod.snd) (others.map Prod.snd) →
      motive (.object members) (.object others))
    {a b : Json} (h : SameTree a b) : motive a b :=
  @SameTree.rec (fun a b _ => motive a b) (fun items others _ => List.Forall₂ motive items others)
    null bool int float string (fun _ hi => array hi) (fun hk _ hv => object hk hv)
    .nil (fun _ _ hab hs => .cons hab hs) a b h

end Json

namespace Value

open Json (SameTree)

/-- The value of a whole number is an int, or a float that is not a NaN. -/
theorem ofJson_whole (n : Int) :
    (∃ i, ofJson (.whole n) = int i) ∨ ∃ x, ofJson (.whole n) = float x ∧ x.isNaN = false := by
  change (∃ i, ofWhole n = int i) ∨ ∃ x, ofWhole n = float x ∧ x.isNaN = false
  rw [ofWhole]
  split
  · exact .inl ⟨_, rfl⟩
  · refine .inr ⟨_, rfl, ?_⟩
    split
    · rw [Binary64.isNaN_negate, Binary64.ofNat, Binary64.isNaN_ofQuotient]
    · exact Binary64.isNaN_ofQuotient ..

theorem toInt_ofInt_of_fitsInt {n : Int} (h : fitsInt n = true) : (Int64.ofInt n).toInt = n := by
  rw [fitsInt, Bool.and_eq_true, decide_eq_true_iff, decide_eq_true_iff, Int64.toInt_minValue,
    Int64.toInt_maxValue] at h
  exact Int64.toInt_ofInt_of_le h.1 (Int.le_sub_one_iff.1 h.2)

theorem fitsInt_toInt (n : Int64) : fitsInt n.toInt = true :=
  Bool.and_eq_true_iff.2 ⟨decide_eq_true n.minValue_le_toInt, decide_eq_true n.toInt_le⟩

/-- An int is the value of one document, which is that whole number. -/
theorem ofJson_eq_int_iff {json : Json} {n : Int64} :
    ofJson json = int n ↔ json = .whole n.toInt := by
  constructor
  · intro h
    cases json with
    | whole m =>
      change ofWhole m = int n at h
      rw [ofWhole] at h
      split at h
      case isTrue hf =>
        obtain rfl : Int64.ofInt m = n := Value.int.inj h
        rw [toInt_ofInt_of_fitsInt hf]
      case isFalse => cases h
    | _ => cases h
  · rintro rfl
    change ofWhole n.toInt = int n
    rw [ofWhole, if_pos (fitsInt_toInt n), Int64.ofInt_toInt]

/-- The kind of a value tells what the documents are that have an equal one. -/
theorem document_of_beq {v : Value} {json : Json} (h : (v == ofJson json) = true) :
    match v.kind? with
    | some .null => json = .null
    | some .bool => ∃ b, json = .bool b
    | some .int => ∃ n, ofJson json = int n
    | some .float => ∃ x, ofJson json = float x
    | some .str => ∃ s, json = .string s
    | some .list => ∃ items, json = .array items
    | some .dict => ∃ members, json = .object members
    | _ => False := by
  rw [kind?_eq_of_beq h]
  cases json with
  | null => exact rfl
  | whole n =>
    obtain ⟨i, hi⟩ | ⟨x, hx, -⟩ := ofJson_whole n
    · rw [hi]
      exact ⟨i, rfl⟩
    · rw [hx]
      exact ⟨x, rfl⟩
  | _ => exact ⟨_, rfl⟩

theorem ofJson_array (items : List Json) : ofJson (.array items) = list (items.map ofJson) :=
  congrArg list (ofItems_eq_map items)

variable {members others : List (Text × Json)}

/-- The keys of a document are strings, and as strings they differ too. -/
theorem keysApart_ofMembers (h : (members.map Prod.fst).Nodup) :
    KeysApart (members.map fun m => (str m.1, ofJson m.2)) := by
  refine List.pairwise_map.2 ((List.pairwise_map.1 h).imp fun {m later} hne => ?_)
  change (m.1 == later.1) = false
  exact beq_eq_false_iff_ne.2 hne

theorem ofJson_object (h : (members.map Prod.fst).Nodup) :
    ofJson (.object members) = dict (members.map fun m => (str m.1, ofJson m.2)) := by
  change ofEntries (ofJsonMembers members) = _
  rw [ofJsonMembers_eq_map, ofEntries_eq, (keysApart_ofMembers h).keptEntries_eq]

/-- A member is found under its key, and nothing under other strings. -/
theorem fieldAt?_ofMembers (key : Text) :
    fieldAt? (members.map fun m => (str m.1, ofJson m.2)) key =
      (members.find? (·.1 == key)).map (ofJson ·.2) := by
  rw [fieldAt?, List.find?_map, Option.map_map]
  rfl

theorem find?_key_of_mem (h : (members.map Prod.fst).Nodup) {m : Text × Json}
    (hm : m ∈ members) : members.find? (·.1 == m.1) = some m := by
  induction members with
  | nil => cases hm
  | cons first more ih =>
    obtain ⟨hf, hn⟩ := List.nodup_cons.1 h
    rcases List.mem_cons.1 hm with rfl | hm
    · exact List.find?_cons_of_pos (by simp)
    · have hne : first.1 ≠ m.1 := fun he => hf (he ▸ List.mem_map_of_mem hm)
      rw [List.find?_cons_of_neg (by simpa using hne), ih hn hm]

theorem find?_key_of_not_mem {key : Text} (h : key ∉ members.map Prod.fst) :
    members.find? (·.1 == key) = none := by
  refine List.find?_eq_none.2 fun m hm he => h ?_
  exact List.mem_map.2 ⟨m, hm, beq_iff_eq.1 he⟩

theorem forall₂_members_iff {R : Json → Json → Prop} :
    List.Forall₂ (fun m other => m.1 = other.1 ∧ R m.2 other.2) members others ↔
      members.map Prod.fst = others.map Prod.fst ∧
        List.Forall₂ R (members.map Prod.snd) (others.map Prod.snd) := by
  induction members generalizing others with
  | nil => cases others <;> simp
  | cons m more ih =>
    cases others with
    | nil => simp
    | cons other rest =>
      simp only [List.map_cons, List.forall₂_cons, ih, List.cons.injEq]
      tauto

theorem forall₂_of_mem {R S : Json → Json → Prop} {items others : List Json}
    (h : ∀ a ∈ items, ∀ b ∈ others, R a b → S a b) (hr : List.Forall₂ R items others) :
    List.Forall₂ S items others := by
  induction hr with
  | nil => exact .nil
  | cons hab _ ih =>
    refine .cons (h _ (List.mem_cons_self ..) _ (List.mem_cons_self ..) hab) (ih ?_)
    exact fun a ha b hb => h a (List.mem_cons_of_mem _ ha) b (List.mem_cons_of_mem _ hb)

theorem beq_array_iff {items others : List Json} :
    (ofJson (.array items) == ofJson (.array others)) = true ↔
      List.Forall₂ (fun a b => (ofJson a == ofJson b) = true) items others := by
  rw [ofJson_array, ofJson_array]
  refine equalsEach_iff_forall₂.trans ?_
  rw [List.forall₂_map_left_iff, List.forall₂_map_right_iff]

theorem beq_object_iff (hm : (members.map Prod.fst).Nodup) (ho : (others.map Prod.fst).Nodup) :
    (ofJson (.object members) == ofJson (.object others)) = true ↔
      members.map Prod.fst = others.map Prod.fst ∧
        List.Forall₂ (fun a b => (ofJson a == ofJson b) = true) (members.map Prod.snd)
          (others.map Prod.snd) := by
  have hs : ∀ s t : Text, (str s == str t) = true ↔ s = t := fun _ _ => beq_iff_eq (α := Text)
  rw [ofJson_object hm, ofJson_object ho, ← forall₂_members_iff]
  refine equalsEntries_iff_forall₂.trans ?_
  rw [List.forall₂_map_left_iff, List.forall₂_map_right_iff]
  simp only [hs]

theorem sameTree_of_beq_int {a b : Json} {n : Int64} (ha : ofJson a = int n)
    (h : (ofJson a == ofJson b) = true) : SameTree a b := by
  rw [ha] at h
  obtain ⟨m, hb⟩ : ∃ m, ofJson b = int m := document_of_beq h
  rw [hb] at h
  obtain rfl : n = m := beq_iff_eq.1 h
  exact .int ha hb

theorem sameTree_of_beq_float {a b : Json} {x : Binary64} (ha : ofJson a = float x)
    (h : (ofJson a == ofJson b) = true) : SameTree a b := by
  rw [ha] at h
  obtain ⟨y, hb⟩ : ∃ y, ofJson b = float y := document_of_beq h
  rw [hb] at h
  exact .float ha hb h

/-- Well-formed documents with equal values are the same but for their numbers. -/
theorem sameTree_of_beq {a : Json} (ha : a.WellFormed) :
    ∀ b : Json, b.WellFormed → (ofJson a == ofJson b) = true → SameTree a b := by
  -- The value of `b` is of the kind of that of `a`, which tells what `b` is.
  induction ha with
  | null =>
    intro b _ h
    obtain rfl : b = .null := document_of_beq h
    exact .null
  | bool x =>
    intro b _ h
    obtain ⟨y, rfl⟩ : ∃ y, b = .bool y := document_of_beq h
    obtain rfl : x = y := beq_iff_eq.1 h
    exact .bool x
  | string s =>
    intro b _ h
    obtain ⟨t, rfl⟩ : ∃ t, b = .string t := document_of_beq h
    obtain rfl : s = t := beq_iff_eq.1 h
    exact .string s
  | whole n =>
    intro b _ h
    obtain ⟨i, hi⟩ | ⟨x, hx, -⟩ := ofJson_whole n
    · exact sameTree_of_beq_int hi h
    · exact sameTree_of_beq_float hx h
  | real =>
    intro b _ h
    exact sameTree_of_beq_float rfl h
  | array _ ih =>
    intro b hb h
    obtain ⟨others, rfl⟩ : ∃ others, b = .array others := document_of_beq h
    have ho := Json.wellFormed_array_iff.1 hb
    exact .array (forall₂_of_mem (fun c hc d hd => ih c hc d (ho d hd)) (beq_array_iff.1 h))
  | object hk _ ih =>
    intro b hb h
    obtain ⟨others, rfl⟩ : ∃ others, b = .object others := document_of_beq h
    obtain ⟨hl, ho⟩ := Json.wellFormed_object_iff.1 hb
    obtain ⟨he, hv⟩ := (beq_object_iff hk hl).1 h
    exact .object he (forall₂_of_mem (fun c hc d hd => ih c hc d (ho d hd)) hv)

/-- Well-formed documents that are the same but for their numbers have equal values. -/
theorem beq_of_sameTree {a b : Json} (h : SameTree a b) :
    a.WellFormed → b.WellFormed → (ofJson a == ofJson b) = true := by
  refine h.induct (motive := fun a b => a.WellFormed → b.WellFormed →
    (ofJson a == ofJson b) = true) ?null ?bool ?int ?float ?string ?array ?object
  case null => exact fun _ _ => rfl
  case bool => exact fun b _ _ => beq_self_eq_true b
  case string => exact fun s _ _ => beq_self_eq_true s
  case int =>
    intro a b n ha hb _ _
    rw [ha, hb]
    exact beq_self_eq_true n
  case float =>
    intro a b x y ha hb he _ _
    rw [ha, hb]
    exact he
  case array =>
    intro items others hi ha hb
    rw [Json.wellFormed_array_iff] at ha hb
    exact beq_array_iff.2 (forall₂_of_mem (fun c hc d hd hr => hr (ha c hc) (hb d hd)) hi)
  case object =>
    intro members others he hv ha hb
    rw [Json.wellFormed_object_iff] at ha hb
    refine (beq_object_iff ha.1 hb.1).2 ⟨he, ?_⟩
    exact forall₂_of_mem (fun c hc d hd hr => hr (ha.2 c hc) (hb.2 d hd)) hv

theorem sameTree_refl {a : Json} (ha : a.WellFormed) : SameTree a a := by
  induction ha with
  | null => exact .null
  | bool b => exact .bool b
  | string s => exact .string s
  | whole n =>
    obtain ⟨i, hi⟩ | ⟨x, hx, hn⟩ := ofJson_whole n
    · exact .int hi hi
    · exact .float hx hx (by rw [x.equals_self, hn]; rfl)
  | @real x hx => exact .float rfl rfl (by rw [x.equals_self, hx]; rfl)
  | array _ ih => exact .array (List.forall₂_same.2 ih)
  | object _ _ ih => exact .object rfl (List.forall₂_same.2 ih)

theorem beq_ofJson_iff {a b : Json} (ha : a.WellFormed) (hb : b.WellFormed) :
    (ofJson a == ofJson b) = true ↔ SameTree a b :=
  ⟨sameTree_of_beq ha b hb, fun h => beq_of_sameTree h ha hb⟩

/-- The value of a document tells all of it but how its numbers are written. What is read from a text
is well-formed, so that nothing more need be known of it. -/
theorem ofJson_lossless :
    (∀ (text : Text) (a : Json), Json.ofText? text = some a → a.WellFormed) ∧
    ∀ a : Json, a.WellFormed →
      (∀ n, ofJson a = int n ↔ a = .whole n.toInt) ∧
      (∀ items, a = .array items → ofJson a = list (items.map ofJson)) ∧
      (∀ members, a = .object members →
        ofJson a = dict (members.map fun m => (str m.1, ofJson m.2)) ∧
        (∀ m ∈ members, (ofJson a).field? m.1 = some (ofJson m.2)) ∧
        ∀ key, key ∉ members.map Prod.fst → (ofJson a).field? key = none) ∧
      (ofJson a == ofJson a) = true ∧
      ∀ b : Json, b.WellFormed → ((ofJson a == ofJson b) = true ↔ SameTree a b) := by
  refine ⟨fun text a hr => Json.wellFormed_of_ofText? hr, fun a ha => ?_⟩
  refine ⟨fun n => ofJson_eq_int_iff, ?_, ?_, (beq_ofJson_iff ha ha).2 (sameTree_refl ha), ?_⟩
  · rintro items rfl
    exact ofJson_array items
  · rintro members rfl
    have hk := (Json.wellFormed_object_iff.1 ha).1
    have hd := ofJson_object hk
    refine ⟨hd, fun m hm => ?_, fun key hn => ?_⟩
    · rw [hd, field?, fieldAt?_ofMembers, find?_key_of_mem hk hm]
      rfl
    · rw [hd, field?, fieldAt?_ofMembers, find?_key_of_not_mem hn]
      rfl
  · exact fun b hb => beq_ofJson_iff ha hb

theorem ofJson_lossless_of_zeros :
    let tree (zero great : Json) : Json :=
      .object [("at".toList, .array [zero, .object [("at".toList, .null)]]), ("by".toList, great)]
    let a := tree (.real ⟨0⟩) (.whole 9223372036854775808)
    let b := tree (.real ⟨0x8000000000000000⟩) (.real ⟨0x43E0000000000000⟩)
    let read := Json.array [.array [], .object []]
    Json.ofText? "[[], {}]".toList = some read ∧ read.WellFormed ∧ a.WellFormed ∧ b.WellFormed ∧
      (ofJson a == ofJson b) = true ∧ SameTree a b ∧
      (ofJson a).field? "by".toList = some (float ⟨0x43E0000000000000⟩) ∧
      (ofJson a).field? "At".toList = none := by
  intro tree a b read
  have hr : Json.ofText? "[[], {}]".toList = some read := by
    have ht : Json.Token.readAll? "[[], {}]".toList =
        some ("[[],{}]".toList.map Json.Token.mark) := by
      simp [Json.Token.readAll?, Json.Token.read?, Json.Token.isBlank, Json.Token.isMark]
    rw [Json.ofText?, ht]
    rfl
  have ht : ∀ zero great : Json, zero.WellFormed → great.WellFormed →
      (tree zero great).WellFormed := by
    intro zero great hz hg
    have hi : (Json.object [("at".toList, .null)]).WellFormed :=
      .object (by decide) (List.forall_mem_singleton.2 .null)
    have hk : ["at".toList, "by".toList].Nodup := by decide
    refine .object hk (List.forall_mem_cons.2 ⟨?_, List.forall_mem_singleton.2 hg⟩)
    exact .array (List.forall_mem_cons.2 ⟨hz, List.forall_mem_singleton.2 hi⟩)
  have ha : a.WellFormed := ht _ _ (.real rfl) (.whole _)
  have hb : b.WellFormed := ht _ _ (.real rfl) (.real rfl)
  have he : (ofJson a == ofJson b) = true := rfl
  obtain ⟨-, -, hm, -, hs⟩ := ofJson_lossless.2 a ha
  obtain ⟨-, hf, hn⟩ := hm _ rfl
  refine ⟨hr, ofJson_lossless.1 _ read hr, ha, hb, he, (hs b hb).1 he, ?_, hn _ (by decide)⟩
  exact hf ("by".toList, .whole 9223372036854775808) (.tail _ (.head _))

end Value

end DocTypes
