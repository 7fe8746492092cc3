import DocTypes.Proofs.Catalog.Registration
import DocTypes.Proofs.Distinct
import DocTypes.Session
import Mathlib.Data.List.Induction

set_option autoImplicit false

/-!
# A catalog is its history

What a catalog holds is told by the registrations that have made it: under each name the types that
were registered under it, each once and in the order in which they first came. Its revision counts
the different pairs. What a registration answers counts the pairs in it that no earlier one has.
-/

namespace DocTypes

namespace TypeSet

theorem ofList_concat (types : List TypeRef) (type : TypeRef) :
    ofList (types ++ [type]) = (ofList types).insert type := List.foldl_append

theorem contains_ofList (types : List TypeRef) (type : TypeRef) :
    (ofList types).contains type = types.any (· == type) := by
  induction types using List.reverseRecOn with
  | nil => rfl
  | append_singleton types last ih =>
    rw [ofList_concat, contains_insert, ih, List.any_append, List.any_cons, List.any_nil,
      Bool.or_false]

theorem members_ofList (types : List TypeRef) : (ofList types).members = types.eraseDups := by
  induction types using List.reverseRecOn with
  | nil => rfl
  | append_singleton types last ih =>
    rw [ofList_concat, eraseDups_concat, insert, contains_ofList, ← ih]
    split <;> rfl

end TypeSet

namespace Registration

/-- A registration as an action of a session. -/
def action : Registration → Action
  | ofType name type => .register name type
  | ofClass c => .registerClass c

/-- All pairs of these registrations, with repeats. -/
def allPairs (registrations : List Registration) : List (Text × TypeRef) :=
  registrations.flatMap pairs

/-- What is answered after these registrations: whether the pair is new, or how many are. -/
def reply (past : List Registration) : Registration → Reply
  | ofType name type => .flag (!(allPairs past).any (· == (name, type)))
  | ofClass c =>
    .count (c.names.filter fun name => !(allPairs past).any (· == (name, .ofClass c))).length

end Registration

namespace Catalog

open Registration

/-- The types registered under a name, with repeats. -/
def typesUnder (name : Text) (pairs : List (Text × TypeRef)) : List TypeRef :=
  (pairs.filter fun pair => pair.1 = name).map Prod.snd

/-- The types that a catalog has under a name. -/
def typesAt (catalog : Catalog) (name : Text) : List TypeRef :=
  ((catalog.find? name).map TypeSet.members).getD []

theorem typesUnder_concat (name : Text) (pairs : List (Text × TypeRef)) (pair : Text × TypeRef) :
    typesUnder name (pairs ++ [pair]) =
      if pair.1 = name then typesUnder name pairs ++ [pair.2] else typesUnder name pairs := by
  rw [typesUnder, List.filter_append, List.map_append]
  by_cases h : pair.1 = name <;> simp [h, typesUnder]

theorem find?_registerAll (pairs : List (Text × TypeRef)) (name : Text) :
    (empty.registerAll pairs).find? name =
      if typesUnder name pairs = [] then none else some (.ofList (typesUnder name pairs)) := by
  induction pairs using List.reverseRecOn with
  | nil => rfl
  | append_singleton pairs pair ih =>
    rw [registerAll_concat, find?_register, typesUnder_concat]
    by_cases h : pair.1 = name
    · subst h
      rw [if_pos rfl, if_pos rfl, if_neg (List.append_ne_nil_of_right_ne_nil _ (by simp)), ih,
        TypeSet.ofList_concat]
      split
      case isTrue he =>
        rw [he]
        rfl
      case isFalse => rfl
    · rw [if_neg h, if_neg h, ih]

theorem typesAt_registerAll (pairs : List (Text × TypeRef)) (name : Text) :
    (empty.registerAll pairs).typesAt name = (typesUnder name pairs).eraseDups := by
  rw [typesAt, find?_registerAll]
  split
  case isTrue he =>
    rw [he]
    rfl
  case isFalse => exact TypeSet.members_ofList _

theorem hasPair_registerAll (catalog : Catalog) (pairs : List (Text × TypeRef)) (name : Text)
    (type : TypeRef) : (catalog.registerAll pairs).hasPair name type =
      (catalog.hasPair name type || pairs.any (· == (name, type))) := by
  induction pairs generalizing catalog with
  | nil => exact (Bool.or_false _).symm
  | cons pair more ih =>
    rw [List.any_cons, ← Bool.or_assoc, ← hasPair_register]
    exact ih _

theorem contains_registerAll (catalog : Catalog) (pairs : List (Text × TypeRef)) (name : Text) :
    (catalog.registerAll pairs).contains name =
      (catalog.contains name || (pairs.map Prod.fst).any (· == name)) := by
  induction pairs generalizing catalog with
  | nil => exact (Bool.or_false _).symm
  | cons pair more ih =>
    rw [List.map_cons, List.any_cons, ← Bool.or_assoc,
      ← contains_register catalog pair.1 name pair.2]
    exact ih _

theorem names_registerAll (pairs : List (Text × TypeRef)) :
    (empty.registerAll pairs).names = (pairs.map Prod.fst).eraseDups := by
  induction pairs using List.reverseRecOn with
  | nil => rfl
  | append_singleton pairs pair ih =>
    rw [registerAll_concat, names_register, contains_registerAll, ih, List.map_append,
      List.map_singleton, eraseDups_concat]
    rfl

theorem revision_registerAll (pairs : List (Text × TypeRef)) :
    (empty.registerAll pairs).revision = pairs.eraseDups.length := by
  induction pairs using List.reverseRecOn with
  | nil => rfl
  | append_singleton pairs pair ih =>
    rw [registerAll_concat, revision_register, hasPair_registerAll, ih, eraseDups_concat]
    change (if pairs.any (· == pair) = true then _ else _) = _
    split
    · rfl
    · rw [List.length_append]
      rfl

/-- Pairs that differ from one another count each for itself. -/
theorem revision_registerAll_of_pairwise {pairs : List (Text × TypeRef)}
    (h : pairs.Pairwise fun a b => (a == b) = false) (catalog : Catalog) :
    (catalog.registerAll pairs).revision =
      catalog.revision + (pairs.filter fun pair => !catalog.hasPair pair.1 pair.2).length := by
  induction pairs generalizing catalog with
  | nil => rfl
  | cons pair more ih =>
    obtain ⟨hp, hm⟩ := List.pairwise_cons.1 h
    have hk : more.filter (fun other => !(catalog.register pair.1 pair.2).hasPair other.1 other.2) =
        more.filter fun other => !catalog.hasPair other.1 other.2 := by
      refine List.filter_congr fun other ho => ?_
      rw [hasPair_register, hp other ho, Bool.or_false]
    have hr := ih hm (catalog.register pair.1 pair.2)
    rw [hk, revision_register] at hr
    change ((catalog.register pair.1 pair.2).registerAll more).revision = _
    rw [hr, List.filter_cons]
    cases catalog.hasPair pair.1 pair.2 with
    | true => rfl
    | false =>
      simp only [Bool.false_eq_true, if_false, Bool.not_false, if_true, List.length_cons]
      omega

theorem added_enter (catalog : Catalog) (registration : Registration) :
    catalog.added (catalog.enter registration) =
      (registration.pairs.filter fun pair => !catalog.hasPair pair.1 pair.2).length := by
  rw [added, enter_eq, revision_registerAll_of_pairwise registration.pairwise_pairs,
    Nat.add_sub_cancel_left]

theorem prefix_insert (types : TypeSet) (type : TypeRef) :
    types.members <+: (types.insert type).members := by
  unfold TypeSet.insert
  split
  · exact List.prefix_refl _
  · exact List.prefix_append ..

theorem typesAt_prefix_register (catalog : Catalog) (name other : Text) (type : TypeRef) :
    catalog.typesAt other <+: (catalog.register name type).typesAt other := by
  rw [typesAt, typesAt, find?_register]
  split
  case isTrue h =>
    subst h
    cases catalog.find? name with
    | none => exact List.nil_prefix
    | some types => exact prefix_insert types type
  case isFalse => exact List.prefix_refl _

theorem typesAt_prefix_enter (catalog : Catalog) (registration : Registration) (name : Text) :
    catalog.typesAt name <+: (catalog.enter registration).typesAt name := by
  rw [enter_eq]
  generalize registration.pairs = pairs
  induction pairs generalizing catalog with
  | nil => exact List.prefix_refl _
  | cons pair more ih => exact (catalog.typesAt_prefix_register pair.1 name pair.2).trans (ih _)

/-- The names that are not their kind's own, as registrations. -/
def aliases : List Registration :=
  [.ofType "function".toList (.kind .function), .ofType "function".toList (.kind .method),
    .ofType "string".toList (.kind .str), .ofType "None".toList (.kind .null)]

theorem withBuiltins_eq : withBuiltins = empty.enterAll aliases := rfl

/-- The catalog tells these registrations and no others. -/
structure Recounts (catalog : Catalog) (past : List Registration) : Prop where
  isSome_find? (name : Text) : (catalog.find? name).isSome ↔
    ∃ registration ∈ past, ∃ type, registration.Enters name type
  typesAt (name : Text) : catalog.typesAt name = (typesUnder name (allPairs past)).eraseDups
  members_ne_nil (name : Text) : ∀ types ∈ catalog.find? name, types.members ≠ []
  size : catalog.size = ((allPairs past).map Prod.fst).eraseDups.length
  revision : catalog.revision = (allPairs past).eraseDups.length
  act (session : Session) (index : Nat) (desk : Desk) (next : Registration) :
    { session with catalog := catalog }.act index desk next.action =
      ({ session with catalog := catalog.enter next }, next.reply past)
  typesAt_prefix (next : Registration) (name : Text) :
    catalog.typesAt name <+: (catalog.enter next).typesAt name

theorem mem_typesUnder {name : Text} {type : TypeRef} {pairs : List (Text × TypeRef)} :
    type ∈ typesUnder name pairs ↔ (name, type) ∈ pairs := by
  simp only [typesUnder, List.mem_map, List.mem_filter, decide_eq_true_eq]
  constructor
  · rintro ⟨pair, ⟨hm, rfl⟩, rfl⟩
    exact hm
  · intro h
    exact ⟨(name, type), ⟨h, rfl⟩, rfl⟩

theorem typesUnder_allPairs_ne_nil_iff {name : Text} {past : List Registration} :
    typesUnder name (allPairs past) ≠ [] ↔
      ∃ registration ∈ past, ∃ type, registration.Enters name type := by
  rw [← List.isEmpty_eq_false_iff, List.isEmpty_eq_false_iff_exists_mem]
  simp only [mem_typesUnder, allPairs, List.mem_flatMap, mem_pairs]
  constructor
  · rintro ⟨type, registration, hr, he⟩
    exact ⟨registration, hr, type, he⟩
  · rintro ⟨registration, hr, type, he⟩
    exact ⟨type, registration, hr, he⟩

theorem act_enter (session : Session) (index : Nat) (desk : Desk) (next : Registration)
    (past : List Registration) :
    { session with catalog := empty.enterAll past }.act index desk next.action =
      ({ session with catalog := (empty.enterAll past).enter next }, next.reply past) := by
  have hp (pair : Text × TypeRef) : (empty.enterAll past).hasPair pair.1 pair.2 =
      (allPairs past).any (· == pair) := by
    rw [enterAll_eq, hasPair_registerAll]
    rfl
  cases next with
  | ofType name type =>
    have hn : ((empty.enterAll past).put name type).2 =
        !(allPairs past).any (· == (name, type)) := by
      rw [snd_put, hp (name, type)]
    exact congrArg (fun isNew => (_, Reply.flag isNew)) hn
  | ofClass c =>
    have ha := added_enter (empty.enterAll past) (.ofClass c)
    simp only [hp, pairs, List.filter_map, List.length_map] at ha
    have hn := (snd_putClass (empty.enterAll past) c).trans ha
    exact congrArg (fun count => (_, Reply.count count)) hn

theorem recounts_enterAll_empty (past : List Registration) :
    (empty.enterAll past).Recounts past where
  isSome_find? name := by
    rw [← typesUnder_allPairs_ne_nil_iff, enterAll_eq, find?_registerAll, allPairs]
    split
    case isTrue h => simp [h]
    case isFalse h => simp [h]
  typesAt name := by rw [enterAll_eq, typesAt_registerAll, allPairs]
  members_ne_nil name types h := by
    rw [enterAll_eq, find?_registerAll] at h
    split at h
    · cases h
    · cases h
      rwa [TypeSet.members_ofList, ne_eq, eraseDups_eq_nil_iff]
  size := by
    rw [enterAll_eq, allPairs, ← names_registerAll, names, List.length_map, size]
  revision := by rw [enterAll_eq, revision_registerAll, allPairs]
  act session index desk next := act_enter session index desk next past
  typesAt_prefix next name := typesAt_prefix_enter _ next name

/-- Catalogs that start empty, and those that start with the aliases, are what their registrations
tell. -/
theorem recounts_enterAll (registrations : List Registration) :
    (empty.enterAll registrations).Recounts registrations ∧
      (withBuiltins.enterAll registrations).Recounts (aliases ++ registrations) := by
  refine ⟨recounts_enterAll_empty registrations, ?_⟩
  have h := recounts_enterAll_empty (aliases ++ registrations)
  rw [enterAll, List.foldl_append] at h
  rw [withBuiltins_eq]
  exact h

end Catalog

end DocTypes
