import DocTypes.Command.Options
import DocTypes.Proofs.Text.Numeral

set_option autoImplicit false

/-!
# Options in any order

Options are told by how they start, wherever they stand, and each sets one thing: what the options
are and what is left of the arguments depends on the options and on the rest, not on how the two are
mixed.
-/

namespace DocTypes.Command

def IsOption (argument : Text) : Prop := "--".toList <+: argument

instance : DecidablePred IsOption := fun argument =>
  inferInstanceAs (Decidable ("--".toList <+: argument))

/-- Digits, with or without a plus sign, that make a number of at most eight bits. -/
def WritesLevel (text : Text) (n : Nat) : Prop :=
  ∃ digits : Text, (text = digits ∨ text = '+' :: digits) ∧ digits ≠ [] ∧
    (∀ c ∈ digits, Text.isDigit c = true) ∧ Text.ofDigits (digits.map Text.digitValue) = n ∧ n < 256

def SetsDetail (argument : Text) (n : Nat) : Prop :=
  ∃ level, argument = "--verbosity=".toList ++ level ∧ WritesLevel level n

/-- An option that is none of the three there are. -/
def Rejected (argument : Text) : Prop :=
  IsOption argument ∧ argument ≠ "--none-valid".toList ∧ argument ≠ "--json".toList ∧
    ∀ n, ¬ SetsDetail argument n

variable {text argument : Text} {n : Nat}

theorem isOption_verbosity (level : Text) : IsOption ("--verbosity=".toList ++ level) :=
  List.IsPrefix.trans (by decide) (List.prefix_append "--verbosity=".toList level)

theorem SetsDetail.isOption (h : SetsDetail argument n) : IsOption argument := by
  obtain ⟨level, rfl, -⟩ := h
  exact isOption_verbosity level

namespace Argument

theorem detail?_eq_some_iff : detail? text = some n ↔ WritesLevel text n := by
  rw [detail?, Option.filter_eq_some_iff, Text.nat?_eq_some_iff, decide_eq_true_iff]
  cases h : Text.after? ['+'] text with
  | some digits =>
    obtain rfl : text = '+' :: digits := Text.after?_eq_some_iff.1 h
    constructor
    · rintro ⟨⟨hne, hd, hv⟩, hl⟩
      exact ⟨digits, .inr rfl, hne, hd, hv, Nat.lt_succ_of_le hl⟩
    · rintro ⟨_, rfl | he, hne, hd, hv, hl⟩
      · exact absurd (hd '+' (List.mem_cons_self ..)) (by decide)
      · obtain rfl := (List.cons.inj he).2
        exact ⟨⟨hne, hd, hv⟩, Nat.le_of_lt_succ hl⟩
  | none =>
    constructor
    · rintro ⟨⟨hne, hd, hv⟩, hl⟩
      exact ⟨text, .inl rfl, hne, hd, hv, Nat.lt_succ_of_le hl⟩
    · rintro ⟨digits, rfl | rfl, hne, hd, hv, hl⟩
      · exact ⟨⟨hne, hd, hv⟩, Nat.le_of_lt_succ hl⟩
      · cases h

theorem ofText_of_setsDetail (h : SetsDetail text n) : ofText text = .detail n := by
  obtain ⟨level, rfl, hl⟩ := h
  have hv : "--verbosity=".toList <+: "--verbosity=".toList ++ level := List.prefix_append ..
  rw [ofText, if_neg fun he => absurd (he ▸ hv) (by decide),
    if_neg fun he => absurd (he ▸ hv) (by decide), Text.after?_eq_some_iff.2 rfl]
  dsimp only
  rw [detail?_eq_some_iff.2 hl]

/-- What a text means as an argument. -/
inductive Means : Text → Argument → Prop where
  | nulls : Means "--none-valid".toList .nulls
  | json : Means "--json".toList .json
  | detail {text : Text} {n : Nat} (h : SetsDetail text n) : Means text (.detail n)
  | invalid {text : Text} (h : Rejected text) : Means text .invalid
  | positional {text : Text} (h : ¬ IsOption text) : Means text .positional

theorem means_ofText (text : Text) : Means text (ofText text) := by
  by_cases hn : text = "--none-valid".toList
  · subst hn
    exact .nulls
  by_cases hj : text = "--json".toList
  · subst hj
    exact .json
  rw [ofText, if_neg hn, if_neg hj]
  cases hv : Text.after? "--verbosity=".toList text with
  | some level =>
    obtain rfl := Text.after?_eq_some_iff.1 hv
    dsimp only
    cases hl : detail? level with
    | some n => exact .detail ⟨level, rfl, detail?_eq_some_iff.1 hl⟩
    | none =>
      refine .invalid ⟨isOption_verbosity level, hn, hj, ?_⟩
      rintro n ⟨other, he, hw⟩
      rw [List.append_cancel_left he, detail?_eq_some_iff.2 hw] at hl
      cases hl
  | none =>
    dsimp only
    cases ho : Text.after? "--".toList text with
    | some rest =>
      refine .invalid ⟨⟨rest, (Text.after?_eq_some_iff.1 ho).symm⟩, hn, hj, ?_⟩
      rintro n ⟨level, rfl, -⟩
      rw [Text.after?_eq_some_iff.2 rfl] at hv
      cases hv
    | none =>
      refine .positional ?_
      rintro ⟨rest, rfl⟩
      rw [Text.after?_eq_some_iff.2 rfl] at ho
      cases ho

theorem Means.isOption {meaning : Argument} (h : Means text meaning)
    (hp : meaning ≠ .positional) : IsOption text := by
  cases h with
  | nulls => decide
  | json => decide
  | detail h => exact h.isOption
  | invalid h => exact h.1
  | positional => exact absurd rfl hp

/-- A text means one thing. -/
theorem Means.ofText_eq {meaning : Argument} (h : Means text meaning) : ofText text = meaning := by
  have hm := means_ofText text
  cases h with
  | nulls => rfl
  | json => rfl
  | detail h => exact ofText_of_setsDetail h
  | positional h => exact Classical.byContradiction fun hp => h (hm.isOption hp)
  | invalid h =>
    obtain ⟨ho, hn, hj, hd⟩ := h
    generalize ofText text = meaning at hm
    cases hm with
    | nulls => exact absurd rfl hn
    | json => exact absurd rfl hj
    | detail h => exact absurd h (hd _)
    | invalid => rfl
    | positional h => exact absurd ho h

theorem ofText_eq_iff {meaning : Argument} : ofText text = meaning ↔ Means text meaning :=
  ⟨fun h => h ▸ means_ofText text, Means.ofText_eq⟩

theorem means_nulls_iff : Means text .nulls ↔ text = "--none-valid".toList := by
  refine ⟨fun h => ?_, fun h => h ▸ .nulls⟩
  cases h
  rfl

theorem means_json_iff : Means text .json ↔ text = "--json".toList := by
  refine ⟨fun h => ?_, fun h => h ▸ .json⟩
  cases h
  rfl

theorem means_detail_iff : Means text (.detail n) ↔ SetsDetail text n := by
  refine ⟨fun h => ?_, .detail⟩
  cases h with
  | detail h => exact h

theorem means_invalid_iff : Means text .invalid ↔ Rejected text := by
  refine ⟨fun h => ?_, .invalid⟩
  cases h with
  | invalid h => exact h

end Argument

instance : DecidablePred Rejected := fun argument =>
  match h : Argument.ofText argument with
  | .invalid => isTrue (Argument.means_invalid_iff.1 (Argument.ofText_eq_iff.1 h))
  | .nulls | .json | .detail _ | .positional => isFalse fun hr => by
    rw [(Argument.Means.invalid hr).ofText_eq] at h
    cases h

/-- Of these only the one with a single dash is not rejected. -/
example :
    (["--", "--json=x", "--verbosity=", "--verbosity=+", "--verbosity=-5", "--verbosity=256",
      "-5"].map String.toList).filter (¬ Rejected ·) = ["-5".toList] := by
  decide

/-- The first of the arguments that are rejected. -/
def FirstRejected (arguments : List Text) (bad : Text) : Prop :=
  ∃ before after, arguments = before ++ bad :: after ∧ Rejected bad ∧
    ∀ argument ∈ before, ¬ Rejected argument

/-- The level that the last argument sets that sets one, or else `usual`. -/
def LastDetail (usual : Nat) (arguments : List Text) (n : Nat) : Prop :=
  (∃ before argument after, arguments = before ++ argument :: after ∧ SetsDetail argument n ∧
    ∀ later ∈ after, ∀ m, ¬ SetsDetail later m) ∨
  (n = usual ∧ ∀ argument ∈ arguments, ∀ m, ¬ SetsDetail argument m)

theorem accepted_or_firstRejected (arguments : List Text) :
    (∀ argument ∈ arguments, ¬ Rejected argument) ∨ ∃ bad, FirstRejected arguments bad := by
  induction arguments with
  | nil => exact .inl (List.forall_mem_nil _)
  | cons argument more ih =>
    by_cases hr : Rejected argument
    · exact .inr ⟨argument, [], more, rfl, hr, List.forall_mem_nil _⟩
    · rcases ih with ih | ⟨bad, before, after, rfl, hb, ha⟩
      · exact .inl (List.forall_mem_cons.2 ⟨hr, ih⟩)
      · exact .inr ⟨bad, argument :: before, after, rfl, hb, List.forall_mem_cons.2 ⟨hr, ha⟩⟩

namespace Options

open Argument

/-- The options after one more argument that is not rejected. -/
def take (options : Options) (argument : Text) : Options :=
  match Argument.ofText argument with
  | .nulls => options.setNulls
  | .json => { options with json := true }
  | .detail n => options.setDetail n
  | _ => options

/-- The arguments that are not options. -/
def positional (arguments : List Text) : List Text := arguments.filter (¬ IsOption ·)

variable {options : Options} {before arguments : List Text}

theorem readFrom_of_rejected {bad : Text} (h : Rejected bad) (options : Options)
    (before after : List Text) : options.readFrom before (bad :: after) = .error bad := by
  rw [readFrom, (Means.invalid h).ofText_eq]

theorem readFrom_of_not_rejected (h : ¬ Rejected argument) (options : Options)
    (before after : List Text) :
    options.readFrom before (argument :: after) =
      (options.take argument).readFrom (before ++ positional [argument]) after := by
  rw [readFrom, take, positional]
  cases ha : ofText argument with
  | positional =>
    cases ofText_eq_iff.1 ha with
    | positional hp => simp [hp]
  | invalid => exact absurd (means_invalid_iff.1 (ofText_eq_iff.1 ha)) h
  | _ => simp [(ofText_eq_iff.1 ha).isOption (by simp)]

/-- Arguments none of which is rejected are taken one after the other. -/
theorem readFrom_append (h : ∀ argument ∈ arguments, ¬ Rejected argument) (options : Options)
    (before after : List Text) :
    options.readFrom before (arguments ++ after) =
      (arguments.foldl take options).readFrom (before ++ positional arguments) after := by
  induction arguments generalizing options before with
  | nil => simp [positional]
  | cons argument more ih =>
    obtain ⟨ha, hm⟩ := List.forall_mem_cons.1 h
    rw [List.cons_append, readFrom_of_not_rejected ha, ih hm, List.append_assoc, positional,
      positional, ← List.filter_append]
    rfl

theorem read_of_accepted (h : ∀ argument ∈ arguments, ¬ Rejected argument) :
    read arguments = .ok (arguments.foldl take {}, positional arguments) := by
  have hr := readFrom_append h {} [] []
  rwa [List.append_nil] at hr

theorem read_of_firstRejected {bad : Text} (h : FirstRejected arguments bad) :
    read arguments = .error bad := by
  obtain ⟨before, after, rfl, hb, ha⟩ := h
  rw [read, readFrom_append ha, readFrom_of_rejected hb]

theorem read_eq_error_iff {bad : Text} :
    read arguments = .error bad ↔ FirstRejected arguments bad := by
  refine ⟨fun h => ?_, read_of_firstRejected⟩
  rcases accepted_or_firstRejected arguments with ha | ⟨other, ho⟩
  · rw [read_of_accepted ha] at h
    cases h
  · rw [read_of_firstRejected ho] at h
    cases h
    exact ho

theorem nulls_take (options : Options) (argument : Text) :
    (options.take argument).policy.nulls = true ↔
      options.policy.nulls = true ∨ argument = "--none-valid".toList := by
  rw [← means_nulls_iff, ← ofText_eq_iff, take]
  cases ofText argument <;> simp [setNulls, setDetail]

theorem json_take (options : Options) (argument : Text) :
    (options.take argument).json = true ↔ options.json = true ∨ argument = "--json".toList := by
  rw [← means_json_iff, ← ofText_eq_iff, take]
  cases ofText argument <;> simp [setNulls, setDetail]

theorem complains_take (options : Options) (argument : Text) :
    (options.take argument).policy.complains = options.policy.complains := by
  rw [take]
  cases ofText argument <;> rfl

theorem detail_take_of_sets (h : SetsDetail argument n) (options : Options) :
    (options.take argument).policy.detail = n := by
  rw [take, ofText_of_setsDetail h]
  rfl

theorem detail_take_of_not_sets (h : ∀ m, ¬ SetsDetail argument m) (options : Options) :
    (options.take argument).policy.detail = options.policy.detail := by
  rw [take]
  cases ha : ofText argument with
  | detail m => exact absurd (means_detail_iff.1 (ofText_eq_iff.1 ha)) (h m)
  | _ => rfl

/-- What an option turns on is on if it is anywhere among the arguments. -/
theorem flag_foldl_take (flag : Options → Bool) {word : Text}
    (h : ∀ options argument, flag (take options argument) = true ↔
      flag options = true ∨ argument = word) (options : Options) (arguments : List Text) :
    flag (arguments.foldl take options) = true ↔ flag options = true ∨ word ∈ arguments := by
  induction arguments generalizing options with
  | nil => simp
  | cons argument more ih =>
    rw [List.foldl_cons, ih, h, List.mem_cons, or_assoc, eq_comm (a := argument)]

theorem complains_foldl_take (options : Options) (arguments : List Text) :
    (arguments.foldl take options).policy.complains = options.policy.complains := by
  induction arguments generalizing options with
  | nil => rfl
  | cons argument more ih => rw [List.foldl_cons, ih, complains_take]

theorem lastDetail_foldl_take (options : Options) (arguments : List Text) :
    LastDetail options.policy.detail arguments (arguments.foldl take options).policy.detail := by
  induction arguments generalizing options with
  | nil => exact .inr ⟨rfl, List.forall_mem_nil _⟩
  | cons argument more ih =>
    rw [List.foldl_cons]
    rcases ih (options.take argument) with ⟨before, last, after, rfl, hs, hn⟩ | ⟨he, hn⟩
    · exact .inl ⟨argument :: before, last, after, rfl, hs, hn⟩
    · rw [he]
      by_cases hs : ∃ m, SetsDetail argument m
      · obtain ⟨m, hs⟩ := hs
        rw [detail_take_of_sets hs]
        exact .inl ⟨[], argument, more, rfl, hs, hn⟩
      · have hs := not_exists.1 hs
        rw [detail_take_of_not_sets hs]
        exact .inr ⟨rfl, List.forall_mem_cons.2 ⟨hs, hn⟩⟩

/-- Options and other arguments can be read apart from each other. -/
theorem readFrom_eq_map (options : Options) (before arguments : List Text) :
    options.readFrom before arguments =
      (options.readFrom [] (arguments.filter (IsOption ·))).map fun result =>
        (result.1, before ++ positional arguments) := by
  induction arguments generalizing options before with
  | nil => simp [readFrom, positional, Except.map]
  | cons argument more ih =>
    by_cases hr : Rejected argument
    · rw [List.filter_cons_of_pos (by simpa using hr.1), readFrom_of_rejected hr,
        readFrom_of_rejected hr]
      rfl
    · rw [readFrom_of_not_rejected hr, ih, List.append_assoc, positional, positional,
        ← List.filter_append]
      by_cases ho : IsOption argument
      · have hp : positional [argument] = [] := by simp [positional, ho]
        rw [List.filter_cons_of_pos (by simpa using ho), readFrom_of_not_rejected hr, hp]
        rfl
      · rw [List.filter_cons_of_neg (by simpa using ho), take, (Means.positional ho).ofText_eq]
        rfl

/-- What the options are that the arguments make. -/
structure Settled (arguments : List Text) (options : Options) : Prop where
  nulls : options.policy.nulls = true ↔ "--none-valid".toList ∈ arguments
  json : options.json = true ↔ "--json".toList ∈ arguments
  detail : LastDetail 2 arguments options.policy.detail
  complains : options.policy.complains = false

theorem settled_foldl_take (arguments : List Text) :
    Settled arguments (arguments.foldl take {}) where
  nulls := by simpa using flag_foldl_take (·.policy.nulls) nulls_take {} arguments
  json := by simpa using flag_foldl_take (·.json) json_take {} arguments
  detail := lastDetail_foldl_take {} arguments
  complains := complains_foldl_take {} arguments

/-- Reading fails just when an option is rejected, and with the first such one. Otherwise each option
sets what it sets and the other arguments are left in their order, so that how the two are mixed
does not matter. -/
theorem read_in_any_order (arguments : List Text) :
    ((∃ bad, read arguments = .error bad) ↔ ∃ argument ∈ arguments, Rejected argument) ∧
    (∀ bad, read arguments = .error bad ↔ FirstRejected arguments bad) ∧
    ((∀ argument ∈ arguments, ¬ Rejected argument) → ∃ options,
      read arguments = .ok (options, arguments.filter (¬ IsOption ·)) ∧
        Settled arguments options) ∧
    ∀ others : List Text,
      arguments.filter (IsOption ·) = others.filter (IsOption ·) →
      arguments.filter (¬ IsOption ·) = others.filter (¬ IsOption ·) →
      read arguments = read others := by
  refine ⟨⟨?_, ?_⟩, fun bad => read_eq_error_iff, fun h => ?_, fun others ho hp => ?_⟩
  · rintro ⟨bad, h⟩
    obtain ⟨before, after, rfl, hb, -⟩ := read_eq_error_iff.1 h
    exact ⟨bad, List.mem_append_right _ (List.mem_cons_self ..), hb⟩
  · rintro ⟨argument, hm, hr⟩
    rcases accepted_or_firstRejected arguments with ha | ⟨bad, hb⟩
    · exact absurd hr (ha argument hm)
    · exact ⟨bad, read_of_firstRejected hb⟩
  · exact ⟨arguments.foldl take {}, read_of_accepted h, settled_foldl_take arguments⟩
  · rw [read, read, readFrom_eq_map, ho, positional, hp, readFrom_eq_map _ _ others, positional]

theorem read_in_any_order_of_mixed :
    let arguments := ["[int]", "--verbosity=0", "-5", "--none-valid", "--verbosity=+07"].map
      String.toList
    let others := ["--verbosity=0", "--none-valid", "[int]", "--verbosity=+07", "-5"].map
      String.toList
    (∀ argument ∈ arguments, ¬ Rejected argument) ∧ read arguments = read others ∧
      ∃ options, read arguments = .ok (options, ["[int]".toList, "-5".toList]) ∧
        Settled arguments options := by
  intro arguments others
  have ha : ∀ argument ∈ arguments, ¬ Rejected argument := by decide
  obtain ⟨-, -, hs, ho⟩ := read_in_any_order arguments
  exact ⟨ha, ho others (by decide) (by decide), hs ha⟩

end Options

end DocTypes.Command
