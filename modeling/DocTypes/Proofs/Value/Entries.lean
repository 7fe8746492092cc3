import DocTypes.Proofs.Distinct
import DocTypes.Proofs.Value.Equivalence
import DocTypes.Value.Container

set_option autoImplicit false

/-!
# The last write wins

A dict that is made from entries has for each key the value that was written last, at the place of
the key that was written first and spelled as it was there. A key with a NaN in it is equal to no
key, not even to itself: its entries are all kept, and no lookup finds them.
-/

namespace DocTypes.Value

variable {entries kept : List (Value × Value)} {key : Value}

/-- The entries of the dict that is made from these. -/
def keptEntries (entries : List (Value × Value)) : List (Value × Value) :=
  entries.foldl (fun kept entry => putEntry entry.1 entry.2 kept) []

theorem ofEntries_eq (entries : List (Value × Value)) :
    ofEntries entries = dict (keptEntries entries) := rfl

theorem keptEntries_concat (entries : List (Value × Value)) (entry : Value × Value) :
    keptEntries (entries ++ [entry]) = putEntry entry.1 entry.2 (keptEntries entries) :=
  List.foldl_append

/-- The value of the last entry for a key. -/
def lastAt? (entries : List (Value × Value)) (key : Value) : Option Value :=
  (entries.filter (·.1 == key)).getLast?.map Prod.snd

theorem lastAt?_concat (entries : List (Value × Value)) (entry : Value × Value) (key : Value) :
    lastAt? (entries ++ [entry]) key =
      if entry.1 == key then some entry.2 else lastAt? entries key := by
  rw [lastAt?, List.filter_append]
  cases h : entry.1 == key <;> simp [h, lastAt?]

theorem isSome_lastAt? (entries : List (Value × Value)) (key : Value) :
    (lastAt? entries key).isSome = entries.any (·.1 == key) := by
  induction entries using List.reverseRecOn with
  | nil => rfl
  | append_singleton entries entry ih =>
    rw [lastAt?_concat, List.any_append, ← ih]
    cases h : entry.1 == key <;> simp [h]

theorem entryAt?_cons (k v : Value) (more : List (Value × Value)) (key : Value) :
    entryAt? ((k, v) :: more) key = if k == key then some v else entryAt? more key := by
  rw [entryAt?, List.find?_cons]
  cases k == key <;> rfl

theorem isSome_entryAt? (entries : List (Value × Value)) (key : Value) :
    (entryAt? entries key).isSome = entries.any (·.1 == key) := by
  rw [entryAt?, Option.isSome_map, List.isSome_find?]

/-- Writing under a key changes what is found under equal keys and nothing else. -/
theorem entryAt?_putEntry (key value other : Value) (entries : List (Value × Value)) :
    entryAt? (putEntry key value entries) other =
      if key == other then some value else entryAt? entries other := by
  induction entries with
  | nil => exact entryAt?_cons key value [] other
  | cons entry more ih =>
    obtain ⟨k, v⟩ := entry
    rw [putEntry, entryAt?_cons]
    cases hk : k == key with
    | true =>
      rw [if_pos rfl, entryAt?_cons, BEq.congr_left hk]
      split <;> rfl
    | false =>
      rw [if_neg Bool.false_ne_true, entryAt?_cons, ih]
      cases ho : k == other with
      | true =>
        -- Were `key` equal to `other` too, this would be the entry that is written to.
        have hn : (key == other) = false := by rw [BEq.comm, ← BEq.congr_left ho, hk]
        rw [hn]
        rfl
      | false => rfl

theorem entryAt?_keptEntries (entries : List (Value × Value)) (key : Value) :
    entryAt? (keptEntries entries) key = lastAt? entries key := by
  induction entries using List.reverseRecOn with
  | nil => rfl
  | append_singleton entries entry ih =>
    rw [keptEntries_concat, entryAt?_putEntry, lastAt?_concat, ih]

theorem map_fst_putEntry (key value : Value) (entries : List (Value × Value)) :
    (putEntry key value entries).map Prod.fst =
      if entries.any (·.1 == key) then entries.map Prod.fst
      else entries.map Prod.fst ++ [key] := by
  induction entries with
  | nil => rfl
  | cons entry more ih =>
    obtain ⟨k, v⟩ := entry
    rw [putEntry, List.any_cons]
    cases h : k == key with
    | true => rfl
    | false =>
      rw [if_neg Bool.false_ne_true, List.map_cons, ih, Bool.false_or]
      split <;> rfl

theorem map_fst_keptEntries (entries : List (Value × Value)) :
    (keptEntries entries).map Prod.fst = firsts (entries.map Prod.fst) := by
  induction entries using List.reverseRecOn with
  | nil => rfl
  | append_singleton entries entry ih =>
    rw [keptEntries_concat, map_fst_putEntry, ← isSome_entryAt?, entryAt?_keptEntries,
      isSome_lastAt?, List.map_append, List.map_singleton, firsts_concat, List.any_map, ih]
    rfl

/-- No entry has a key that is equal to that of a later one. -/
def KeysApart (entries : List (Value × Value)) : Prop :=
  entries.Pairwise fun entry later => (entry.1 == later.1) = false

theorem keysApart_keptEntries (entries : List (Value × Value)) :
    KeysApart (keptEntries entries) := by
  have h := pairwise_firsts (entries.map Prod.fst)
  rw [← map_fst_keptEntries] at h
  exact List.pairwise_map.1 h

theorem putEntry_of_any_eq_false (h : entries.any (·.1 == key) = false) (value : Value) :
    putEntry key value entries = entries ++ [(key, value)] := by
  induction entries with
  | nil => rfl
  | cons entry more ih =>
    rw [List.any_cons, Bool.or_eq_false_iff] at h
    rw [putEntry, h.1, ih h.2]
    rfl

theorem KeysApart.keptEntries_eq (h : KeysApart entries) : keptEntries entries = entries := by
  induction entries using List.reverseRecOn with
  | nil => rfl
  | append_singleton entries entry ih =>
    obtain ⟨he, -, hl⟩ := List.pairwise_append.1 h
    rw [keptEntries_concat, ih he]
    refine putEntry_of_any_eq_false (List.any_eq_false.2 fun earlier hm => ?_) entry.2
    rw [hl earlier hm entry (List.mem_singleton_self entry)]
    exact Bool.false_ne_true

/-- An entry whose key has a NaN in it is neither written to nor left out. -/
theorem filter_hasNaN_putEntry (key value : Value) (entries : List (Value × Value)) :
    (putEntry key value entries).filter (·.1.hasNaN) =
      entries.filter (·.1.hasNaN) ++ [(key, value)].filter (·.1.hasNaN) := by
  induction entries with
  | nil => rfl
  | cons entry more ih =>
    obtain ⟨k, v⟩ := entry
    rw [putEntry]
    cases hk : k == key with
    | true =>
      have hn := hasNaN_eq_false_of_beq hk
      have hn' := hasNaN_eq_false_of_beq (BEq.symm hk)
      simp [hn, hn']
    | false =>
      rw [if_neg Bool.false_ne_true, List.filter_cons, List.filter_cons, ih]
      split <;> rfl

theorem filter_hasNaN_keptEntries (entries : List (Value × Value)) :
    (keptEntries entries).filter (·.1.hasNaN) = entries.filter (·.1.hasNaN) := by
  induction entries using List.reverseRecOn with
  | nil => rfl
  | append_singleton entries entry ih =>
    rw [keptEntries_concat, filter_hasNaN_putEntry, ih, List.filter_append]

/-- What a dict holds that is made from entries. -/
structure HoldsLast (entries kept : List (Value × Value)) : Prop where
  get? (key : Value) : (dict kept).get? key = lastAt? entries key
  field? (name : Text) : (dict kept).field? name = (dict kept).get? (str name)
  keysApart : KeysApart kept
  keys : kept.map Prod.fst = firsts (entries.map Prod.fst)
  withNaN : kept.filter (·.1.hasNaN) = entries.filter (·.1.hasNaN)
  again : ofEntries kept = dict kept

/-- A dict holds for each key the value written last, under the key as first written. -/
theorem holdsLast_ofEntries (entries : List (Value × Value)) :
    ∃ kept, ofEntries entries = dict kept ∧ HoldsLast entries kept := by
  have ha := keysApart_keptEntries entries
  refine ⟨keptEntries entries, ofEntries_eq entries, ?_⟩
  exact {
    get? := entryAt?_keptEntries entries
    field? := fieldAt?_eq_entryAt? (keptEntries entries)
    keysApart := ha
    keys := map_fst_keptEntries entries
    withNaN := filter_hasNaN_keptEntries entries
    again := by rw [ofEntries_eq, ha.keptEntries_eq] }

/-- The zeros are one key, and a NaN is a key of its own each time. -/
example :
    let zero := float ⟨0⟩
    let minus := float ⟨0x8000000000000000⟩
    let nan := float ⟨0x7FF8000000000000⟩
    ofEntries [(zero, bool true), (nan, null), (minus, bool false), (nan, null)] =
      dict [(zero, bool false), (nan, null), (nan, null)] := by
  rfl

end DocTypes.Value
