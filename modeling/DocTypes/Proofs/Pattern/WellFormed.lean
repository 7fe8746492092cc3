import DocTypes.Proofs.Grammar

set_option autoImplicit false

/-!
# Well-formed patterns

A pattern that a text derives has a certain shape. The text drops its blank parts, so that only a
list, a set or the whole expression can be left without a pattern of its own; it has no brackets
for grouping, so that no union is an alternative; and it reads a body with one entry as a map.
-/

namespace DocTypes

open DocTypes.Bracket

/-- A pattern without unions among the alternatives of unions, without records of a single field,
and in which nothing is left open but what a list or a set contains, or the pattern as a whole. Its
names are names and denote what `denotes` says, and its labels are labels. -/
inductive Pattern.WellFormed (denotes : Text → Pattern → Prop) : Pattern → Prop where
  | any : WellFormed denotes .any
  | name {name : Text} {p : Pattern} (hne : name ≠ []) (ht : Text.Trimmed name)
    (hs : ∀ c ∈ name, Form.isStructural c = false) (hp : denotes name p) : WellFormed denotes p
  | union {ps : List Pattern} (hl : 2 ≤ ps.length) (hu : ∀ p ∈ ps, p.isUnion = false)
    (hn : ∀ p ∈ ps, p ≠ .any) (hw : ∀ p ∈ ps, WellFormed denotes p) : WellFormed denotes (.union ps)
  | list {p : Pattern} (hw : WellFormed denotes p) : WellFormed denotes (.list p)
  | set {p : Pattern} (hw : WellFormed denotes p) : WellFormed denotes (.set p)
  | tuple {ps : List Pattern} (hn : ∀ p ∈ ps, p ≠ .any) (hw : ∀ p ∈ ps, WellFormed denotes p) :
    WellFormed denotes (.tuple ps)
  | map {k v : Pattern} (hnk : k ≠ .any) (hnv : v ≠ .any) (hk : WellFormed denotes k)
    (hv : WellFormed denotes v) : WellFormed denotes (.map k v)
  | record {fields : List (Text × Pattern)} (hl : fields.length ≠ 1)
    (hb : ∀ field ∈ fields,
      field.1 ≠ [] ∧ Text.Trimmed field.1 ∧ Nested [',', ':'] field.1)
    (hn : ∀ field ∈ fields, field.2 ≠ .any) (hw : ∀ field ∈ fields, WellFormed denotes field.2) :
    WellFormed denotes (.record fields)

namespace Grammar

variable {denotes : Text → Pattern → Prop} {text : Text} {p : Pattern}

/-- Only a blank text leaves open what it stands for. -/
theorem Derives.ne_any (hd : ∀ name, name ≠ [] → ¬ denotes name .any)
    (h : Derives denotes text p) (hn : ¬ Text.Blank text) : p ≠ .any := by
  induction h with
  | blank h => exact absurd h hn
  | padded _ _ ht _ ih => exact ih ht
  | name hne _ _ hp =>
    rintro rfl
    exact hd _ hne hp
  | _ =>
    intro h
    cases h

theorem Derives.wellFormed (hd : ∀ name, name ≠ [] → ¬ denotes name .any)
    (h : Derives denotes text p) : p.WellFormed denotes := by
  induction h with
  | blank => exact .any
  | padded _ _ _ _ ih => exact ih
  | name hne ht hs hp => exact .name hne ht hs hp
  | list _ ih => exact .list ih
  | set _ ih => exact .set ih
  | tuple items hj hi ih =>
    refine .tuple (List.forall_mem_map.2 fun item hm => ?_) (List.forall_mem_map.2 ih)
    exact (hi item hm).ne_any hd (hj.not_blank _ (List.mem_map_of_mem hm))
  | map _ he hk hv ihk ihv =>
    obtain ⟨hl, hr⟩ := List.forall_mem_cons.1 he.not_blank
    exact .map (hk.ne_any hd hl) (hv.ne_any hd (hr _ (List.mem_singleton_self _))) ihk ihv
  | record entries hl _ he hw hv ih =>
    refine .record (by rwa [List.length_map]) (List.forall_mem_map.2 fun entry hm => ?_)
      (List.forall_mem_map.2 fun entry hm => ?_) (List.forall_mem_map.2 ih)
    · obtain ⟨hne, ht, hn, -⟩ := hw entry hm
      exact ⟨hne, ht, hn⟩
    · have hn := List.forall_mem_cons.1 (he entry hm).not_blank
      exact (hv entry hm).ne_any hd (hn.2 _ (List.mem_singleton_self _))
  | union alternatives hl hj ha hu ih =>
    refine .union (by rwa [List.length_map]) (List.forall_mem_map.2 hu)
      (List.forall_mem_map.2 fun a hm => ?_) (List.forall_mem_map.2 ih)
    exact (ha a hm).ne_any hd (hj.not_blank _ (List.mem_map_of_mem hm))

end Grammar

end DocTypes
