import DocTypes.Proofs.Distinct
import DocTypes.Proofs.Outline.Findings
import DocTypes.Proofs.Outline.Form
import DocTypes.Proofs.Outline.Names
import DocTypes.Proofs.Outline.Walk
import DocTypes.Resolver
import Mathlib.Data.List.Induction

set_option autoImplicit false

/-!
# What a resolver is asked

Compiling asks for the names that stand in the text before its first fault, from left to right and
as often as they occur, unless the catalog has them. Over a sequence of texts the names that denote
nothing gather, each where it first came up. With a steady resolver a text comes to the same
whatever was compiled before it.
-/

namespace DocTypes

theorem addNames_append (seen names more : List Text) :
    addNames seen (names ++ more) = addNames (addNames seen names) more := List.foldl_append

theorem prefix_addNames (seen names : List Text) : seen <+: addNames seen names := by
  apply List.foldlRecOn names _ (List.prefix_refl seen)
  intro later hl name hn
  split
  · exact hl
  · exact hl.trans (List.prefix_append ..)

theorem addNames_nil (names : List Text) : addNames [] names = names.eraseDups := by
  induction names using List.reverseRecOn with
  | nil => rfl
  | append_singleton names last ih =>
    rw [addNames_append, ih, eraseDups_concat]
    have hm : last ∈ names.eraseDups ↔ names.any (· == last) = true := by
      rw [List.mem_eraseDups, List.any_beq']
      exact List.contains_iff_mem.symm
    change (if last ∈ names.eraseDups then _ else _) = _
    simp only [hm]

namespace Scope

variable {scope : Scope} {start : Nat} {text : Text} {p : Pattern}

theorem names_of_patternAt? (h : scope.patternAt? start text = .ok p) :
    (Outline.read text).names = p.names := by
  rw [Outline.names, leaves_of_patternAt? h, List.takeWhile_eq_self_iff.2, List.filterMap_map]
  · exact List.filterMap_some
  · intro leaf hl
    obtain ⟨name, -, rfl⟩ := List.mem_map.1 hl
    rfl

theorem compileAt_findings (scope : Scope) (start : Nat) (text : Text) :
    (scope.compileAt start text).toFindings = (Outline.read text).names.foldl
      (fun found name => (scope.bindNext start name found).2) {} :=
  Outline.compile_snd (scope.bindNext start) (Outline.read text) {}

/-- A list that takes up some names as they are bound takes up those of all names bound. -/
theorem log_foldl {log : Findings → List Text} {logs : Text → Bool}
    (h : ∀ (name : Text) (found : Findings), log (scope.bindNext start name found).2 =
      if logs name then log found ++ [name] else log found)
    (found : Findings) (names : List Text) :
    log (names.foldl (fun found name => (scope.bindNext start name found).2) found) =
      log found ++ names.filter logs := by
  induction names generalizing found with
  | nil => exact (List.append_nil _).symm
  | cons name more ih =>
    rw [List.foldl_cons, ih, h, List.filter_cons]
    split
    · exact List.append_assoc ..
    · rfl

/-- The resolver is asked for the names before the first fault that the catalog lacks. -/
theorem asked_compileAt (scope : Scope) (start : Nat) (text : Text) :
    (scope.compileAt start text).asked = (Outline.read text).names.filter scope.asks := by
  rw [compileAt_findings]
  exact log_foldl (fun _ _ => rfl) {} _

theorem filter_asks (scope : Scope) (names : List Text) : names.filter scope.asks =
    if scope.answer?.isSome then names.filter fun name => !scope.catalog.contains name else [] := by
  unfold asks
  cases scope.answer? with
  | none => exact List.filter_false names
  | some answer => rfl

theorem leavesUnresolved_of_steady (h : scope.Steady) (m n : Nat) :
    scope.leavesUnresolved m = scope.leavesUnresolved n := by
  funext name
  rw [leavesUnresolved, leavesUnresolved, outside?_of_steady h m n]

/-- The names before the first fault of a text that denote nothing, with repeats. -/
def unboundIn (scope : Scope) (text : Text) : List Text :=
  (Outline.read text).names.filter (scope.leavesUnresolved 0)

theorem unresolved_compileAt_of_steady (h : scope.Steady) (start : Nat) (text : Text) :
    (scope.compileAt start text).unresolved = scope.unboundIn text := by
  rw [compileAt_findings]
  refine log_foldl (fun name found => ?_) {} _
  rw [bindNext, note, leavesUnresolved_of_steady h _ 0]

/-- The names in these texts that denote nothing, each once and where it first comes up. -/
def gathered (scope : Scope) (texts : List Text) : List Text :=
  (texts.flatMap scope.unboundIn).eraseDups

theorem nodup_gathered (scope : Scope) (texts : List Text) : (scope.gathered texts).Nodup := by
  rw [gathered, ← addNames_nil]
  exact nodup_addNames List.nodup_nil

theorem gathered_concat (scope : Scope) (earlier : List Text) (text : Text) :
    scope.gathered (earlier ++ [text]) =
      addNames (scope.gathered earlier) (scope.unboundIn text) := by
  rw [gathered, gathered, List.flatMap_append, List.flatMap_singleton, ← addNames_nil,
    ← addNames_nil, addNames_append]

/-- What a text comes to after these earlier texts, when `seen` are the names that denoted nothing
so far. -/
structure Accounts (scope : Scope) (earlier seen : List Text) (text : Text)
    (outcome : Compilation × List Text) : Prop where
  fresh : outcome.1.result = scope.pattern? text
  asked : ∀ p : Pattern, outcome.1.result = .ok p → outcome.1.asked =
    if scope.answer?.isSome then p.names.filter fun name => !scope.catalog.contains name else []
  mem_iff : ∀ p : Pattern, outcome.1.result = .ok p →
    ∀ name : Text, name ∈ outcome.2 ↔ name ∈ seen ∨ name ∈ p.unresolvedNames
  extended : seen <+: outcome.2
  nodup : outcome.2.Nodup
  gathered : outcome.2 = scope.gathered (earlier ++ [text])

/-- What texts come to one after the other, each behind the earlier ones and with the names that
those have left behind. -/
inductive AccountsEach (scope : Scope) :
    List Text → List Text → List Text → List (Compilation × List Text) → Prop
  | nil (earlier seen : List Text) : AccountsEach scope earlier seen [] []
  | cons {earlier seen : List Text} {text : Text} {outcome : Compilation × List Text}
      {more : List Text} {outcomes : List (Compilation × List Text)} :
      scope.Accounts earlier seen text outcome →
        AccountsEach scope (earlier ++ [text]) outcome.2 more outcomes →
          AccountsEach scope earlier seen (text :: more) (outcome :: outcomes)

theorem accounts_compileAt (h : scope.Steady) (start : Nat) (earlier : List Text) (text : Text) :
    let compilation := scope.compileAt start text
    scope.Accounts earlier (scope.gathered earlier) text
      (compilation, addNames (scope.gathered earlier) compilation.unresolved) where
  fresh := h.patternAt?_eq start 0 text
  asked p hp := by rw [asked_compileAt, names_of_patternAt? hp, filter_asks]
  mem_iff p hp name := by rw [mem_addNames, unresolved_compileAt scope hp]
  extended := prefix_addNames ..
  nodup := nodup_addNames (scope.nodup_gathered earlier)
  gathered := by rw [gathered_concat, unresolved_compileAt_of_steady h]

theorem accountsEach_compileEachAt (h : scope.Steady) (start : Nat) (earlier texts : List Text) :
    scope.AccountsEach earlier (scope.gathered earlier) texts
      (scope.compileEachAt start (scope.gathered earlier) texts) := by
  induction texts generalizing start earlier with
  | nil => exact .nil earlier _
  | cons text more ih =>
    have ha := accounts_compileAt h start earlier text
    -- What is seen next is again what the texts so far have gathered.
    have hg : addNames (scope.gathered earlier) (scope.compileAt start text).unresolved =
        scope.gathered (earlier ++ [text]) := ha.gathered
    refine .cons ha ?_
    simp only [hg]
    exact ih _ _

/-- With a steady resolver every text of a sequence has the outcome it would have alone, it asks
for exactly the names of its pattern that the catalog lacks, and the names that denote nothing are
gathered in the order in which they first come up. -/
theorem accountsEach_compileEach (h : scope.Steady) (texts : List Text) :
    scope.AccountsEach [] [] texts (scope.compileEach [] texts) :=
  accountsEach_compileEachAt h 0 [] texts

theorem accountsEach_compileEach_of_fault :
    let scope : Scope :=
      ⟨.withBuiltins, some (Resolver.inTable? [("Foo".toList, .kind .int)])⟩
    let texts := ["(Bar, {Foo: None}, Foo)".toList, "Qux | [Bar] x | Foo".toList, "Foo".toList]
    scope.Steady ∧ (scope.compileEach [] texts).map (fun outcome => (outcome.1.asked, outcome.2)) =
        [(["Bar".toList, "Foo".toList, "Foo".toList], ["Bar".toList]),
          (["Qux".toList], ["Bar".toList, "Qux".toList]),
          (["Foo".toList], ["Bar".toList, "Qux".toList])] ∧
      scope.AccountsEach [] [] texts (scope.compileEach [] texts) := by
  intro scope texts
  have hs : scope.Steady := by
    rintro answer ⟨⟩ m n name
    rfl
  have hf : Outline.read "Foo".toList = .name "Foo".toList := Outline.read_of_form (.name _) rfl
  have hb : Outline.read "Bar".toList = .name "Bar".toList := Outline.read_of_form (.name _) rfl
  have hq : Outline.read "Qux".toList = .name "Qux".toList := Outline.read_of_form (.name _) rfl
  have hn : Outline.read "None".toList = .name "None".toList := Outline.read_of_form (.name _) rfl
  have hm : Outline.read "{Foo: None}".toList =
      .map (.name "Foo".toList) (.name "None".toList) := by
    rw [Outline.read_of_form (.map "Foo".toList "None".toList) rfl]
    simp only [Outline.build, hf, hn]
  have hx : Outline.read "[Bar] x".toList = .fault (.trailing "[Bar] x".toList) :=
    Outline.read_of_form (.fault _) rfl
  have ht : Outline.read "(Bar, {Foo: None}, Foo)".toList = .tuple [.name "Bar".toList,
      .map (.name "Foo".toList) (.name "None".toList), .name "Foo".toList] := by
    rw [Outline.read_of_form (.tuple ["Bar".toList, "{Foo: None}".toList, "Foo".toList]) rfl]
    simp only [Outline.build, List.map, hb, hm, hf]
  have hu : Outline.read "Qux | [Bar] x | Foo".toList = .union [.name "Qux".toList,
      .fault (.trailing "[Bar] x".toList), .name "Foo".toList] := by
    rw [Outline.read_of_form (.union ["Qux".toList, "[Bar] x".toList, "Foo".toList]) rfl]
    simp only [Outline.build, List.map, hq, hx, hf]
  refine ⟨hs, ?_, accountsEach_compileEach hs texts⟩
  simp only [compileEach, texts, compileEachAt, compileAt, ht, hu, hf]
  rfl

end Scope

end DocTypes
