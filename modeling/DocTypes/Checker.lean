import DocTypes.Compilation
import DocTypes.Memo
import DocTypes.Resolver
import DocTypes.Text.Utf8
import DocTypes.Verdict

set_option autoImplicit false

/-!
# Checkers

A checker compiles expressions over a catalog it may share with others, remembers the patterns, and
reports each name that denotes nothing once in a run. A remembered pattern serves as long as
neither the catalog nor the resolver has changed since its building began.

A resolver that is asked while a pattern is built may change both. The build goes on with what it
started from, and its pattern is remembered under the stamp of that start.
-/

namespace DocTypes

/-- A pattern, and which of the checker's builds made it. -/
structure Compiled where
  build : Nat
  pattern : Pattern

structure Checker where
  policy : Policy
  resolver? : Option Resolver := none
  /-- How often the resolver was changed. -/
  epoch : Nat := 0
  memo : Memo Compiled := .empty
  reported : List Text := []
  /-- How many builds have succeeded. -/
  builds : Nat := 0

namespace Checker

def install (checker : Checker) (resolver? : Option Resolver) : Checker :=
  { checker with resolver? := resolver?, epoch := checker.epoch + 1, memo := .empty }

/-- Forgets what was reported, and the patterns, whose names are to be reported again. -/
def startRun (checker : Checker) : Checker := { checker with reported := [], memo := .empty }

def reportedNames (checker : Checker) : List Text := Text.sorted checker.reported

/-- Remembers a pattern built under a stamp and reports its unresolved names. -/
def keep (checker : Checker) (text : Text) (stamp : Stamp) (pattern : Pattern)
    (unresolved : List Text) : Checker :=
  { checker with
    memo := checker.memo.put text stamp ⟨checker.builds, pattern⟩
    reported := addNames checker.reported unresolved
    builds := checker.builds + 1 }

end Checker

/-- A checker at work on a catalog, the names that resolvers have noted, and how many questions
they have been asked. -/
structure Desk where
  catalog : Catalog
  checker : Checker
  journal : List Text := []
  moment : Nat := 0

/-- What compiling a text at a desk came to: the desk after it, the names that the resolver was
asked for, and the pattern or the fault. -/
structure Delivery where
  desk : Desk
  asked : List Text
  result : Except Fault Compiled

namespace Desk

def react (desk : Desk) : Reaction → Desk
  | .note name => { desk with journal := desk.journal ++ [name] }
  | .register name type => { desk with catalog := desk.catalog.register name type }
  | .registerClass c => { desk with catalog := desk.catalog.registerClass c }
  | .install resolver? => { desk with checker := desk.checker.install resolver? }

def ask (resolver : Resolver) (desk : Desk) (name : Text) : Desk :=
  (resolver.react desk.moment name).foldl react { desk with moment := desk.moment + 1 }

def askAll (resolver? : Option Resolver) (desk : Desk) (names : List Text) : Desk :=
  match resolver? with
  | some resolver => names.foldl (ask resolver) desk
  | none => desk

def scope (desk : Desk) : Scope := ⟨desk.catalog, desk.checker.resolver?.map Resolver.answer⟩

def stamp (desk : Desk) : Stamp := ⟨desk.catalog.revision, desk.checker.epoch⟩

/-- The compiled pattern of a text, from memory or built anew. -/
def deliver (desk : Desk) (text : Text) : Delivery :=
  match desk.checker.memo.get? text desk.stamp with
  | some compiled => ⟨desk, [], .ok compiled⟩
  | none =>
    let compilation := desk.scope.compileAt desk.moment text
    let after := desk.askAll desk.checker.resolver? compilation.asked
    match compilation.result with
    | .error f => ⟨after, compilation.asked, .error f⟩
    | .ok pattern =>
      let checker := after.checker.keep text desk.stamp pattern compilation.unresolved
      ⟨{ after with checker := checker }, compilation.asked,
        .ok ⟨after.checker.builds, pattern⟩⟩

def compile (desk : Desk) (text : Text) : Desk × Except Fault Compiled :=
  let delivery := desk.deliver text
  (delivery.desk, delivery.result)

/-- Judges a value by the pattern of a text, quoting the text. -/
def check (desk : Desk) (text : Text) (value : Value) (slot entity : Text) :
    Desk × Except Fault Verdict :=
  match desk.compile text with
  | (after, .error f) => (after, .error f)
  | (after, .ok compiled) =>
    (after, .ok (desk.checker.policy.judge (Text.trim text) compiled.pattern value slot entity))

end Desk

end DocTypes
