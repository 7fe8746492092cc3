import DocTypes.Catalog

set_option autoImplicit false

/-!
# Resolvers

A resolver answers for names that a catalog lacks. Being asked may make it react: note the name in a
journal, register types, or put another resolver in its place. What it answers and how it reacts may
depend on the moment, which counts the questions that resolvers were asked before.
-/

namespace DocTypes

mutual

inductive Resolver where
  | mk (answer : Nat → Text → Option TypeRef) (react : Nat → Text → List Reaction)

inductive Reaction where
  | note (name : Text)
  | register (name : Text) (type : TypeRef)
  | registerClass (c : Class)
  | install (resolver? : Option Resolver)

end

namespace Resolver

def answer : Resolver → Nat → Text → Option TypeRef
  | mk answer _ => answer

def react : Resolver → Nat → Text → List Reaction
  | mk _ react => react

/-- Answers nothing and does nothing. -/
def silent : Resolver := mk (fun _ _ => none) fun _ _ => []

/-- A table answers alike at every moment. -/
def inTable? (table : List (Text × TypeRef)) (_moment : Nat) (name : Text) : Option TypeRef :=
  (table.find? fun entry => entry.1 = name).map Prod.snd

/-- A class is registered under its own names, a kind under the name asked for. -/
def registration (name : Text) : TypeRef → Reaction
  | .ofClass c => .registerClass c
  | type => .register name type

/-- Answers from a table and notes every name. It may withdraw for a silent resolver as soon as it
is asked, and may register what it finds. -/
def ofTable (table : List (Text × TypeRef)) (registers withdraws : Bool) : Resolver :=
  mk (inTable? table) fun moment name =>
    .note name :: ((if withdraws then [.install (some silent)] else []) ++
      if registers then ((inTable? table moment name).map (registration name)).toList else [])

end Resolver

end DocTypes
