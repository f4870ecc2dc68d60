import ModAtlas.Schema.Subschema

/-!
# Scopes

The scope of a pointer is what lies below it and below the targets of the local references found
there, and so on. `scopeRoots` gives the pointers whose subtrees make up the scope. A target that
lies within a root found before is no further root, so reference cycles end. The limit of a running
program's stack is left out, as for the subschemas themselves.
-/

namespace ModAtlas.Schema
open ModAtlas.Json

/-- The roots found so far, and those whose subtrees are still to be searched, latest first. -/
structure ScopeSearch where
  roots : List String
  pending : List String
deriving Repr

/-- Takes the reference of one subschema into account. -/
def ScopeSearch.visit (s : ScopeSearch) (sub : Subschema) : ScopeSearch :=
  match Pointer.localTarget? ((Members.get? sub.members "$ref").getD .null) with
  | none => s
  | some target =>
    if s.roots.any (Pointer.within target) then s
    else ⟨s.roots ++ [target], target :: s.pending⟩

/-- Searches the pending subtrees, the latest one first, until none is left. -/
def ScopeSearch.run (schema : Value) : Nat → ScopeSearch → Except Pointer.Error (List String)
  | 0, s => .ok s.roots
  | fuel + 1, s =>
    match s.pending with
    | [] => .ok s.roots
    | root :: rest => do
      let found ← Pointer.resolve schema root
      let subs := (found.map (subschemas root)).getD []
      ScopeSearch.run schema fuel (subs.foldl ScopeSearch.visit ⟨s.roots, rest⟩)

/-- The pointers whose subtrees make up the scope of a pointer. Each root but the first is the
target of another object of the schema, so there are at most as many turns as values. -/
def scopeRoots (schema : Value) (pointer : String) : Except Pointer.Error (List String) :=
  if pointer.isEmpty then .ok [pointer]
  else ScopeSearch.run schema (schema.count + 2) ⟨[pointer], [pointer]⟩

end ModAtlas.Schema
