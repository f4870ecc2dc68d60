import ModAtlas.Workspace.IdentifierIndex
import ModAtlas.Workspace.MemberStore
import ModAtlas.Workspace.Localization

/-!
# Atlas of a workspace

All that is known about a workspace: the files of every identifier, the members of every
category and the texts of every language.
-/

namespace ModAtlas.Workspace
open ModAtlas.Reference

/-- What is known about a workspace. -/
structure Atlas where
  index : IdentifierIndex
  members : MemberStore
  localization : Localization
deriving Inhabited

namespace Atlas

/-- Nothing is known. -/
def empty : Atlas := ⟨.empty, .empty, .empty⟩

/-- How much is known: the members of each category, the identifiers, and all members. -/
def counts (a : Atlas) : List (String × Nat) :=
  Category.all.map (fun c => (c.name, (a.members.members c).length)) ++
    [("identifiers", a.index.size), ("cached_total", a.members.sizeTotal)]

end Atlas
end ModAtlas.Workspace
