import ModAtlas.Files.Finder

/-!
# Identifier index

Which files an identifier stands for. An identifier is the name of a file up to its first dot, so
files of several kinds share one; their paths are kept in the order in which they were added, and
so are the identifiers.
-/

namespace ModAtlas.Workspace
open ModAtlas.Files

/-- The suffixes of the files that are indexed, in the order in which they are collected. -/
def trackedSuffixes : List String := [
  ".mod_meta_data", ".localized_text", ".uniforms", ".ability", ".action_data_source", ".buff",
  ".entity_manifest", ".exotic", ".flight_pattern", ".formation", ".npc_reward", ".player",
  ".player_color_group", ".player_icon", ".player_portrait", ".research_subject", ".unit_item",
  ".unit_skin", ".unit", ".weapon", ".named_colors", ".death_sequence", ".death_sequence_group",
  ".beam_effect", ".exhaust_trail_effect", ".particle_effect", ".shield_effect", ".font",
  ".gravity_well_props", ".button_style", ".drop_box_style", ".gui", ".label_style",
  ".list_box_style", ".reflect_box_style", ".scroll_bar_style", ".text_entry_box_style", ".brush",
  ".mesh_material", ".skybox", ".sound", ".texture_animation", ".gdpr_accept_data",
  ".playtime_message", ".welcome_message", ".start_mode"]

/-- Identifiers in the order in which they appeared, each with its paths in order. -/
structure IdentifierIndex where
  entries : List (String × List String)
deriving DecidableEq, Repr, Inhabited

namespace IdentifierIndex

/-- Nothing indexed. -/
def empty : IdentifierIndex := ⟨[]⟩

/-- Adds a path to an identifier's paths. -/
def addUnder (identifier path : String) : List (String × List String) → List (String × List String)
  | [] => [(identifier, [path])]
  | (i, paths) :: rest =>
    if i = identifier then (i, paths ++ [path]) :: rest
    else (i, paths) :: addUnder identifier path rest

/-- Adds a path under the identifier of its file. -/
def add (index : IdentifierIndex) (path : String) : IdentifierIndex :=
  ⟨addUnder (identifierOf path) path index.entries⟩

/-- The index of paths, in order. -/
def ofPaths (paths : List String) : IdentifierIndex := paths.foldl add empty

/-- The paths of an identifier. -/
def lookup (index : IdentifierIndex) (identifier : String) : Option (List String) :=
  index.entries.lookup identifier

/-- Is there a path of the identifier? -/
def has (index : IdentifierIndex) (identifier : String) : Bool :=
  (index.lookup identifier).isSome

/-- The first identifier that has a path. -/
def reverseLookup (index : IdentifierIndex) (path : String) : Option String :=
  (index.entries.find? fun e => e.2.contains path).map (·.1)

/-- The identifiers in order. -/
def identifiers (index : IdentifierIndex) : List String := index.entries.map (·.1)

/-- How many identifiers there are. -/
def size (index : IdentifierIndex) : Nat := index.entries.length

end IdentifierIndex

/-- The files below a root with one of several suffixes, suffix by suffix. -/
def collect (t : Tree) (finder : Finder) (root : String) (suffixes : List String) :
    Except FileError (List String) :=
  (suffixes.mapM (finder.find t root)).map List.flatten

end ModAtlas.Workspace
