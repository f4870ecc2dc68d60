/-!
# Usage

How the program is called, as it tells itself when asked for help.
-/

namespace ModAtlas.CommandLine

/-- How the program is called. -/
def usageLines : List String := [
  "usage: sins-lsp [-h] [--language LANGUAGE] [--schemas SCHEMAS]",
  "                [--profile PROFILE] [--version]",
  "                [workspace] [files ...]"]

/-- What the program is for, and what its arguments mean. -/
def helpLines : List String := usageLines ++ [
  "",
  "Check cross-file references in Sins of a Solar Empire II mod data.",
  "",
  "positional arguments:",
  "  workspace            Mod or game data folder (default: configured workspace)",
  "  files                Documents to validate",
  "",
  "options:",
  "  -h, --help           show this help message and exit",
  "  --language LANGUAGE  Localization language code (default: configured",
  "                       language)",
  "  --schemas SCHEMAS    Game JSON schema directory (default: configured schemas",
  "                       path)",
  "  --profile PROFILE    Settings profile",
  "  --version            show program's version number and exit"]

end ModAtlas.CommandLine
