import Concord.Command.Arguments

/-! # What the program says about itself -/
namespace Concord.Command

def versionText : String := "concord 0.1.0\n"

def helpText : String := String.join ([
  "Check that services agree on the contracts they exchange",
  "",
  "Usage: concord [OPTIONS] [PATH]",
  "",
  "Arguments:",
  "  [PATH]  Project path to scan [default: .]",
  "",
  "Options:",
  "      --manifest <FILE>      Contract manifest (YAML); without it nothing is checked",
  "      --rule <RULE_ID>       Evaluate a single rule, e.g. CTR-dual-test",
  "      --config <CONFIG>      Run config file",
  "      --report <FORMAT>      Report format [default: terminal] [possible values: terminal, json]",
  "      --exclude-lang <LANG>  Exclude a source language from extraction (repeatable)",
  "      --jobs <N>             Extraction batch size",
  "  -v, --verbose              Print a per-rule summary",
  "  -q, --quiet                Print nothing beside the report",
  "  -h, --help                 Print help",
  "  -V, --version              Print version"].map (· ++ "\n"))

def ArgumentError.message : ArgumentError → String
  | .displayHelp => helpText
  | .displayVersion => versionText
  | .valueValidation => "error: a value is not valid\n"
  | .invalidValue => "error: a value is missing or not one of the possible values\n"
  | .unknownArgument => "error: unexpected argument found\n"
  | .argumentConflict => "error: arguments cannot be used together or more than once\n"
  | .tooManyValues => "error: unexpected value for an option that takes none\n"

end Concord.Command
