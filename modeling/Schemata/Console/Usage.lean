import Schemata.Console.Arguments

/-! What is printed about the command line: how it is used, and what is wrong with one. -/
namespace Schemata.Console

def programName : String := "stratum"

def version : String := programName ++ " 0.1.0\n"

def help : String :=
  "Schema migrations from model descriptions\n\n" ++
  "Usage: " ++ programName ++ " [OPTIONS] <COMMAND>\n\n" ++
  "Commands:\n" ++
  "  makemigrations [-e ENGINE] [-n LABEL] [--dry-run] [--allow-destructive]\n" ++
  "  migrate        [-e ENGINE] [--sql-out FILE] [--dry-run]\n" ++
  "  status         [-e ENGINE] [--json]\n" ++
  "  show           [-e ENGINE] MIGRATION\n" ++
  "  check          [-e ENGINE]\n\n" ++
  "Options:\n" ++
  "  -c, --config FILE  the settings, " ++ settingsFile ++ " where none are named\n" ++
  "  -v, --verbose\n" ++
  "  -h, --help\n" ++
  "  -V, --version\n"

namespace UsageFault

def message : UsageFault → String
  | .displayHelp | .displayHelpOnMissing => help
  | .displayVersion => version
  | .missingSubcommand => "error: a command is required\n"
  | .invalidSubcommand => "error: there is no such command\n"
  | .unknownArgument => "error: there is an argument that has no meaning\n"
  | .missingArgument => "error: a required argument is missing\n"
  | .invalidValue => "error: the value of an option is missing\n"
  | .tooManyValues => "error: there is a value for an option that takes none\n"
  | .argumentConflict => "error: an option is given more than once\n"

end UsageFault

end Schemata.Console
