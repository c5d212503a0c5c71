import Readings.Command.Options

/-!
# How a run of the command ends

A run ends with an exit code and leaves text on the two outputs. A run that fails says
why on the error output and has code 1. Help goes to the error output too, the version
does not.
-/

namespace Readings.Command

/-- What a run leaves behind. -/
structure Outcome where
  code : Nat
  output : String
  errors : String
  deriving DecidableEq

/-- Lines of output, each with its end. -/
def unlines (lines : List String) : String :=
  String.join (lines.map (· ++ "\n"))

namespace Outcome

/-- A run that succeeds with these lines. -/
def success (lines : List String) : Outcome :=
  ⟨0, unlines lines, ""⟩

/-- A run that fails for this reason. -/
def failure (reason : String) : Outcome :=
  ⟨1, "", unlines ["error: " ++ reason]⟩

end Outcome

/-- The text of the help. -/
def helpLines : List String :=
  ["ppcli - split text lines into vocabulary words, keeping every reading",
    "",
    "USAGE:",
    "    ppcli [OPTIONS] [COMMAND] -w <WORD>... <FILE>",
    "",
    "COMMANDS:",
    "    split       List every decomposition of each line (default)",
    "    check       Exit with an error if some line cannot be decomposed",
    "    stats       Show decomposition counts",
    "",
    "OPTIONS:",
    "    -w, --word <WORD>     Add a word to the vocabulary (repeatable)",
    "        --words <LIST>    Add comma-separated words to the vocabulary",
    "    -n, --limit <N>       Stop after N decompositions per line",
    "    -v, --verbose         Debug logging (RUST_LOG overrides)",
    "    -j, --json            Output in JSON format",
    "    -h, --help            Print help information",
    "    -V, --version         Print version information",
    "",
    "Use - as FILE to read standard input.",
    "",
    "EXAMPLES:",
    "    ppcli --words a,b,ab input.txt          Show every reading of each line",
    "    ppcli -n 1 -w the -w there -w re in.txt First reading only",
    "    ppcli check --words a,b input.txt       Validate every line",
    ""]

/-- How a run ends whose arguments give no options. -/
def Stop.outcome : Stop → Outcome
  | .help => ⟨0, "", unlines helpLines⟩
  | .version => .success ["ppcli 0.1.0"]
  | .missingValue option => .failure (option ++ " needs a value")
  | .invalidLimit value => .failure ("invalid limit: " ++ value)
  | .zeroLimit => .failure "limit must be at least 1"
  | .severalFiles => .failure "multiple files specified"
  | .unknownOption argument => .failure ("unknown option: " ++ argument)
  | .noFile => .failure "no input file specified"
  | .noVocabulary => .failure "no vocabulary given (use -w or --words)"

end Readings.Command
