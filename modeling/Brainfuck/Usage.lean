/-!
# Usage

The texts that explain how the tool is used. Each ends with an empty line.
-/
namespace Brainfuck.Usage

/-- Lines with their ends. -/
def unlines (lines : List String) : String := String.join (lines.map (· ++ "\n"))

def top (tool : String) : String :=
  unlines
    [ "Usage:",
      "  " ++ tool ++ " run   [OPTIONS] \"<code>\"       # Run Brainfuck code (args are concatenated)",
      "  " ++ tool ++ " run   [OPTIONS] --file <PATH>  # Run Brainfuck code loaded from file",
      "  " ++ tool ++ " check \"<code>\"                 # Validate brackets without running",
      "  " ++ tool ++ " check --file <PATH>",
      "",
      "Run \"" ++ tool ++ " <subcommand> --help\" for more info.",
      "Set BF_LOG=debug to see interpreter logs on stderr.",
      "" ]

def run (tool : String) : String :=
  unlines
    [ "Usage:",
      "  " ++ tool ++ " run [OPTIONS] \"<code>\"",
      "  " ++ tool ++ " run [OPTIONS] --file <PATH>",
      "",
      "Options:",
      "  --file,  -f <PATH>  Read Brainfuck code from PATH instead of positional \"<code>\"",
      "  --timeout <MS>      Abort after MS milliseconds of wall-clock time",
      "  --max-steps <N>     Abort after N executed instructions",
      "  --memory <CELLS>    Initial tape size (default 30000)",
      "  --bounded           Treat moving past the last cell as an error instead of growing the tape",
      "  --growable          Grow the tape on demand (the default)",
      "  --help,  -h         Show this help",
      "",
      "Notes:",
      "- Characters outside of Brainfuck's ><+-.,[] are comments and are ignored.",
      "- Input (`,`) reads a single byte from stdin; on EOF the current cell is set to 0.",
      "- Moving left of cell 0 is an error.",
      "- Flags override BF_TIMEOUT_MS, BF_MAX_STEPS, BF_MEMORY and BF_TAPE, which",
      "  override the [run] section of bf.toml.",
      "- Put `--` before code that starts with `-`.",
      "",
      "Exit status:",
      "  0 success, 1 unreadable file, 2 usage, 3 unmatched bracket,",
      "  4 tape underflow/overflow, 5 I/O failure, 6 step limit or timeout,",
      "  130 interrupted",
      "",
      "Examples:",
      "- Load Brainfuck code from a file:",
      "    " ++ tool ++ " run --file ./program.bf",
      "- Read bytes from a file as stdin (`,` will consume file input):",
      "    " ++ tool ++ " run \",[.,]\" < input.txt",
      "" ]

def check (tool : String) : String :=
  unlines
    [ "Usage:",
      "  " ++ tool ++ " check \"<code>\"",
      "  " ++ tool ++ " check --file <PATH>",
      "",
      "Options:",
      "  --file,  -f <PATH>  Read Brainfuck code from PATH instead of positional \"<code>\"",
      "  --help,  -h         Show this help",
      "",
      "Description:",
      "  Validates that every '[' has a matching ']' without running the program.",
      "" ]

end Brainfuck.Usage
