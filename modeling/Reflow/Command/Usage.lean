import Reflow.Text.Basic

/-!
The texts that explain the command.
-/

namespace Reflow.Command

def versionLine : Text := "rewrap 0.1.0\n".toList

/-- The answer to a request for help. -/
def helpText : Text := Text.unlines ([
  "Rewrap comments in source code, prose in Markdown and plain text",
  "",
  "Usage: rewrap [OPTIONS] [FILE]...",
  "",
  "Arguments:",
  "  [FILE]...  Files, directories or glob patterns (reads stdin when omitted)",
  "",
  "Options:",
  "  -c, --column <NUM>     Target line width in columns [default: 100]",
  "      --tab-width <NUM>  Tab stop distance used when measuring lines [default: 4]",
  "      --lang <NAME>      Language of the input, overriding the file extension " ++
    "(\"text\" for plain text)",
  "  -w, --write            Rewrite files in place instead of printing to stdout",
  "  -v, --verbose          Print the path of each rewritten file",
  "      --exclude <DIRS>   Directory names to skip (comma-separated, can be repeated)",
  "      --config <FILE>    Path to configuration file (overrides auto-discovery)",
  "  -j, --jobs <NUM>       Number of parallel jobs with --write (0=auto, 1=sequential)",
  "  -D, --debug            Enable debug logging",
  "  -h, --help             Print help",
  "  -V, --version          Print version",
  ""].map String.toList)

/-- What is printed if the command has nothing to read. -/
def usageText : Text := Text.unlines ([
  "rewrap v0.1.0 - rewrap comments and prose to a target width",
  "",
  "Usage:",
  "  rewrap [OPTIONS] <FILE|DIR|GLOB>...",
  "  cat notes.txt | rewrap --lang text",
  "",
  "Examples:",
  "  rewrap main.go                  # Print main.go with rewrapped comments",
  "  rewrap -w -c 80 'src/**/*.go'   # Rewrap in place at 80 columns",
  "  rewrap -w --exclude vendor .    # Rewrap a tree, skipping vendor/",
  "",
  "Options:",
  "  -c, --column <NUM>              Target width [default: 100]",
  "      --tab-width <NUM>           Tab stop distance [default: 4]",
  "      --lang <NAME>               Language override (\"text\" for plain text)",
  "  -w, --write                     Rewrite files in place",
  "  -v, --verbose                   Print each rewritten path",
  "      --exclude <DIRS>            Directory names to skip (comma-separated)",
  "      --config <FILE>             Config file path (overrides auto-discovery)",
  "  -j, --jobs <NUM>                Parallel jobs with --write (0=auto, 1=sequential)",
  "  -D, --debug                     Enable debug logging",
  "  -h, --help                      Print help",
  "",
  "Config file auto-discovery:",
  "  Searches for rewrap.toml in parent directories",
  "  starting from the file being rewrapped up to the root directory.",
  "  Also checks rewrap.toml in the home directory.",
  "  More specific configs (closer to file) override less specific ones.",
  ""].map String.toList)

end Reflow.Command
