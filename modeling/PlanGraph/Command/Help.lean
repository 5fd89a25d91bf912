import PlanGraph.Command.Arguments

set_option autoImplicit false

/-! # Texts of help -/

namespace PlanGraph

/-- The lines of a text, each with its end. -/
def HelpTopic.joinLines (lines : List Text) : Text := lines.flatMap (· ++ ['\n'])

/-- The text of help on a topic. -/
def HelpTopic.text : HelpTopic → Text
  | program => joinLines [
      "Compile NormCode plans into concept and inference tables",
      "",
      "Usage: normcode <COMMAND>",
      "",
      "Commands:",
      "  compile  Compile a plan into its concept and inference tables",
      "  reindex  Rewrite explicit position tags to match the indentation",
      "  help     Print this message or the help of the given subcommand(s)",
      "",
      "Options:",
      "  -h, --help     Print help",
      "  -V, --version  Print version"]
  | compile => joinLines [
      "Compile a plan into its concept and inference tables",
      "",
      "Usage: normcode compile [OPTIONS] <input>",
      "",
      "Arguments:",
      "  <input>  Path to the plan",
      "",
      "Options:",
      "      --concepts <concepts>      Concept table output (default: <stem>.concepts.json)",
      "      --inferences <inferences>  Inference table output (default: <stem>.inferences.json)",
      "      --clusters <clusters>      Also write the intermediate clusters to this path",
      "      --compact                  Write compact JSON instead of pretty-printed",
      "  -c, --config <config>          TOML file layered over the defaults and any normcode.toml beside",
      "                                 the plan",
      "  -h, --help                     Print help"]
  | reindex => joinLines [
      "Rewrite explicit position tags to match the indentation",
      "",
      "Usage: normcode reindex [OPTIONS] <path>",
      "",
      "Arguments:",
      "  <path>  Path to the plan",
      "",
      "Options:",
      "      --dry-run          Report how many lines would change without writing",
      "  -c, --config <config>  TOML file layered over the defaults and any normcode.toml beside the plan",
      "  -h, --help             Print help"]
  | help => joinLines [
      "Print this message or the help of the given subcommand(s)",
      "",
      "Usage: normcode help [COMMAND]...",
      "",
      "Arguments:",
      "  [COMMAND]...  Print help for the subcommand(s)"]

end PlanGraph
