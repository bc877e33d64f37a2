import FormatterPlan.CommandLine.Request

/-! The usage text of the command line, and how a usage error ends a run. -/

namespace FormatterPlan

namespace UsageError

def usage : String := "Usage: formatter-plan <check|plan> --input <INPUT>... [OPTIONS]

Commands:
  check  analyse every attributed declaration and print diagnostics
  plan   analyse and write the resolver plan as JSON

Options:
  -i, --input <INPUT>...           documents: paths or quoted glob patterns
      --jq-expr <QUERY>            path query; each output is one document
      --roots <PATTERN>            only roots whose full names match
      --map-mode                   write every generated object as a map
      --assume-formattable <TYPE>  a type that another resolver formats
  -o, --out <OUT>                  file for the plan
  -h, --help                       print this text
"

def message : UsageError → String
  | .help => usage
  | .noCommand => usage
  | .unknownCommand => "error: unrecognized subcommand\n\n" ++ usage
  | .unknownArgument => "error: unexpected argument found\n\n" ++ usage
  | .noValue => "error: a value is required for an option but none was supplied\n\n" ++ usage
  | .strayValue => "error: unexpected value for a flag\n\n" ++ usage
  | .repeated => "error: an argument cannot be used multiple times\n\n" ++ usage
  | .noInput => "error: the following required arguments were not provided: --input\n\n" ++ usage

/-- Help that was asked for is no failure. -/
def exitCode (error : UsageError) : Nat := if error = .help then 0 else 2

end UsageError

end FormatterPlan
