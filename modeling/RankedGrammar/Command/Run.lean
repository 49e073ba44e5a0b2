import RankedGrammar.Command.Arguments
import RankedGrammar.Command.Report
import RankedGrammar.Command.Trace
import RankedGrammar.Rule.Language
import RankedGrammar.Walk.Visitor

/-!
The command from its arguments to what it prints. It is written for any monad that can tell the
time and read the standard input, which happens only where no input is given otherwise.
-/
namespace RankedGrammar.Command

def versionText : String := "rulewalk 0.1.0"

def helpText : String :=
  versionText ++ "

Backtracking grammar engine CLI. Parses input with the built-in demo language
and prints the parse tree, the syntax error (if any) and timings.

Usage:
  rulewalk [OPTIONS] [--] <input...>
  rulewalk [OPTIONS] --input <text>
  echo '$a = 1;' | rulewalk [OPTIONS]

Options:
  -i, --input <text>         Input text to parse. If omitted, reads remaining args
                             or stdin when no args are provided.
  -r, --rule <name>          Root rule to evaluate. Default: SCRIPT
  --max-depth <n>            Recursion limit. Default: 256
  --raw                      Keep transient wrapper nodes (skip normalization).
  --trace                    Walk the tree in post-order and print every node.
  --color                    Force ANSI color output.
  --no-color                 Disable ANSI color output.
  -h, --help                 Show this help message.
  -V, --version              Print version information.

Environment:
  RULEWALK_DEBUG=1           Print evaluation, alternation and walk traces to stderr.

Exit codes:
  0  Input is valid.
  1  Syntax error or engine failure.
  2  Invalid arguments or unknown rule.
"

/-- How the command ends: its exit code and what it prints. -/
structure Outcome where
  exitCode : UInt32
  stdout : String
  stderr : String
deriving DecidableEq

/-- Lines with a line feed after each. -/
def unlines (lines : List String) : String := String.join (lines.map (· ++ "\n"))

def failure (exitCode : UInt32) (lines : List String) : Outcome := ⟨exitCode, "", unlines lines⟩

/-- Collects a line for each node that a walk eats, the last one first. -/
def lineCollector (color : Bool) : Visitor (List String) := fun id lines w =>
  .done (walkLine color w (lines.length + 1) id :: lines)

def walkReport (color : Bool) (language : String) (t : Tree) : List String × List String :=
  match (Walk.start t language).execute (lineCollector color) [] with
  | (w, lines) =>
    (heading color "Walk (post-order)" ++ lines.reverse ++ [""],
      w.history.reverse.map fun v => eatLine (w.tree.node v.id))

variable {m : Type → Type} [Monad m]

/-- Parses a text as the settings say. -/
def runParse (clock : m Nat) (debug : Bool) (s : Settings) (text : String) : m Outcome := do
  let ctx : Context := ⟨.ofString text, Language.statements.index, s.maxDepth⟩
  if (ctx.rules.registeredName? s.rule).isNone then
    return failure 2 ["error: unknown rule '" ++ s.rule ++ "'"]
  let begun ← clock
  match ctx.rawParse s.rule with
  | .error a =>
    let told := if debug then [faultLine s.rule a.fault] else []
    return failure 1 (eventLines debug a.journal ++ told ++ ["error: " ++ a.fault.message])
  | .ok raw =>
    let matched ← clock
    let p := raw.finish ctx.source (!s.raw)
    let finished ← clock
    let timing : Timing := ⟨finished - begun, matched - begun, finished - matched⟩
    let walked :=
      if s.trace then walkReport s.color Language.statements.name p.tree else ([], [])
    let told :=
      if debug then
        [parseLine s.rule raw] ++ (p.collapsed.map collapseLine).toList ++ walked.2
      else []
    return {
      exitCode := if p.valid then 0 else 1
      stdout := unlines (parseLines s.color ctx.source s.rule p timing ++ walked.1)
      stderr := unlines (eventLines debug p.journal ++ told) }

/-- Runs the command. `color` is the choice where no option makes one. -/
def run (clock : m Nat) (stdin : m ByteArray) (color debug : Bool) (args : List String) :
    m Outcome := do
  match Request.ofArguments color args with
  | .error e => return failure 2 [e.message]
  | .ok .help => return ⟨0, unlines [helpText], ""⟩
  | .ok .version => return ⟨0, unlines [versionText], ""⟩
  | .ok (.parse s) =>
    match s.input with
    | some text => runParse clock debug s text
    | none =>
      match String.fromUTF8? (← stdin) with
      | some text => runParse clock debug s text
      | none =>
        return failure 2 ["error: failed to read stdin: stream did not contain valid UTF-8"]

end RankedGrammar.Command
