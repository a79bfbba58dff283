import Supercompilation.Session.Command

/-!
# The command line

Arguments are options, their values, and at most one program file. A long option may be shortened
as long as one option is meant; short flags may be joined, with a value behind the last; a value may
be joined to its option. Behind two hyphens everything is a program file. An argument that starts
with a hyphen is an option unless it looks like a negative number or has a blank in it.
-/

namespace Supercompilation

/-- The options. -/
inductive CliOption where
  /-- Show the help text. -/
  | help
  /-- Build the tree of a term. -/
  | expr
  /-- Set the greatest number of steps. -/
  | maxSteps
  /-- Set how results are shown. -/
  | format
  /-- Show the tree after every step. -/
  | trace
  /-- Say less. -/
  | quiet
  /-- Show notes. -/
  | verbose
  /-- Show the version. -/
  | version
  deriving DecidableEq, Repr

namespace CliOption

/-- All spellings, in the order in which they are compared. -/
def spellings : List (String × CliOption) :=
  [("-h", help), ("--help", help), ("-e", expr), ("--expr", expr), ("-m", maxSteps),
   ("--max-steps", maxSteps), ("-f", format), ("--format", format), ("-t", trace),
   ("--trace", trace), ("-q", quiet), ("--quiet", quiet), ("-v", verbose),
   ("--verbose", verbose), ("--version", version)]

/-- The option with a spelling. -/
def ofSpelling? (text : String) : Option CliOption := NameMap.value? spellings text

/-- The spellings of an option as messages show them. -/
def label (option : CliOption) : String :=
  Text.joined "/" ((spellings.filter fun spelling => spelling.2 = option).map Prod.fst)

/-- Whether an option has a value. -/
def takesValue : CliOption → Bool
  | expr => true
  | maxSteps => true
  | format => true
  | _ => false

end CliOption

/-- What is wrong with a command line. -/
inductive UsageError where
  /-- A shortened option could be several. -/
  | ambiguous (argument : String) (spellings : List String)
  /-- The value of an option is missing. -/
  | missingValue (option : CliOption)
  /-- A value is joined to an option that has none. -/
  | ignoredValue (option : CliOption) (value : String)
  /-- A step limit is no integer. -/
  | invalidLimit (value : String)
  /-- A step limit is negative. -/
  | negativeLimit (value : Int)
  /-- A format is not known. -/
  | invalidFormat (value : String)
  /-- Arguments are left over. -/
  | unrecognized (arguments : List String)
  deriving DecidableEq, Repr

namespace UsageError

/-- A complaint about an option. -/
def about (option : CliOption) (words : String) : String :=
  "argument " ++ option.label ++ ": " ++ words

/-- The complaint about a step limit, without the option. -/
def limitWords : UsageError → String
  | invalidLimit value => "invalid step limit: " ++ Text.quoted value
  | negativeLimit value => "step limit must be 0 or more, got " ++ toString value
  | _ => ""

/-- What is wrong, in words. -/
def message : UsageError → String
  | ambiguous argument spellings =>
    "ambiguous option: " ++ argument ++ " could match " ++ Text.joined ", " spellings
  | missingValue option => about option "expected one argument"
  | ignoredValue option value =>
    about option ("ignored explicit argument " ++ Text.quoted value)
  | invalidLimit value => about .maxSteps (invalidLimit value).limitWords
  | negativeLimit value => about .maxSteps (negativeLimit value).limitWords
  | invalidFormat value =>
    about .format ("invalid choice: " ++ Text.quoted value ++ " (choose from " ++
      Text.joined ", " (OutputFormat.all.map fun format => Text.quoted format.word) ++ ")")
  | unrecognized arguments => "unrecognized arguments: " ++ Text.joined " " arguments

end UsageError

/-- Read a step limit: an integer that is not negative. -/
def stepLimit (text : String) : Except UsageError Nat :=
  match Text.integer? text with
  | none => .error (.invalidLimit text)
  | some (.ofNat n) => .ok n
  | some (.negSucc n) => .error (.negativeLimit (.negSucc n))

/-- What a command line says. -/
structure Settings where
  /-- The program file. -/
  program : Option String := none
  /-- The term. -/
  expr : Option String := none
  /-- The greatest number of steps, zero for no limit. -/
  maxSteps : Nat := defaultLimit
  /-- How results are shown. -/
  format : OutputFormat := .tree
  /-- Show the tree after every step. -/
  trace : Bool := false
  /-- Say less. -/
  quiet : Bool := false
  /-- Show notes. -/
  verbose : Bool := false

/-- Why nothing is to be done after reading a command line. -/
inductive Halt where
  /-- The help text was asked for. -/
  | help
  /-- The version was asked for. -/
  | version
  /-- The command line is wrong. -/
  | usage (e : UsageError)

/-- What an argument looks like. -/
inductive ArgumentClass where
  /-- A value or a program file. -/
  | plain
  /-- Two hyphens. -/
  | hyphens
  /-- An option as it is spelled, with the value joined to it. -/
  | option (option : CliOption) (spelling : String) (value : Option String)
  /-- An option that is not known. -/
  | stranger
  deriving DecidableEq, Repr

namespace ArgumentClass

/-- Whether digits, or digits with a point before some of them, follow a hyphen. A line feed may
stand at the end. -/
def looksNegative (argument : String) : Bool :=
  match argument.toList with
  | '-' :: rest =>
    let cs := if rest.getLast? = some '\n' then rest.dropLast else rest
    let isDigit := fun c => (Text.digitValue c).isSome
    match cs.dropWhile isDigit with
    | [] => !cs.isEmpty
    | '.' :: behind => !behind.isEmpty && behind.all isDigit
    | _ => false
  | _ => false

/-- The characters before the first equality sign, and those behind it if there is one. -/
def atEquality (cs : List Char) : List Char × Option (List Char) :=
  match cs.dropWhile fun c => c ≠ '=' with
  | [] => (cs, none)
  | _ :: behind => (cs.takeWhile fun c => c ≠ '=', some behind)

/-- The options that an argument can mean which is no full spelling: a long one by its start, a
short one by its letter. -/
def candidates (cs : List Char) : List (String × CliOption × Option String) :=
  match cs with
  | '-' :: '-' :: _ =>
    let (start, value) := atEquality cs
    (CliOption.spellings.filter fun spelling => start.isPrefixOf spelling.1.toList).map
      fun (spelling, found) => (spelling, found, value.map String.ofList)
  | _ =>
    (CliOption.spellings.filter fun spelling => spelling.1.toList = cs.take 2).map
      fun (spelling, found) => (spelling, found, some (String.ofList (cs.drop 2)))

/-- The class of an argument before two hyphens. -/
def ofArgument (argument : String) : Except UsageError ArgumentClass :=
  let cs := argument.toList
  if cs.head? ≠ some '-' then .ok plain
  else
    match CliOption.ofSpelling? argument with
    | some found => .ok (option found argument none)
    | none =>
      if cs.length = 1 then .ok plain
      else
        let (start, value) := atEquality cs
        match CliOption.ofSpelling? (String.ofList start), value with
        | some found, some value =>
          .ok (option found (String.ofList start) (some (String.ofList value)))
        | _, _ =>
          match candidates cs with
          | [] => .ok (if looksNegative argument || cs.contains ' ' then plain else stranger)
          | [(spelling, found, value)] => .ok (option found spelling value)
          | several => .error (.ambiguous argument (several.map fun candidate => candidate.1))

/-- The arguments with their classes. -/
def ofArguments : List String → Except UsageError (List (String × ArgumentClass))
  | [] => .ok []
  | argument :: rest =>
    if argument = "--" then .ok ((argument, hyphens) :: rest.map fun a => (a, plain))
    else do
      let first ← ofArgument argument
      let later ← ofArguments rest
      .ok ((argument, first) :: later)

end ArgumentClass

/-- Whether the program file has been named. -/
inductive ProgramState where
  /-- Not yet. -/
  | pending
  /-- By the argument before. -/
  | justNamed
  /-- Earlier. -/
  | named
  deriving DecidableEq, Repr

/-- Where the reading of a command line stands. -/
structure Reading where
  /-- What it says so far. -/
  settings : Settings := {}
  /-- Whether the program file has been named. -/
  program : ProgramState := .pending
  /-- The arguments left over, in order. -/
  extras : List String := []

namespace Reading

/-- Take the value of an option. A joined value of two hyphens stands for no value. -/
def setValue (settings : Settings) (option : CliOption) (value : String) :
    Except Halt Settings :=
  match option with
  | .expr => .ok { settings with expr := if value = "--" then none else some value }
  | .maxSteps =>
    if value = "--" then .ok { settings with maxSteps := 0 }
    else
      match stepLimit value with
      | .ok n => .ok { settings with maxSteps := n }
      | .error e => .error (.usage e)
  | .format =>
    if value = "--" then .ok { settings with format := .tree }
    else
      match OutputFormat.ofWord? value with
      | some format => .ok { settings with format }
      | none => .error (.usage (.invalidFormat value))
  | _ => .ok settings

/-- Act on a flag. -/
def setFlag (settings : Settings) : CliOption → Except Halt Settings
  | .help => .error .help
  | .version => .error .version
  | .trace => .ok { settings with trace := true }
  | .quiet => .ok { settings with quiet := true }
  | .verbose => .ok { settings with verbose := true }
  | _ => .ok settings

/-- Act on flags one after another. -/
def setFlags (settings : Settings) : List CliOption → Except Halt Settings
  | [] => .ok settings
  | flag :: rest => do
    let settings ← setFlag settings flag
    setFlags settings rest

/-- The flags joined in one argument, and the option behind them that still lacks its value or has
it joined. -/
def joinedFlags (option : CliOption) :
    List Char → Except UsageError (List CliOption × CliOption × Option String)
  | [] => .ok ([], option, none)
  | c :: rest =>
    if option.takesValue then .ok ([], option, some (String.ofList (c :: rest)))
    else
      match CliOption.ofSpelling? (String.ofList ['-', c]) with
      | none => .error (.ignoredValue option (String.ofList (c :: rest)))
      | some next => do
        let (flags, last, value) ← joinedFlags next rest
        .ok (option :: flags, last, value)

/-- The flags that an option argument stands for, and the last option with the value joined to
it. -/
def unfoldOption (option : CliOption) (spelling : String) (value : Option String) :
    Except UsageError (List CliOption × CliOption × Option String) :=
  match value with
  | none => .ok ([], option, none)
  | some value =>
    if option.takesValue then .ok ([], option, some value)
    else if value = "" || spelling.toList.length ≠ 2 then .error (.ignoredValue option value)
    else joinedFlags option value.toList

/-- Name the program file, or keep the argument as left over. -/
def takePlain (reading : Reading) (argument : String) : Reading :=
  match reading.program with
  | .pending =>
    { reading with
      settings := { reading.settings with program := some argument }, program := .justNamed }
  | _ => { reading with program := .named, extras := reading.extras ++ [argument] }

/-- Pass over two hyphens next to the program file, or keep them as left over. -/
def takeHyphens (reading : Reading) : Reading :=
  match reading.program with
  | .pending => reading
  | .justNamed => { reading with program := .named }
  | .named => { reading with extras := reading.extras ++ ["--"] }

/-- What has been read behind an option. -/
def afterOption (reading : Reading) : Reading :=
  match reading.program with
  | .justNamed => { reading with program := .named }
  | _ => reading

/-- Read the arguments from left to right. -/
def run : Reading → List (String × ArgumentClass) → Except Halt Reading
  | reading, [] => .ok reading
  | reading, (argument, .plain) :: rest => run (reading.takePlain argument) rest
  | reading, (_, .hyphens) :: rest => run reading.takeHyphens rest
  | reading, (argument, .stranger) :: rest =>
    run { reading.afterOption with extras := reading.extras ++ [argument] } rest
  | reading, (_, .option option spelling value) :: rest =>
    match unfoldOption option spelling value with
    | .error e => .error (.usage e)
    | .ok (flags, last, some value) => do
      let settings ← setFlags reading.settings flags
      let settings ← setValue settings last value
      run { reading.afterOption with settings } rest
    | .ok (flags, last, none) =>
      if last.takesValue then
        match rest with
        | (value, .plain) :: behind => do
          let settings ← setFlags reading.settings flags
          let settings ← setValue settings last value
          run { reading.afterOption with settings } behind
        | _ => .error (.usage (.missingValue last))
      else do
        let settings ← setFlags reading.settings (flags ++ [last])
        run { reading.afterOption with settings } rest

end Reading

namespace Settings

/-- What the arguments say, or why nothing is to be done. -/
def ofArguments (arguments : List String) : Except Halt Settings := do
  let classes ← (ArgumentClass.ofArguments arguments).mapError .usage
  let reading ← Reading.run {} classes
  if reading.extras.isEmpty then .ok reading.settings
  else .error (.usage (.unrecognized reading.extras))

/-- How the command is called. -/
def usageText : String :=
  "usage: spsc [-h] [-e EXPR] [-m MAX_STEPS] [-f \x7btree,json,steps\x7d] [-t] [-q]\n" ++
  "            [-v] [--version]\n" ++
  "            [program]\n"

/-- The help text. -/
def helpText : String :=
  usageText ++
  "\n" ++
  "SPSC - Simple Positive SuperCompiler for SLL\n" ++
  "\n" ++
  "positional arguments:\n" ++
  "  program               SLL program file (.sll)\n" ++
  "\n" ++
  "options:\n" ++
  "  -h, --help            show this help message and exit\n" ++
  "  -e EXPR, --expr EXPR  Supercompile a single expression\n" ++
  "  -m MAX_STEPS, --max-steps MAX_STEPS\n" ++
  "                        Abort after this many growth steps, 0 for unlimited\n" ++
  "                        (default: 1000)\n" ++
  "  -f \x7btree,json,steps\x7d, --format \x7btree,json,steps\x7d\n" ++
  "                        Output format\n" ++
  "  -t, --trace           Print the tree after every growth step\n" ++
  "  -q, --quiet           Quiet mode (suppress non-essential output)\n" ++
  "  -v, --verbose         Log driving and folding steps to stderr\n" ++
  "  --version             show program's version number and exit\n" ++
  "\n" ++
  "Examples:\n" ++
  "  spsc                              Start REPL\n" ++
  "  spsc add.sll                      REPL with program\n" ++
  "  spsc add.sll -e 'gAdd(a, b)'      Print process tree\n" ++
  "  echo 'gAdd(a, b)' | spsc add.sll  Filter mode\n"

/-- The version line. -/
def versionText : String := "spsc 0.1.0\n"

end Settings

end Supercompilation
