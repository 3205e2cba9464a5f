import Spreadsheet.Recalculate

/-!
Command-line arguments. They are read from left to right and the first thing that ends the reading
decides: a mistake, or a request for help or for the version.
-/
namespace Spreadsheet.CommandLine

/-- How a recalculated sheet is written. -/
inductive Format where
  | grid
  | csv
deriving DecidableEq, Repr

/-- What the program is asked to do. -/
inductive Command where
  /-- Recalculate the sheet of an input and write it to a file or to standard output. -/
  | eval (input : String) (format : Format) (output? : Option String) (delimiter : Char)
      (mode : Mode)
  | check (input : String) (delimiter : Char)
  | expr (formula : String)
deriving DecidableEq, Repr

/-- Why the arguments ask for no command. -/
inductive Refusal where
  | usage
  | help
  | version
deriving DecidableEq, Repr

inductive Verb where
  | eval
  | check
  | expr
deriving DecidableEq, Repr

/-- What may follow a hyphen or two. -/
inductive Flag where
  | verbose
  | help
  | version
  | parallel
  | format
  | output
  | delimiter
deriving DecidableEq, Repr

namespace Flag

def ofName? : String → Option Flag
  | "verbose" => some verbose
  | "help" => some help
  | "version" => some version
  | "parallel" => some parallel
  | "format" => some format
  | "output" => some output
  | "delimiter" => some delimiter
  | _ => none

def ofLetter? : Char → Option Flag
  | 'v' => some verbose
  | 'h' => some help
  | 'V' => some version
  | 'f' => some format
  | 'o' => some output
  | 'd' => some delimiter
  | _ => none

def takesValue : Flag → Bool
  | format | output | delimiter => true
  | _ => false

end Flag

/-- Whether a command knows a flag; `none` stands for the flags before the command. -/
def knows (verb? : Option Verb) (flag : Flag) : Bool :=
  match flag with
  | .verbose | .help => true
  | .version => verb?.isNone
  | .parallel | .format | .output => verb? = some .eval
  | .delimiter => verb? = some .eval || verb? = some .check

/-- What the arguments of a command have set so far. -/
structure Settings where
  operand? : Option String := none
  format? : Option Format := none
  output? : Option String := none
  delimiter? : Option Char := none
  parallel : Bool := false

/-- Sets what has not been set before. -/
def once {α : Type} (old : Option α) (new : Option α) : Except Refusal (Option α) :=
  if old.isNone && new.isSome then .ok new else .error .usage

namespace Settings

/-- Sets the operand. Only a formula may be empty. -/
def setOperand (verb : Verb) (s : Settings) (value : String) : Except Refusal Settings := do
  let usable := verb = .expr || !value.isEmpty
  return { s with operand? := ← once s.operand? (if usable then some value else none) }

def setValue (s : Settings) (flag : Flag) (value : String) : Except Refusal Settings :=
  match flag with
  | .format => do
    let format? := match value with
      | "grid" => some Format.grid
      | "csv" => some Format.csv
      | _ => none
    return { s with format? := ← once s.format? format? }
  | .output => do
    return { s with output? := ← once s.output? (if value.isEmpty then none else some value) }
  | .delimiter => do
    let delimiter? := match value.toList with
      | [c] => some c
      | _ => none
    return { s with delimiter? := ← once s.delimiter? delimiter? }
  | _ => .error .usage

def setFlag (s : Settings) (flag : Flag) : Except Refusal Settings :=
  match flag with
  | .verbose => .ok s
  | .help => .error .help
  | .version => .error .version
  | .parallel => if s.parallel then .error .usage else .ok { s with parallel := true }
  | _ => .error .usage

/-- Reads short flags that share a hyphen. What follows a flag with a value is the value, after an
optional equals sign; where nothing follows, the flag waits for the next argument. -/
def readLetters (verb? : Option Verb) (s : Settings) :
    List Char → Except Refusal (Settings × Option Flag)
  | [] => .ok (s, none)
  | c :: cs =>
    match (Flag.ofLetter? c).filter (knows verb?) with
    | none => .error .usage
    | some flag =>
      if flag.takesValue then
        match cs with
        | [] => .ok (s, some flag)
        | '=' :: value => do return (← s.setValue flag (String.ofList value), none)
        | value => do return (← s.setValue flag (String.ofList value), none)
      else
        match s.setFlag flag with
        | .error e => .error e
        | .ok s => readLetters verb? s cs

/-- Reads a long flag. Its value stands after an equals sign or is the next argument. -/
def readName (verb? : Option Verb) (s : Settings) (cs : List Char) :
    Except Refusal (Settings × Option Flag) :=
  let name := String.ofList (cs.takeWhile (· ≠ '='))
  match (Flag.ofName? name).filter (knows verb?), cs.dropWhile (· ≠ '=') with
  | none, _ => .error .usage
  | some flag, [] =>
    if flag.takesValue then .ok (s, some flag)
    else do return (← s.setFlag flag, none)
  | some flag, _ :: value =>
    if flag.takesValue then do return (← s.setValue flag (String.ofList value), none)
    else .error .usage

/-- Reads the arguments after the command. `waiting` is the flag whose value comes next. -/
def read (verb : Verb) (s : Settings) (waiting : Option Flag) :
    List String → Except Refusal Settings
  | [] => if waiting.isSome then .error .usage else .ok s
  | arg :: args =>
    match waiting, arg.toList with
    | some _, '-' :: _ :: _ => .error .usage
    | some flag, _ => do (← s.setValue flag arg).read verb none args
    | none, ['-', '-'] => args.foldlM (setOperand verb) s
    | none, '-' :: '-' :: cs => do
      let (s, waiting) ← readName (some verb) s cs
      s.read verb waiting args
    | none, '-' :: c :: cs => do
      let (s, waiting) ← readLetters (some verb) s (c :: cs)
      s.read verb waiting args
    | none, _ => do (← setOperand verb s arg).read verb none args

/-- The command, with defaults for what is not set. -/
def command (verb : Verb) (s : Settings) : Except Refusal Command :=
  match s.operand? with
  | none => .error .usage
  | some operand =>
    let delimiter := s.delimiter?.getD ','
    match verb with
    | .eval =>
      let mode := if s.parallel then Mode.layered else .single
      .ok (.eval operand (s.format?.getD .grid) s.output? delimiter mode)
    | .check => .ok (.check operand delimiter)
    | .expr => .ok (.expr operand)

end Settings

def verbOf? : String → Option Verb
  | "eval" | "calc" => some .eval
  | "check" => some .check
  | "expr" => some .expr
  | _ => none

/-- What to do about a request for help on a command. -/
def helpOn : List String → Refusal
  | [] | ["help"] => .help
  | [name] => if (verbOf? name).isSome then .help else .usage
  | _ => .usage

def readArguments : List String → Except Refusal Command
  | [] => .error .usage
  | arg :: args =>
    match arg.toList with
    | ['-', '-'] => .error .usage
    | '-' :: '-' :: cs => do
      let _ ← Settings.readName none {} cs
      readArguments args
    | '-' :: c :: cs => do
      let _ ← Settings.readLetters none {} (c :: cs)
      readArguments args
    | _ =>
      if arg = "help" then .error (helpOn args)
      else
        match verbOf? arg with
        | none => .error .usage
        | some verb => do (← Settings.read verb {} none args).command verb

end Spreadsheet.CommandLine
