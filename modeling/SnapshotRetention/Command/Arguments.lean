import SnapshotRetention.Command.Simulate

/-!
# Command-line arguments

The arguments name one command with its options; the path of the artifact directory and the
verbosity may stand before or after the command. An option takes its value from the next argument,
after an equals sign, or, for a one-letter option, from the rest of the same argument; one-letter
flags may stand together. A value that is an argument of its own must not look like an option. No
option may be given twice at the same place, and what is not understood is refused as a whole.
-/

namespace SnapshotRetention

/-- A command with its options. -/
inductive Command where
  | inspect (format : String)
  | backup (output : String) (all : Bool)
  | simulate (simulation : Simulation) (format : String)
  | version
  deriving DecidableEq

/-- What the arguments ask for. -/
inductive Invocation where
  /-- Run a command, and tell in detail what it does if it is to be verbose. -/
  | run (path : Option String) (verbose : Bool) (command : Command)
  /-- Show the name and version of the program. -/
  | showVersion
  /-- Show how the program is used. -/
  | showUsage
  deriving DecidableEq

namespace Arguments

/-- The options of the program and its commands. -/
inductive Opt where
  | path | verbose | help | programVersion
  | format | output | all | commits | readers | maxHeld | keepLast | deferred
  deriving DecidableEq

namespace Opt

/-- The long name of an option. -/
def long : Opt → String
  | .path => "path"
  | .verbose => "verbose"
  | .help => "help"
  | .programVersion => "version"
  | .format => "format"
  | .output => "output"
  | .all => "all"
  | .commits => "commits"
  | .readers => "readers"
  | .maxHeld => "max-held"
  | .keepLast => "keep-last"
  | .deferred => "deferred"

/-- The letter of an option. -/
def letter? : Opt → Option Char
  | .path => some 'p'
  | .verbose => some 'v'
  | .help => some 'h'
  | .programVersion => some 'V'
  | .format => some 'f'
  | .output => some 'o'
  | .all => some 'a'
  | .commits => some 'c'
  | .readers => some 'r'
  | .maxHeld => none
  | .keepLast => some 'k'
  | .deferred => some 'd'

/-- Whether an option takes a value. -/
def takesValue : Opt → Bool
  | .verbose | .help | .programVersion | .all | .deferred => false
  | .path | .format | .output | .commits | .readers | .maxHeld | .keepLast => true

/-- The number that digits stand for, after an optional plus sign, if it fits in 64 bits. -/
def number? (value : String) : Option Nat :=
  let digits := match value.toList with
    | '+' :: rest => rest
    | chars => chars
  if digits ≠ [] ∧ digits.all Char.isDigit then
    let n := Nat.ofDigitChars 10 digits 0
    if n < UInt64.size then some n else none
  else none

/-- Whether a value is one that an option can take: paths are not empty, counts are numbers. -/
def accepts (o : Opt) (value : String) : Bool :=
  match o with
  | .path | .output => value ≠ ""
  | .commits | .readers | .maxHeld | .keepLast => (number? value).isSome
  | .verbose | .help | .programVersion | .format | .all | .deferred => true

end Opt

/-- The commands by name. -/
inductive Verb where
  | inspect | backup | simulate | version
  deriving DecidableEq

/-- The command of a name. -/
def verb? (name : String) : Option Verb :=
  if name = "inspect" then some .inspect
  else if name = "backup" then some .backup
  else if name = "simulate" then some .simulate
  else if name = "version" then some .version
  else none

/-- The options that may stand before a command or, given one, after it. -/
def allowed : Option Verb → List Opt
  | none => [.path, .verbose, .help, .programVersion]
  | some .inspect => [.path, .verbose, .help, .format]
  | some .backup => [.path, .verbose, .help, .output, .all]
  | some .simulate =>
    [.path, .verbose, .help, .commits, .readers, .maxHeld, .keepLast, .deferred, .format]
  | some .version => [.path, .verbose, .help]

/-- Options as they were given, each with its value; flags have an empty one. -/
abbrev Given := List (Opt × String)

/-- What one argument, or an argument with the value after it, says. -/
inductive Piece where
  /-- Options, and perhaps one more that waits for the next argument as its value. -/
  | options (given : Given) (waiting : Option Opt)
  /-- A word that is no option. -/
  | word
  /-- The mark after which nothing is an option. -/
  | terminator
  | unknown

/-- Whether an option wins over whatever follows it. -/
def Opt.isShortcut (o : Opt) : Bool := o == .help || o == .programVersion

/-- Options of a group of letters, which a shortcut ends. -/
def readLetters (opts : List Opt) : List Char → Given → Piece
  | [], given => .options given none
  | c :: rest, given =>
    match opts.find? fun o => o.letter? == some c with
    | none => .unknown
    | some o =>
      if o.isShortcut then .options (given ++ [(o, "")]) none
      else if !o.takesValue then readLetters opts rest (given ++ [(o, "")])
      else
        match rest with
        | [] => .options given (some o)
        | '=' :: value => .options (given ++ [(o, String.ofList value)]) none
        | value => .options (given ++ [(o, String.ofList value)]) none

/-- A long option, with its value after an equals sign. -/
def readLong (opts : List Opt) (chars : List Char) : Piece :=
  let name := String.ofList (chars.takeWhile (· ≠ '='))
  match opts.find? fun o => o.long == name, chars.dropWhile (· ≠ '=') with
  | none, _ => .unknown
  | some o, [] => if o.takesValue then .options [] (some o) else .options [(o, "")] none
  | some o, _ :: value =>
    if o.takesValue then .options [(o, String.ofList value)] none else .unknown

/-- What an argument says. -/
def read (opts : List Opt) (arg : String) : Piece :=
  match arg.toList with
  | ['-', '-'] => .terminator
  | '-' :: '-' :: chars => readLong opts chars
  | ['-'] => .word
  | '-' :: chars => readLetters opts chars []
  | _ => .word

/-- Whether an argument can be the value of the option before it. -/
def canBeValue (arg : String) : Bool :=
  match arg.toList with
  | ['-'] => true
  | '-' :: _ => false
  | _ => true

/-- Options read up to a word or the end: the options, and the word with what follows it. -/
inductive Scan where
  | finished (given : Given)
  | stopped (given : Given) (word : String) (rest : List String)
  /-- Help or the version was asked for, which wins over what follows. -/
  | shortcut (o : Opt)
  | refused

/-- The options given once new ones join them, in order: none twice, no value out of range, and
nothing after a shortcut. -/
def join (given : Given) : Given → Scan
  | [] => .finished given
  | (o, value) :: rest =>
    if o.isShortcut then .shortcut o
    else if o.accepts value && !(given.any fun g => g.1 == o) then join (given ++ [(o, value)]) rest
    else .refused

/-- Reads options until a word that is none. -/
def scan (opts : List Opt) : List String → Given → Scan
  | [], given => .finished given
  | arg :: rest, given =>
    match read opts arg with
    | .unknown => .refused
    | .word => .stopped given arg rest
    | .terminator => if rest.isEmpty then .finished given else .refused
    | .options new waiting =>
      match join given new, waiting, rest with
      | .finished given, none, rest => scan opts rest given
      | .finished given, some o, value :: rest =>
        if canBeValue value then
          match join given [(o, value)] with
          | .finished given => scan opts rest given
          | stop => stop
        else .refused
      | .finished _, some _, [] => .refused
      | stop, _, _ => stop

/-- The value of an option. -/
def value? (given : Given) (o : Opt) : Option String :=
  (given.find? fun e => e.1 == o).map Prod.snd

/-- Whether a flag was given. -/
def has (given : Given) (o : Opt) : Bool := (value? given o).isSome

/-- A command from the options after its name. -/
def command? (verb : Verb) (given : Given) : Option Command :=
  let format := (value? given .format).getD "text"
  match verb with
  | .inspect => some (.inspect format)
  | .backup => (value? given .output).map fun output => .backup output (has given .all)
  | .simulate =>
    let number := fun o => (value? given o).bind Opt.number?
    some (.simulate ⟨(number .commits).getD 1000, number .keepLast, has given .deferred⟩ format)
  | .version => some .version

/-- The words after a request for help: at most one, which names a command. -/
def helpTopic? : List String → Bool
  | [] => true
  | [name] => name = "help" || (verb? name).isSome
  | _ => false

/-- What arguments ask for, if they are understood. Of two paths, the one after the command
counts. -/
def parse (args : List String) : Option Invocation :=
  match scan (allowed none) args [] with
  | .refused | .finished _ => none
  | .shortcut .programVersion => some .showVersion
  | .shortcut _ => some .showUsage
  | .stopped before name rest =>
    if name = "help" then if helpTopic? rest then some .showUsage else none
    else
      match verb? name with
      | none => none
      | some verb =>
        match scan (allowed (some verb)) rest [] with
        | .refused | .stopped .. => none
        | .shortcut _ => some .showUsage
        | .finished after =>
          (command? verb after).map fun command =>
            .run ((value? after .path).or (value? before .path))
              (has before .verbose || has after .verbose) command

end Arguments

end SnapshotRetention
