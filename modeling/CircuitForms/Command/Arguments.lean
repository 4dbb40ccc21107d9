/-! # Command lines

A command line names a command and gives it options. Global options may stand
before or after the command's name, where the later place counts. Anything
that is not understood, missing or repeated is a misuse of the program.
-/

namespace CircuitForms.Command

/-- What the program is asked to do. -/
inductive Task where
  | forward (input : String) (output : Option String)
  | reverse (input : String) (output : Option String) (register : String)
  | roundTrip (input : String)
  | grid (input : String)
  | adjacency (pairs : String)
  deriving DecidableEq, Repr

structure Invocation where
  task : Task
  /-- The settings file. -/
  config : Option String := none
  noBoxUnknown : Bool := false
  dropConditions : Bool := false
  /-- How much is said on the way. -/
  verbosity : Nat := 0
  deriving DecidableEq, Repr

inductive Request where
  | run (i : Invocation)
  | version
  | misuse
  deriving DecidableEq, Repr

inductive Flag where
  | input
  | output
  | qreg
  | pairs
  | config
  | noBoxUnknown
  | dropConditions
  | verbose
  | version
  deriving DecidableEq, Repr

namespace Flag

def long : Flag → String
  | input => "input"
  | output => "output"
  | qreg => "qreg"
  | pairs => "pairs"
  | config => "config"
  | noBoxUnknown => "no-box-unknown"
  | dropConditions => "drop-conditions"
  | verbose => "verbose"
  | version => "version"

def short? : Flag → Option Char
  | input => some 'i'
  | output => some 'o'
  | pairs => some 'p'
  | verbose => some 'v'
  | version => some 'V'
  | _ => none

def takesValue : Flag → Bool
  | input | output | qreg | pairs | config => true
  | _ => false

def isRepeatable : Flag → Bool
  | verbose => true
  | _ => false

end Flag

/-- The commands by name. -/
inductive Name where
  | forward
  | reverse
  | roundtrip
  | grid
  | adjacency
  deriving DecidableEq, Repr

def Name.ofText? (s : String) : Option Name :=
  if s = "forward" then some .forward
  else if s = "reverse" then some .reverse
  else if s = "roundtrip" then some .roundtrip
  else if s = "grid" then some .grid
  else if s = "adjacency" then some .adjacency
  else none

def globalFlags : List Flag := [.verbose, .config, .noBoxUnknown, .dropConditions]

def rootFlags : List Flag := .version :: globalFlags

def Name.flags : Name → List Flag
  | .forward => [.input, .output] ++ globalFlags
  | .reverse => [.input, .output, .qreg] ++ globalFlags
  | .roundtrip | .grid => .input :: globalFlags
  | .adjacency => .pairs :: globalFlags

/-- The options given at one place with their values. -/
abbrev Given := List (Flag × String)

/-- Where the scanning of options ends. -/
inductive Stop where
  /-- At an argument that is no option, with the arguments after it. -/
  | positional (arg : String) (rest : List String)
  | finished
  | version
  | misuse
  deriving DecidableEq, Repr

/-- Whether an option may be given once more. An empty settings file is no file. -/
def isAcceptable (given : Given) (flag : Flag) (value : String) : Bool :=
  (flag.isRepeatable || given.all (·.1 != flag)) && !(flag == .config && value.isEmpty)

/-- An argument that can be the value of an option before it. -/
def isValue (arg : String) : Bool :=
  arg = "-" || !arg.startsWith "-"

def longFlag? (flags : List Flag) (name : String) : Option Flag :=
  flags.find? (·.long == name)

def shortFlag? (flags : List Flag) (c : Char) : Option Flag :=
  flags.find? (·.short? == some c)

/-- What an argument that starts with a minus sign contains: options without values, and an option
that still needs one. -/
structure Cluster where
  complete : Given
  pending : Option Flag := none
  deriving DecidableEq, Repr

/-- A value attached to a short option, which an equals sign may precede. -/
def attached : List Char → String
  | '=' :: cs => String.ofList cs
  | cs => String.ofList cs

/-- Short options that share one minus sign. -/
def cluster? (flags : List Flag) : List Char → Option Cluster
  | [] => some ⟨[], none⟩
  | c :: cs =>
    match shortFlag? flags c with
    | none => none
    | some flag =>
      if flag = .version then some ⟨[(flag, "")], none⟩
      else if flag.takesValue then
        some (if cs.isEmpty then ⟨[], some flag⟩ else ⟨[(flag, attached cs)], none⟩)
      else (cluster? flags cs).map fun k => { k with complete := (flag, "") :: k.complete }

/-- An argument with two minus signs. -/
def longCluster? (flags : List Flag) (body : List Char) : Option Cluster :=
  let name := String.ofList (body.takeWhile (· != '='))
  match longFlag? flags name, body.dropWhile (· != '=') with
  | none, _ => none
  | some flag, [] => some (if flag.takesValue then ⟨[], some flag⟩ else ⟨[(flag, "")], none⟩)
  | some flag, _ :: value =>
    if flag.takesValue then some ⟨[(flag, String.ofList value)], none⟩ else none

/-- Adds options one by one as long as they are acceptable. -/
def addAll (given : Given) : Given → Option Given
  | [] => some given
  | (flag, value) :: rest =>
    if isAcceptable given flag value then addAll (given ++ [(flag, value)]) rest else none

/-- Reads options up to the first argument that is none. -/
def scan (flags : List Flag) (given : Given) : List String → Given × Stop
  | [] => (given, .finished)
  | arg :: rest =>
    match arg.toList with
    | ['-', '-'] => (given, if rest.isEmpty then .finished else .misuse)
    | '-' :: c :: cs =>
      match if c = '-' then longCluster? flags cs else cluster? flags (c :: cs) with
      | none => (given, .misuse)
      | some k =>
        match addAll given k.complete, k.pending, rest with
        | none, _, _ => (given, .misuse)
        | some given, none, rest =>
          if given.any (·.1 == .version) then (given, .version) else scan flags given rest
        | some given, some _, [] => (given, .misuse)
        | some given, some flag, value :: rest =>
          if isValue value && isAcceptable given flag value then
            scan flags (given ++ [(flag, value)]) rest
          else (given, .misuse)
    | _ => (given, .positional arg rest)

def valueOf? (given : Given) (flag : Flag) : Option String :=
  given.lookup flag

def isGiven (given : Given) (flag : Flag) : Bool :=
  given.any (·.1 == flag)

def timesGiven (given : Given) (flag : Flag) : Nat :=
  given.countP (·.1 == flag)

def configKey : String := "QBRIDGE_CONFIG"

/-- The task of a command with the options after its name. -/
def task? (name : Name) (given : Given) : Option Task :=
  match name with
  | .forward => (valueOf? given .input).map (.forward · (valueOf? given .output))
  | .reverse =>
    (valueOf? given .input).map
      (.reverse · (valueOf? given .output) ((valueOf? given .qreg).getD "q"))
  | .roundtrip => (valueOf? given .input).map .roundTrip
  | .grid => (valueOf? given .input).map .grid
  | .adjacency => (valueOf? given .pairs).map .adjacency

/-- An empty name for the settings file in the environment is a misuse wherever it is looked at. -/
def isMisconfigured (lookup : String → Option String) (before after : Given) : Bool :=
  lookup configKey = some "" && !(isGiven before .config && isGiven after .config)

/-- What a command with options before and after its name asks for. -/
def requestOf (lookup : String → Option String) (name : Name) (before after : Given) : Request :=
  match task? name after with
  | none => .misuse
  | some task =>
    if isMisconfigured lookup before after then .misuse
    else
      .run ⟨task,
        ((valueOf? after .config).or (valueOf? before .config)).or (lookup configKey),
        isGiven before .noBoxUnknown || isGiven after .noBoxUnknown,
        isGiven before .dropConditions || isGiven after .dropConditions,
        timesGiven (if isGiven after .verbose then after else before) .verbose⟩

/-- What a command line asks for. -/
def parseArguments (lookup : String → Option String) (args : List String) : Request :=
  match scan rootFlags [] args with
  | (_, .version) => .version
  | (before, .positional arg rest) =>
    match Name.ofText? arg with
    | none => .misuse
    | some name =>
      match scan name.flags [] rest with
      | (after, .finished) => requestOf lookup name before after
      | _ => .misuse
  | _ => .misuse

end CircuitForms.Command
