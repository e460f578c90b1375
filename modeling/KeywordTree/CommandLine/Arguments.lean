/-! Reading the arguments of the program. Options may stand before or after the name of
a command; the arguments of a command end in a list of reader arguments, and from the
first of these on nothing is read as an option. -/
namespace KeywordTree.CommandLine

inductive Opt where
  | prefixText
  | ifThreshold
  | tailThreshold
  | indent
  | verbose
  | probes
  | seed
  | help
  | version
  deriving DecidableEq, Repr

inductive Value where
  | nothing
  | text
  | number
  deriving DecidableEq, Repr

def Opt.value : Opt → Value
  | .prefixText => .text
  | .verbose | .help | .version => .nothing
  | _ => .number

/-- Where an argument stands: before the name of a command, or after one. -/
inductive Scope where
  | program
  | generate
  | verify
  | stats
  deriving DecidableEq, Repr

namespace Scope

def ofName? (name : String) : Option Scope :=
  if name = "generate" then some generate
  else if name = "verify" then some verify
  else if name = "stats" then some stats
  else none

def long? (scope : Scope) (name : String) : Option Opt :=
  if name = "prefix" then some .prefixText
  else if name = "use-if-threshold" then some .ifThreshold
  else if name = "tail-threshold" then some .tailThreshold
  else if name = "indent" then some .indent
  else if name = "verbose" then some .verbose
  else if name = "help" then some .help
  else if scope = program ∧ name = "version" then some .version
  else if scope = verify ∧ name = "probes" then some .probes
  else if scope = verify ∧ name = "seed" then some .seed
  else none

def short? (scope : Scope) (letter : Char) : Option Opt :=
  if letter = 'v' then some .verbose
  else if letter = 'h' then some .help
  else if scope = program ∧ letter = 'V' then some .version
  else if scope = verify ∧ letter = 'n' then some .probes
  else none

/-- How many arguments a command needs before its reader arguments. -/
def required : Scope → Nat
  | program => 0
  | generate => 2
  | verify => 1
  | stats => 1

end Scope

inductive Stop where
  | usage
  | help
  | version
  deriving DecidableEq, Repr

structure Reading where
  given : List (Opt × String) := []
  /-- An option whose value is the next argument. -/
  awaiting? : Option Opt := none
  positional : List String := []
  /-- Nothing more is read as an option. -/
  plain : Bool := false
  deriving DecidableEq, Repr

/-- An unsigned number of 64 bits in decimal; a plus sign may precede it. -/
def number? (text : String) : Option Nat :=
  let digits := match text.toList with
    | '+' :: rest => rest
    | all => all
  if digits.isEmpty || digits.any fun c => !c.isDigit then none
  else
    let value := digits.foldl (fun n c => 10 * n + (c.toNat - 48)) 0
    if value < 0x10000000000000000 then some value else none

namespace Reading

/-- Record an option. It may be given once, and a number has to be one. -/
def give (reading : Reading) (opt : Opt) (value : String) : Except Stop Reading :=
  match opt with
  | .help => .error .help
  | .version => .error .version
  | _ =>
    if reading.given.any fun entry => entry.1 = opt then .error .usage
    else if opt.value = .number ∧ number? value = none then .error .usage
    else .ok { reading with given := (opt, value) :: reading.given }

/-- Whether the next argument that is no option would be a reader argument. -/
def atReader (reading : Reading) (scope : Scope) : Bool :=
  scope != .program && scope.required ≤ reading.positional.length

def word (reading : Reading) (scope : Scope) (arg : String) : Except Stop Reading :=
  match reading.awaiting? with
  | some opt => { reading with awaiting? := none }.give opt arg
  | none =>
    if scope = .program then .error .usage
    else .ok { reading with
      positional := reading.positional ++ [arg]
      -- From the first reader argument on nothing is read as an option.
      plain := reading.plain || reading.atReader scope }

def long (reading : Reading) (scope : Scope) (arg name : String) (attached? : Option String) :
    Except Stop Reading :=
  match scope.long? name with
  -- A name that is unknown may still be a reader argument.
  | none => if reading.atReader scope then reading.word scope arg else .error .usage
  | some opt =>
    if reading.awaiting?.isSome then .error .usage
    else
      match opt.value, attached? with
      | .nothing, none => reading.give opt ""
      | .nothing, some _ => .error .usage
      | _, some value => reading.give opt value
      | _, none => .ok { reading with awaiting? := some opt }

/-- Letters after one dash. A letter that takes a value takes the rest of them. -/
def letters (reading : Reading) (scope : Scope) : List Char → Except Stop Reading
  | [] => .ok reading
  | letter :: rest =>
    match scope.short? letter with
    | none => .error .usage
    | some opt =>
      match opt.value, rest with
      | .nothing, _ => (reading.give opt "").bind fun next => next.letters scope rest
      | _, [] => .ok { reading with awaiting? := some opt }
      -- An equals sign right after the letter is no part of its value.
      | _, '=' :: value => reading.give opt (String.ofList value)
      | _, value => reading.give opt (String.ofList value)

/-- Options under single letters. Where a reader argument may stand, letters that are not
all known are one. -/
def short (reading : Reading) (scope : Scope) (arg : String) (cluster : List Char) :
    Except Stop Reading :=
  if reading.atReader scope && cluster.any fun letter => (scope.short? letter).isNone then
    reading.word scope arg
  else if reading.awaiting?.isSome then .error .usage
  else reading.letters scope cluster

def next (reading : Reading) (scope : Scope) (arg : String) : Except Stop Reading :=
  if reading.plain then reading.word scope arg
  else
    match arg.toList with
    | ['-', '-'] =>
      if reading.awaiting?.isSome then .error .usage else .ok { reading with plain := true }
    | '-' :: '-' :: rest =>
      let name := rest.takeWhile (· != '=')
      let attached? := (rest.dropWhile (· != '=')).tail?
      reading.long scope arg (String.ofList name) (attached?.map String.ofList)
    | '-' :: letter :: rest => reading.short scope arg (letter :: rest)
    | _ => reading.word scope arg

def text? (reading : Reading) (opt : Opt) : Option String := reading.given.lookup opt

end Reading

def readCommand (scope : Scope) (reading : Reading) : List String → Except Stop Reading
  | [] =>
    if reading.awaiting?.isSome || reading.positional.length < scope.required then .error .usage
    else .ok reading
  | arg :: rest => (reading.next scope arg).bind fun next => readCommand scope next rest

/-- A request for help names at most one command. -/
def helpStop : List String → Stop
  | [] => .help
  | [name] => if name = "help" ∨ (Scope.ofName? name).isSome then .help else .usage
  | _ => .usage

def readProgram (reading : Reading) : List String → Except Stop (Reading × Scope × Reading)
  | [] => .error .usage
  | arg :: rest =>
    if reading.awaiting? = none ∧ reading.plain = false ∧ arg = "help" then .error (helpStop rest)
    else
      match if reading.awaiting? = none ∧ reading.plain = false then Scope.ofName? arg else none with
      | some scope => (readCommand scope {} rest).map fun command => (reading, scope, command)
      | none => (reading.next .program arg).bind fun next => readProgram next rest

inductive Task where
  | generate (output : String)
  | verify (probes seed : Nat)
  | stats
  deriving DecidableEq, Repr

structure Request where
  task : Task
  source : String
  features : List String
  prefixText : String
  ifThreshold : Nat
  tailThreshold : Nat
  indent : Nat
  verbose : Bool
  deriving DecidableEq, Repr

/-- The request that arguments make. An option of the command itself outweighs the same
option before the command's name. -/
def parse (args : List String) : Except Stop Request :=
  match readProgram {} args with
  | .error stop => .error stop
  | .ok (program, scope, command) =>
    let text? (opt : Opt) := (command.text? opt).or (program.text? opt)
    let number (opt : Opt) (otherwise : Nat) := ((text? opt).bind number?).getD otherwise
    let request (task : Task) (source : String) (features : List String) : Request :=
      { task, source, features
        prefixText := (text? .prefixText).getD ""
        ifThreshold := number .ifThreshold 3
        tailThreshold := number .tailThreshold 4
        indent := number .indent 1
        verbose := (text? .verbose).isSome }
    match scope, command.positional with
    | .generate, output :: source :: features => .ok (request (.generate output) source features)
    | .verify, source :: features =>
      .ok (request (.verify (number .probes 10000) (number .seed 0)) source features)
    | .stats, source :: features => .ok (request .stats source features)
    | _, _ => .error .usage

end KeywordTree.CommandLine
