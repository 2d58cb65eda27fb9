import KeyedBlocks.Text.Decimal

/-!
The command line: a verb with its arguments, and options and flags before and after it. Options that
belong to no verb may stand on both sides; what stands behind the verb then counts. An option takes
its value after an equals sign or from the next argument, and a value is looked at when the next
option, flag or argument is, or at the end. Two dashes make everything after them an argument.
-/
namespace KeyedBlocks

inductive Command
  | put (key value : String)
  | get (key : String)
  | has (key : String)
  | delete (key : String)
  | scan (stem start : String) (limit : Nat) (values : Bool)
  | stat (property : String)
  deriving DecidableEq, Repr

structure Invocation where
  command : Command
  url : Option String := none
  config : Option String := none
  verbose : Bool := false
  deriving DecidableEq, Repr

inductive UsageError
  | help
  | version
  /-- There is nothing on the command line. -/
  | bare
  | noCommand
  | badCommand
  | unknownArgument
  | missingArgument
  | missingValue
  | badValue
  /-- A flag was given a value. -/
  | surplusValue
  /-- An option or flag stands twice on one side of the verb. -/
  | repeated
  deriving DecidableEq, Repr

namespace CommandLine

inductive Verb
  | put
  | get
  | has
  | delete
  | scan
  | stat
  deriving DecidableEq, Repr

namespace Verb

def all : List Verb := [put, get, has, delete, scan, stat]

def name : Verb → String
  | put => "put"
  | get => "get"
  | has => "has"
  | delete => "delete"
  | scan => "scan"
  | stat => "stat"

def ofName? (name : String) : Option Verb := all.find? fun verb => verb.name = name

def arity : Verb → Nat
  | put => 2
  | scan => 0
  | _ => 1

end Verb

inductive Setting
  | db
  | config
  | stem
  | start
  | limit
  deriving DecidableEq, Repr

inductive Flag
  | verbose
  | values
  | help
  | version
  deriving DecidableEq, Repr

inductive Switch
  | setting (s : Setting)
  | flag (f : Flag)
  deriving DecidableEq, Repr

/-- The side of the verb that is being read; none is the side before it. -/
abbrev Side := Option Verb

namespace Side

def words (side : Side) : List (String × Switch) :=
  [("db", .setting .db), ("config", .setting .config), ("verbose", .flag .verbose),
    ("help", .flag .help)] ++
    match side with
    | none => [("version", .flag .version)]
    | some .scan =>
        [("prefix", .setting .stem), ("start", .setting .start), ("limit", .setting .limit),
          ("values", .flag .values)]
    | some _ => []

def letters (side : Side) : List (Char × Switch) :=
  [('v', .flag .verbose), ('h', .flag .help)] ++
    match side with
    | none => [('V', .flag .version)]
    | some .scan => [('n', .setting .limit)]
    | some _ => []

def arity (side : Side) : Nat := (side.map Verb.arity).getD 0

end Side

structure Given where
  db : Option String := none
  config : Option String := none
  stem : Option String := none
  start : Option String := none
  limit : Option Nat := none
  verbose : Bool := false
  values : Bool := false
  arguments : List String := []
  /-- The last option, with the value it has got so far. -/
  pending : Option (Setting × Option String) := none
  deriving DecidableEq, Repr

namespace Given

/-- Fill a field that is still free. -/
def fill {α : Type} (field : Option α) (value : α) : Except UsageError (Option α) :=
  if field.isSome then .error .repeated else .ok (some value)

def assign (g : Given) : Setting → String → Except UsageError Given
  | .db, value => do return { g with db := ← fill g.db value }
  | .config, value => do
      let config ← fill g.config value
      if value = "" then throw .missingValue
      return { g with config }
  | .stem, value => do return { g with stem := ← fill g.stem value }
  | .start, value => do return { g with start := ← fill g.start value }
  | .limit, value => do
      if g.limit.isSome then throw .repeated
      match Decimal.natBelow (Nat.pow 2 64) value with
      | .ok limit => return { g with limit := some limit }
      | .error _ => throw .badValue

/-- Take the value of the last option, which must have one by now. -/
def settle (g : Given) : Except UsageError Given :=
  match g.pending with
  | none => .ok g
  | some (_, none) => .error .missingValue
  | some (setting, some value) => { g with pending := none }.assign setting value

def awaits (g : Given) : Bool :=
  match g.pending with
  | some (_, none) => true
  | _ => false

def supply (g : Given) (value : String) : Given :=
  { g with pending := g.pending.map fun entry => (entry.1, some value) }

def meet (g : Given) (setting : Setting) (value : Option String) : Except UsageError Given := do
  let g ← g.settle
  match value with
  | some value => g.assign setting value
  | none => return { g with pending := some (setting, none) }

def raise (g : Given) (flag : Flag) : Except UsageError Given := do
  let g ← g.settle
  match flag with
  | .help => throw .help
  | .version => throw .version
  | .verbose => if g.verbose then throw .repeated else return { g with verbose := true }
  | .values => if g.values then throw .repeated else return { g with values := true }

def word (g : Given) (side : Side) (name : String) (value : Option String) :
    Except UsageError Given :=
  match side.words.lookup name with
  | none => .error .unknownArgument
  | some (.setting setting) => g.meet setting value
  | some (.flag flag) => if value.isSome then .error .surplusValue else g.raise flag

/-- The value that stands right behind the letter of an option. -/
def attached : List Char → Option String
  | [] => none
  | '=' :: value => some (String.ofList value)
  | value => some (String.ofList value)

/-- Read options and flags in single letters. The first option takes all that is behind it. -/
def cluster (g : Given) (side : Side) : List Char → Except UsageError Given
  | [] => .ok g
  | c :: rest =>
      match side.letters.lookup c with
      | none => .error .unknownArgument
      | some (.setting setting) => g.meet setting (attached rest)
      | some (.flag flag) => do
          let g ← g.raise flag
          g.cluster side rest

def isCommandName (word : String) : Bool := word = "help" || (Verb.ofName? word).isSome

/-- Read an argument. Before the verb there are none. -/
def argument (g : Given) (side : Side) (trailing : Bool) (arg : String) :
    Except UsageError Given :=
  if g.arguments.length < side.arity then do
    let g ← g.settle
    return { g with arguments := g.arguments ++ [arg] }
  else if side.isNone && !(trailing && isCommandName arg) then .error .badCommand
  else .error .unknownArgument

end Given

inductive Shape
  | dashes
  | word (name : String) (value : Option String)
  | letters (chars : List Char)
  | plain
  deriving DecidableEq, Repr

def shapeOf (arg : String) : Shape :=
  match arg.toList with
  | ['-', '-'] => .dashes
  | '-' :: '-' :: body =>
      let name := body.takeWhile (· ≠ '=')
      .word (String.ofList name)
        (if '=' ∈ body then some (String.ofList (body.drop (name.length + 1))) else none)
  | '-' :: c :: rest => .letters (c :: rest)
  | _ => .plain

def helpOn : List String → UsageError
  | [] => .help
  | [name] => if Given.isCommandName name then .help else .badCommand
  | _ => .badCommand

/-- Read one side, up to a verb if it is the side before it. -/
def readSide (side : Side) (trailing : Bool) (g : Given) :
    List String → Except UsageError (Given × Option (Verb × List String))
  | [] => .ok (g, none)
  | arg :: rest => do
      if trailing then
        let g ← g.argument side true arg
        readSide side true g rest
      else if side.isNone && !g.awaits && arg = "help" then throw (helpOn rest)
      else
        match if side.isNone && !g.awaits then Verb.ofName? arg else none with
        | some verb => return (g, some (verb, rest))
        | none =>
            match shapeOf arg with
            | .dashes => readSide side true g rest
            | .word name value =>
                let g ← g.word side name value
                readSide side false g rest
            | .letters chars =>
                let g ← g.cluster side chars
                readSide side false g rest
            | .plain =>
                if g.awaits then readSide side false (g.supply arg) rest
                else
                  let g ← g.argument side false arg
                  readSide side false g rest

def command (verb : Verb) (g : Given) : Except UsageError Command :=
  match verb, g.arguments with
  | .put, [key, value] => .ok (.put key value)
  | .get, [key] => .ok (.get key)
  | .has, [key] => .ok (.has key)
  | .delete, [key] => .ok (.delete key)
  | .stat, [property] => .ok (.stat property)
  | .scan, [] =>
      .ok (.scan (g.stem.getD "") (g.start.getD "") (g.limit.getD 20) g.values)
  | _, _ => .error .missingArgument

/-- Read a command line. The side behind the verb is finished before the other one. -/
def read (args : List String) : Except UsageError Invocation := do
  let (before, rest) ← readSide none false {} args
  match rest with
  | some (verb, rest) =>
      let (behind, _) ← readSide (some verb) false {} rest
      let behind ← behind.settle
      let command ← command verb behind
      let before ← before.settle
      return { command
               url := behind.db.or before.db
               config := behind.config.or before.config
               verbose := behind.verbose || before.verbose }
  | none =>
      let before ← before.settle
      if before.db.isSome || before.config.isSome || before.verbose then throw .noCommand
      throw .bare

end CommandLine

end KeyedBlocks
