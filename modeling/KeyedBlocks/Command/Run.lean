import KeyedBlocks.Command.Arguments
import KeyedBlocks.Command.Style
import KeyedBlocks.Config.Toml
import KeyedBlocks.Relational.Connection

/-!
Carrying out a command: settings are read, a database is connected to, and the command is done
there. What has been printed stays printed when something fails later on.
-/
namespace KeyedBlocks

/-- What a command printed, and the messages of its failure, outermost first. -/
structure Report where
  out : String := ""
  errors : List String := []
  deriving DecidableEq, Repr

namespace Report

def line (text : String) : Report := { out := text ++ "\n" }

def failure (errors : List String) : Report := { errors }

def ofError (e : StoreError) : Report := failure e.chain

end Report

def hexArgument (arg : String) : Except Report Bytes :=
  match Hex.decode (Hex.stripMark arg) with
  | .ok data => .ok data
  | .error e => .error (.failure ["invalid hex: " ++ arg, e.message])

namespace Command

/-- The line of a key, with its value behind it if that was asked for and could be read. -/
def visitLine? (color : Bool) (visit : Visit) : Option String :=
  let key := Style.yellow.paint color (Hex.encode visit.key)
  match visit.value with
  | none => some key
  | some (.ok value) => some (key ++ " " ++ Hex.encode value)
  | some (.error _) => none

def scanReport (color : Bool) (last : Cursor) (visits : List Visit) : Report :=
  let printed := String.join ((visits.filterMap (visitLine? color)).map (· ++ "\n"))
  match last.error? with
  | some e => { out := printed, errors := e.chain }
  | none =>
      let count := toString visits.length ++ " keys"
      { out := printed ++ Style.dimmed.paint color count ++ "\n" }

variable (color : Bool) (d : SqlDatabase) (s : Site Relational)

def runPut (key value : Bytes) : Site Relational × Report :=
  match d.handle.putRaw s key value, d.handle.address key with
  | (s, .ok ()), .ok a =>
      (s, .line (Style.boldGreen.paint color "✓" ++ " Stored " ++ toString value.length ++
        " bytes at " ++ Style.cyan.paint color a.text))
  | (s, .error e), _ => (s, .ofError e)
  | (s, .ok ()), .error e => (s, .ofError e)

def runGet (key : Bytes) : Site Relational × Report :=
  match d.handle.getRaw s key with
  | (s, .ok value) => (s, .line (Hex.encode value))
  | (s, .error e) =>
      (s, if e.isNotFound then .line (Style.yellow.paint color "not found") else .ofError e)

def runHas (key : Bytes) : Site Relational × Report :=
  match d.handle.hasRaw s key with
  | (s, .ok true) => (s, .line (Style.green.paint color "present"))
  | (s, .ok false) => (s, .line (Style.yellow.paint color "absent"))
  | (s, .error e) => (s, .ofError e)

/-- Delete a key; `arg` is the argument that it was read from. -/
def runDelete (arg : String) (key : Bytes) : Site Relational × Report :=
  match d.handle.deleteRaw s key with
  | (s, .ok ()) =>
      (s, .line (Style.boldGreen.paint color "✓" ++ " Deleted " ++ Style.bold.paint color arg))
  | (s, .error e) => (s, .ofError e)

def runStat (property : String) : Site Relational × Report :=
  match SqlDatabase.stat s property with
  | .ok value => (s, .line (Style.bold.paint color property ++ " = " ++ value))
  | .error e => (s, .ofError e)

def run (c : Command) : Site Relational × Report :=
  let result : Except Report (Site Relational × Report) :=
    match c with
    | .put key value => do
        let key ← hexArgument key
        let value ← hexArgument value
        return runPut color d s key value
    | .get key => do return runGet color d s (← hexArgument key)
    | .has key => do return runHas color d s (← hexArgument key)
    | .delete key => do return runDelete color d s key (← hexArgument key)
    | .scan stem start limit values => do
        let stem ← hexArgument stem
        let start ← hexArgument start
        let (last, visits) := d.walk s.backend values limit (d.iterate stem start)
        return (s, scanReport color last visits)
    | .stat property => .ok (runStat color s property)
  match result with
  | .ok answer => answer
  | .error report => (s, report)

end Command

namespace Invocation

/-- The settings of an invocation: those of its file or the usual ones, and the address on the
command line before any other. -/
def settings (i : Invocation) (files : Files) : Except Report SqlConfig := do
  let config ←
    match i.config with
    | none => pure {}
    | some path =>
        match files.text path with
        | .error e => throw (.failure ["failed to read " ++ path, e.message])
        | .ok document =>
            match SqlConfig.read document with
            | .error e => throw (.failure [e.message])
            | .ok config => pure config
  return { config with url := i.url.getD config.url }

/-- What an invocation opens, if it comes that far. -/
def target? (i : Invocation) (files : Files) : Option Target :=
  match i.settings files with
  | .error _ => none
  | .ok config =>
      if config.check.isOk && !config.isPostgres then (Connection.target config).toOption else none

structure Result where
  report : Report
  changes : List FileChange
  deriving DecidableEq, Repr

def runOn (i : Invocation) (color : Bool) (d : SqlDatabase) (c : Connection) : Result :=
  let site : Site Relational := ⟨c.database, .create d.config.store.cache, 0⟩
  let (site, report) := i.command.run color d site
  ⟨report, c.changes site.backend.tables⟩

def run (i : Invocation) (color : Bool) (files : Files) : Result :=
  match i.settings files with
  | .error report => ⟨report, []⟩
  | .ok config =>
      match Connection.connect files config with
      | (changes, .error e) => ⟨.failure ("failed to open database" :: e.chain), changes⟩
      | (changes, .ok (d, c)) =>
          let result := i.runOn color d c
          { result with changes := changes ++ result.changes }

end Invocation

end KeyedBlocks
