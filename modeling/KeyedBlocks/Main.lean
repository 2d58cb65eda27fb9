import KeyedBlocks.Command.Run
import KeyedBlocks.Relational.Snapshot

/-!
The program: it reads the files that an invocation names, runs it, prints its report and puts the
tables back. Everything is decided by the definitions that it calls.
-/
namespace KeyedBlocks.Program

def usage : String :=
  "Usage: keyedblocks [--db URL] [--config FILE] [-v] COMMAND\n\n" ++
  "Commands:\n" ++
  "  put KEY VALUE    store a value under a key\n" ++
  "  get KEY          print the value stored under a key\n" ++
  "  has KEY          check whether a key is present\n" ++
  "  delete KEY       remove a key\n" ++
  "  scan             list keys in byte order\n" ++
  "                   [--prefix KEY] [--start KEY] [-n LIMIT] [--values]\n" ++
  "  stat PROPERTY    report a database property\n"

def explanation : UsageError → String
  | .help | .version | .bare => ""
  | .noCommand => "a command is missing"
  | .badCommand => "there is no such command"
  | .unknownArgument => "unexpected argument"
  | .missingArgument => "an argument is missing"
  | .missingValue => "an option has no value"
  | .badValue => "an option has an invalid value"
  | .surplusValue => "a flag takes no value"
  | .repeated => "an option cannot be used more than once"

def refuse : UsageError → IO UInt32
  | .help => do
      IO.print usage
      return 0
  | .version => do
      IO.println "keyedblocks 0.1.0"
      return 0
  | .bare => do
      IO.eprint usage
      return 2
  | e => do
      IO.eprint ("error: " ++ explanation e ++ "\n\n" ++ usage)
      return 2

/-- The code of a path that leads through something that is no directory. -/
def notDirectoryCode : UInt32 := 20

/-- The code of a name that is longer than a file system allows. -/
def nameTooLongCode : UInt32 := 36

/-- Codes are reported as they are or with their sign turned. -/
def isCode (code known : UInt32) : Bool :=
  code = known || code = 0 - known

def fileError : IO.Error → FileError
  | .inappropriateType _ code _ =>
      if isCode code notDirectoryCode then .notDirectory else .isDirectory
  | .invalidArgument _ code _ =>
      if isCode code nameTooLongCode then .nameTooLong else .missing
  | .permissionDenied .. => .denied
  | _ => .missing

def readText (path : String) : IO (Except FileError String) := do
  try
    let data ← IO.FS.readBinFile path
    return (String.fromUTF8? data).elim (.error .notText) .ok
  catch e => return .error (fileError e)

/-- Look for the file of a target. If there is none and there may be one, it is tried out whether it
can be made. -/
def readDatabase (t : Target) : IO DatabaseFiles := do
  let main ←
    match ← readText t.path with
    | .ok text => pure ((Snapshot.decode? text).elim .foreign .tables)
    | .error .notText => pure .foreign
    | .error .isDirectory => pure .directory
    | .error .missing =>
        if t.permission ≠ .create then pure .missing
        else
          try
            IO.FS.writeFile t.path ""
            pure .missing
          catch _ => pure .unreachable
    | .error _ => pure .unreachable
  return { main }

def readFiles (i : Invocation) : IO Files := do
  let text ←
    match i.config with
    | some path => readText path
    | none => pure (.error .missing)
  let unread : Files := ⟨fun _ => text, fun _ => { main := .missing }, fun _ => true⟩
  match (i.target? unread).filter Target.isOnDisk with
  | none => return unread
  | some t =>
      let found ← readDatabase t
      let hasPattern ←
        match t.pattern with
        | some path => pure !((← readText path) matches .error .missing)
        | none => pure true
      return ⟨fun _ => text, fun _ => found, fun _ => hasPattern⟩

/-- Make a change to files. This program leaves nothing beside them, so there is nothing to drop. -/
def carryOutChange : FileChange → IO Unit
  | .create path => IO.FS.writeFile path ""
  | .save path tables => IO.FS.writeFile path (Snapshot.encode tables)
  | .dropJournal _ | .dropLog _ => pure ()

def failureText : List String → String
  | [] => ""
  | [message] => "Error: " ++ message ++ "\n"
  | message :: causes =>
      "Error: " ++ message ++ "\n\nCaused by:\n" ++
        String.join (causes.map fun cause => "    " ++ cause ++ "\n")

def carryOut (i : Invocation) : IO UInt32 := do
  let out ← IO.getStdout
  let result := i.run (← out.isTty) (← readFiles i)
  result.changes.forM carryOutChange
  out.putStr result.report.out
  out.flush
  IO.eprint (failureText result.report.errors)
  return if result.report.errors.isEmpty then 0 else 1

end KeyedBlocks.Program

def main (args : List String) : IO UInt32 :=
  match KeyedBlocks.CommandLine.read args with
  | .ok invocation => KeyedBlocks.Program.carryOut invocation
  | .error e => KeyedBlocks.Program.refuse e
