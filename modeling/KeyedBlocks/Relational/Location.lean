import KeyedBlocks.Error
import KeyedBlocks.Text.Percent
import KeyedBlocks.Text.Quoted

/-!
Addresses of databases in files: `sqlite:`, a path or `:memory:`, and parameters after a question
mark. A path may be written with percent signs.
-/
namespace KeyedBlocks

structure Location where
  path : String
  inMemory : Bool := false
  /-- Whether connections share what they hold of the database. -/
  shared : Bool := false
  /-- Only to be read. A file that is missing is then not made. -/
  readOnly : Bool := false
  /-- Taken to be beyond change, which forbids changing it. -/
  immutable : Bool := false
  /-- The way to reach files, by the name that the system gives it. -/
  access : Option String := none
  deriving DecidableEq, Repr

namespace Location

def stripAll (word : List Char) : Nat → List Char → List Char
  | 0, text => text
  | fuel + 1, text =>
      if !word.isEmpty && word.isPrefixOf text then stripAll word fuel (text.drop word.length)
      else text

/-- The address without its scheme, which may be written more than once. -/
def stripScheme (url : String) : List Char :=
  let text := url.toList
  let text := stripAll "sqlite://".toList text.length text
  stripAll "sqlite:".toList text.length text

def badValue (value parameter : String) : Fault :=
  .settings (.plain ("unknown value " ++ Quoted.text value ++ " for `" ++ parameter ++ "`"))

def badParameter (name : String) : Fault :=
  .settings
    (.plain ("unknown query parameter `" ++ name ++ "` while parsing connection URL"))

/-- A database in memory that goes by a name of its own, under which all connections find it. -/
def memory : Location := { path := "file:memory", inMemory := true, shared := true }

def ofPath (path : String) : Except Fault Location :=
  if path = ":memory:" then .ok memory
  else
    match Percent.decode path with
    | .ok path => .ok { path }
    | .error e => .error (.settings (.plain e.message))

def withParameter (l : Location) : String × String → Except Fault Location
  | (name, value) =>
      if name = "mode" then
        if value = "ro" then .ok { l with readOnly := true }
        else if value = "rw" ∨ value = "rwc" then .ok l
        else if value = "memory" then .ok { l with inMemory := true, shared := true }
        else .error (badValue value name)
      else if name = "cache" then
        if value = "private" then .ok { l with shared := false }
        else if value = "shared" then .ok { l with shared := true }
        else .error (badValue value name)
      else if name = "immutable" then
        if value = "true" ∨ value = "1" then .ok { l with immutable := true }
        else if value = "false" ∨ value = "0" then .ok { l with immutable := false }
        else .error (badValue value name)
      else if name = "vfs" then .ok { l with access := some value }
      else .error (badParameter name)

/-- Read an address. The path is read before the parameters, and these from left to right. -/
def ofUrl (url : String) : Except Fault Location := do
  let text := stripScheme url
  let path := text.takeWhile (· ≠ '?')
  let l ← ofPath (String.ofList path)
  (Percent.parameters (String.ofList (text.drop (path.length + 1)))).foldlM withParameter l

end Location

end KeyedBlocks
