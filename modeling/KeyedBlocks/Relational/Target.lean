import KeyedBlocks.Relational.FileUri
import KeyedBlocks.Relational.Location

/-!
What a connection opens. The name of a database may itself be an address with options, which come
after the settings of the connection and may narrow what these permit, but not widen it.
-/
namespace KeyedBlocks

/-- What may be done with a file. Each permission includes those before it. -/
inductive Permission
  | read
  | write
  | create
  deriving DecidableEq, Repr

def Permission.rank : Permission → Nat
  | read => 0
  | write => 1
  | create => 2

structure Target where
  path : String
  permission : Permission
  inMemory : Bool
  shared : Bool
  access : String := "unix"
  /-- Whether the name was an address. -/
  isUri : Bool := false
  immutable : Bool := false
  /-- Whether files are used without locks. -/
  lockless : Bool := false
  /-- A file whose permissions a new file is given. -/
  pattern : Option String := none
  deriving DecidableEq, Repr

namespace Target

/-- The ways to reach files that there are. The last keeps them in memory. -/
def accesses : List String := ["unix", "unix-none", "unix-dotfile", "unix-excl", "memdb"]

def noAccess (name : String) : Fault := .refused 1 ("no such vfs: " ++ name)

def noMode (kind name : String) : Fault := .refused 1 ("no such " ++ kind ++ " mode: " ++ name)

def modeNotAllowed (name : String) : Fault := .refused 3 ("access mode not allowed: " ++ name)

def badAuthority (name : String) : Fault := .refused 1 ("invalid uri authority: " ++ name)

def zeroInName : Fault := .unaskable "filename passed to SQLite must not contain nul bytes"

/-- The target with the permission asked for. In memory everything is permitted. -/
def allow (t : Target) (permission : Permission) (name : String) : Except Fault Target :=
  if t.inMemory || permission.rank ≤ t.permission.rank then
    .ok { t with permission, inMemory := false }
  else .error (modeNotAllowed name)

/-- Take one option into account. Options that are not known are passed over. -/
def withOption (t : Target) : String × String → Except Fault Target
  | (name, value) =>
      if name = "vfs" then .ok { t with access := value }
      else if name = "cache" then
        if value = "shared" then .ok { t with shared := true }
        else if value = "private" then .ok { t with shared := false }
        else .error (noMode "cache" value)
      else if name = "mode" then
        if value = "ro" then t.allow .read value
        else if value = "rw" then t.allow .write value
        else if value = "rwc" then t.allow .create value
        else if value = "memory" then .ok { t with permission := .create, inMemory := true }
        else .error (noMode "access" value)
      else .ok t

def withUri (t : Target) (u : FileUri) : Except Fault Target :=
  let options := u.options.map fun (name, value) =>
    (Utf8.decodeLenient name, Utf8.decodeLenient value)
  options.foldlM withOption
    { t with
      path := Utf8.decodeLenient u.path
      isUri := true
      immutable := u.isOn "immutable"
      lockless := u.isOn "nolock"
      pattern := (u.option? "modeof").map Utf8.decodeLenient }

/-- The address that a location with settings of its own is opened by. Spaces in it are written as
plus signs, which nobody takes for spaces again. -/
def uriOf (l : Location) : FileUri :=
  let access := l.access.toList.map fun name =>
    (Bytes.ofText "vfs", Bytes.ofText (name.map fun c => if c = ' ' then '+' else c))
  let immutable := if l.immutable then [(Bytes.ofText "immutable", Bytes.ofText "true")] else []
  { path := (Bytes.ofText l.path).takeWhile (· ≠ 0)
    options := (immutable ++ access).map fun (name, value) => (name, value.takeWhile (· ≠ 0)) }

def uri? (l : Location) : Except Fault (Option FileUri) :=
  let path := Bytes.ofText l.path
  if l.immutable || l.access.isSome then .ok (some (uriOf l))
  else if 0 ∈ path then .error zeroInName
  else if FileUri.scheme.isPrefixOf path then
    match FileUri.ofBytes (path.drop FileUri.scheme.length) with
    | .ok u => .ok (some u)
    | .error authority => .error (badAuthority (Utf8.decodeLenient authority))
  else .ok none

def ofLocation (l : Location) : Except Fault Target := do
  let t : Target :=
    { path := l.path
      permission := if l.readOnly then .read else .create
      inMemory := l.inMemory
      shared := l.shared }
  let u ← uri? l
  let t ← (u.map t.withUri).getD (.ok t)
  if t.access ∉ accesses then throw (noAccess t.access)
  return t

/-! Where the tables are -/

/-- Whether the tables are in memory for good. -/
def isMemory (t : Target) : Bool := t.path = ":memory:" || t.inMemory

/-- Whether the tables are in a file, of the system or in memory. Without a name they are in none.
-/
def hasFile (t : Target) : Bool := !t.isMemory && t.path ≠ ""

def isOnDisk (t : Target) : Bool := t.hasFile && t.access ≠ "memdb"

def isReadOnly (t : Target) : Bool := t.permission = .read || (t.hasFile && t.immutable)

/-- Whether the name of a file in memory is one under which all connections find it. -/
def isRooted (t : Target) : Bool :=
  match t.path.toList with
  | c :: _ :: _ => c = '/' || c = '\\'
  | _ => false

def isCommon (t : Target) : Bool :=
  t.isOnDisk || (t.path ≠ "" && if t.isMemory then t.isUri && t.shared else t.shared || t.isRooted)

end Target

end KeyedBlocks
