import KeyedBlocks.Error
import KeyedBlocks.Text.Decimal
import KeyedBlocks.Text.Parts
import KeyedBlocks.Text.Percent
import KeyedBlocks.Text.Quoted

/-!
Addresses of database servers: user and password, host and port, a path, and parameters. Only what
makes an address unusable is looked at here.
-/
namespace KeyedBlocks

inductive ServerUrlError
  | emptyHost
  | badIpv6
  | badHostCharacter
  | badPort
  deriving DecidableEq, Repr

def ServerUrlError.message : ServerUrlError → String
  | .emptyHost => "empty host"
  | .badIpv6 => "invalid IPv6 address"
  | .badHostCharacter => "invalid domain character"
  | .badPort => "invalid port number"

/-- The parts of a server's address that can be at fault, still written with percent signs. -/
structure ServerUrl where
  user : String
  password : String
  host : String
  /-- The path, without the slash at its beginning. -/
  path : String
  query : String
  deriving DecidableEq, Repr

/-! Hosts given by number -/

namespace Ipv6

def isHexDigit (c : Char) : Bool :=
  ('0' ≤ c && c ≤ '9') || ('a' ≤ c && c ≤ 'f') || ('A' ≤ c && c ≤ 'F')

/-- A number below 256 without needless zeros. -/
def isByte (digits : List Char) : Bool :=
  !digits.isEmpty && digits.all Char.isDigit && (digits.length = 1 || digits.head? ≠ some '0') &&
    Decimal.ofDigits digits < 256

def isIpv4 (text : List Char) : Bool :=
  let parts := Parts.splitAt '.' text
  parts.length = 4 && parts.all isByte

/-- Read groups; `groups` are there already, and `gap` tells whether a run of zeros was left out. -/
def groupsFrom : Nat → Nat → Bool → List Char → Bool
  | 0, _, _, _ => false
  | fuel + 1, groups, gap, text =>
      match text with
      | [] => gap || groups = 8
      | ':' :: rest => groups ≠ 8 && !gap && groupsFrom fuel (groups + 1) true rest
      | _ =>
          let digits := (text.take 4).takeWhile isHexDigit
          match text.drop digits.length with
          | [] => groups ≠ 8 && (gap || groups + 1 = 8)
          | '.' :: _ =>
              !digits.isEmpty && groups ≤ 6 && isIpv4 text && (gap || groups + 2 = 8)
          | ':' :: rest => groups ≠ 8 && !rest.isEmpty && groupsFrom fuel (groups + 1) gap rest
          | _ => false

/-- Eight groups of hexadecimal digits. Two colons stand for groups left out, and the last two
groups may be written as four numbers. -/
def isValid (text : List Char) : Bool :=
  match text with
  | [] | [_] => false
  | ':' :: ':' :: rest => groupsFrom (rest.length + 1) 1 true rest
  | ':' :: _ => false
  | _ => groupsFrom (text.length + 1) 0 false text

end Ipv6

namespace ServerUrl

def endsAuthority (c : Char) : Bool := c = '/' || c = '?' || c = '#'

def splitLast? (mark : Char) (text : List Char) : Option (List Char × List Char) :=
  if mark ∈ text then
    let after := (text.reverse.takeWhile (· ≠ mark)).reverse
    some (text.take (text.length - after.length - 1), after)
  else none

def forbiddenInHost : List Char :=
  ['\x00', '\t', '\n', '\r', ' ', '#', '/', ':', '<', '>', '?', '@', '[', '\\', ']', '^', '|']

def checkHost (host : List Char) : Except ServerUrlError Unit :=
  match host with
  | '[' :: inner =>
      if inner.getLast? = some ']' ∧ Ipv6.isValid inner.dropLast then .ok ()
      else .error .badIpv6
  | _ => if host.any (· ∈ forbiddenInHost) then .error .badHostCharacter else .ok ()

/-- Divide host and port. A colon between square brackets belongs to the host. -/
def splitPort : Bool → List Char → List Char × List Char
  | _, [] => ([], [])
  | inside, c :: rest =>
      if c = ':' && !inside then ([], c :: rest)
      else
        let (host, port) := splitPort (c = '[' || (inside && c ≠ ']')) rest
        (c :: host, port)

/-- A port has decimal digits only and is a number of 16 bits. It may be empty. -/
def checkPort (digits : List Char) : Except ServerUrlError Unit :=
  if digits.all Char.isDigit && Decimal.ofDigits digits < Nat.pow 2 16 then .ok ()
  else .error .badPort

/-! Paths -/

/-- Percent signs that spell a dot are read. -/
def readDots : List Char → List Char
  | '%' :: '2' :: 'e' :: rest => '.' :: readDots rest
  | '%' :: '2' :: 'E' :: rest => '.' :: readDots rest
  | c :: rest => c :: readDots rest
  | [] => []

/-- A letter before a colon or a bar, which names a drive. -/
def isDrive : List Char → Bool
  | [letter, mark] => letter.isAlpha && (mark = ':' || mark = '|')
  | _ => false

/-- The directories that are left after a step up. A drive is not left. -/
def stepUp (directories : List (List Char)) : List (List Char) :=
  if isDrive (directories.getLast?.getD []) then directories else directories.dropLast

/-- Follow the segments of a path: a dot stays, two dots step up. The last segment is no directory
but is what the path leads to. -/
def follow (directories : List (List Char)) : List (List Char) → List (List Char)
  | [] => directories
  | [last] =>
      if readDots last = ['.'] then directories ++ [[]]
      else if readDots last = ['.', '.'] then stepUp directories ++ [[]]
      else directories ++ [last]
  | segment :: rest =>
      if readDots segment = ['.'] then follow directories rest
      else if readDots segment = ['.', '.'] then follow (stepUp directories) rest
      else follow (directories ++ [segment]) rest

/-- A path without dots that lead anywhere. A slash at its beginning is left out. -/
def plainPath : List Char → List Char
  | '/' :: rest => Parts.join '/' (follow [] (Parts.splitAt '/' rest))
  | path => Parts.join '/' (follow [] (Parts.splitAt '/' path))

/-! Reading -/

/-- Read an address. `authority` is the part between the two slashes and whatever ends it, and
`behind` is the rest. A backslash ends a port and begins the path then. -/
def ofParts (authority behind : List Char) : Except ServerUrlError ServerUrl := do
  let (login, rest) := (splitLast? '@' authority).getD ([], authority)
  if authority.head? = some '@' && login.isEmpty && rest.isEmpty && !behind.isEmpty then
    throw .emptyHost
  let user := login.takeWhile (· ≠ ':')
  let password := login.drop (user.length + 1)
  let (host, port) := splitPort false rest
  let digits := (port.drop 1).takeWhile (· ≠ '\\')
  checkHost host
  if host.isEmpty && !port.isEmpty then throw .emptyHost
  checkPort digits
  if host.isEmpty && !(user.isEmpty && password.isEmpty) then throw .emptyHost
  let behind := port.drop (1 + digits.length) ++ behind
  let path := behind.takeWhile fun c => c ≠ '?' && c ≠ '#'
  let query := ((behind.drop path.length).takeWhile (· ≠ '#')).drop 1
  return ⟨String.ofList user, String.ofList password, String.ofList host,
    String.ofList (plainPath path), String.ofList query⟩

/-- Control characters and spaces around an address are dropped, and line breaks and tabs in it. -/
def clean (url : String) : List Char :=
  let isBlank (c : Char) : Bool := c.toNat ≤ 0x20
  let text := ((url.toList.dropWhile isBlank).reverse.dropWhile isBlank).reverse
  text.filter fun c => c ≠ '\t' && c ≠ '\n' && c ≠ '\r'

def ofText (url : String) : Except ServerUrlError ServerUrl :=
  let text := ((clean url).dropWhile (· ≠ '/')).drop 2
  let authority := text.takeWhile fun c => !endsAuthority c
  ofParts authority (text.drop authority.length)

/-! Settings in an address -/

def numberFault? (limit : Nat) (text : String) : Option Fault :=
  match Decimal.natBelow limit text with
  | .ok _ => none
  | .error e => some (.plain e.message)

def encryptionModes : List String :=
  ["disable", "allow", "prefer", "require", "verify-ca", "verify-full"]

/-- What is wrong with a parameter, if anything. Parameters that are not known are passed over. -/
def parameterFault? (name value : String) : Option Fault :=
  if name = "sslmode" ∨ name = "ssl-mode" then
    if value.map Char.toLower ∈ encryptionModes then none
    else some (.settings (.plain ("unknown value " ++ Quoted.text value ++ " for `ssl_mode`")))
  else if name = "statement-cache-capacity" then numberFault? (Nat.pow 2 64) value
  else if name = "port" then numberFault? (Nat.pow 2 16) value
  else if name = "hostaddr" then
    if Ipv6.isIpv4 value.toList || Ipv6.isValid value.toList then none
    else some (.plain "invalid IP address syntax")
  else none

/-- The texts that have to be UTF-8 once their percent signs are read, in the order in which they
are read. A host is one of them only if it is the path of a socket; the path names a database, and
slashes before the name do not count. -/
def encodedParts (u : ServerUrl) : List String :=
  let socket := (Percent.decodeBytes (Bytes.ofText u.host)).head? = some 0x2f
  let name := String.ofList (u.path.toList.dropWhile (· = '/'))
  (if socket then [u.host] else []) ++ [u.user, u.password, name]

/-- The settings that an address stands for are usable, or the first fault in them. -/
def check (u : ServerUrl) : Except Fault Unit := do
  for part in u.encodedParts do
    match Percent.decode part with
    | .ok _ => pure ()
    | .error e => throw (.settings (.plain e.message))
  for (name, value) in Percent.parameters u.query do
    match parameterFault? name value with
    | some fault => throw (.settings fault)
    | none => pure ()

/-- Why a server cannot be connected to: its address is unusable, or nobody answers there. -/
def fault (url : String) : Fault :=
  match ofText url with
  | .error e => .settings (.plain e.message)
  | .ok u =>
      match u.check with
      | .error fault => fault
      | .ok _ => .noConnection

end ServerUrl

end KeyedBlocks
