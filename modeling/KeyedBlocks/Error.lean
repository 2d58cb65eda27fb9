import KeyedBlocks.Duration
import KeyedBlocks.KeyError

/-!
Why an operation of the database failed, and the text of each cause. A fault of a backend keeps
its own chain of causes, outermost first.
-/
namespace KeyedBlocks

inductive Fault
  /-- A fault that was asked for. -/
  | injected (detail : String)
  /-- The database refused a statement. -/
  | refused (code : Nat) (detail : String)
  /-- The connection settings are unusable. -/
  | settings (cause : Fault)
  /-- The connections have been closed. -/
  | closedPool
  /-- No connection came about in the time allowed. -/
  | noConnection
  /-- A connection broke down while it was made. -/
  | brokenConnection
  /-- The database could not even be asked. -/
  | unaskable (detail : String)
  /-- A cause that has no more to it than its text. -/
  | plain (detail : String)
  deriving DecidableEq, Repr

namespace Fault

def message : Fault → String
  | injected detail => "injected fault: " ++ detail
  | refused code detail =>
      "error returned from database: (code: " ++ toString code ++ ") " ++ detail
  | settings cause => "error with configuration: " ++ cause.message
  | closedPool => "attempted to acquire a connection on a closed pool"
  | noConnection => "pool timed out while waiting for an open connection"
  | brokenConnection => "attempted to communicate with a crashed background worker"
  | unaskable detail => "error communicating with database: " ++ detail
  | plain detail => detail

def chain : Fault → List String
  | refused code detail =>
      [(refused code detail).message, "(code: " ++ toString code ++ ") " ++ detail]
  | settings cause => (settings cause).message :: cause.chain
  | unaskable detail => [(unaskable detail).message, detail]
  | fault => [fault.message]

end Fault

inductive Bucket
  | put
  | delete
  deriving DecidableEq, Repr

def Bucket.name : Bucket → String
  | .put => "put"
  | .delete => "delete"

inductive StoreError
  | malformedDigest (expected actual : Nat)
  | classification (detail : String)
  | encoding (detail : String)
  | notFound (key : String)
  /-- A batch was full and gave up a pending entry; the new entry is buffered all the same. -/
  | evicted (bucket : Bucket) (key : String)
  | backend (name : String) (fault : Fault)
  | unsupported (operation : String)
  | timeout (key : String) (after : Duration)
  | config (detail : String)
  deriving DecidableEq, Repr

namespace StoreError

def message : StoreError → String
  | malformedDigest expected actual => (KeyError.malformedDigest expected actual).message
  | classification detail => "key classification failed: " ++ detail
  | encoding detail => "address encoding failed: " ++ detail
  | notFound key => "not found: " ++ key
  | evicted bucket key =>
      "batch " ++ bucket.name ++ " buffer evicted pending entry for key " ++ key
  | backend name fault => name ++ " backend error: " ++ fault.message
  | unsupported operation => "operation not supported: " ++ operation
  | timeout key after => "fetch for " ++ key ++ " timed out after " ++ after.text
  | config detail => "configuration error: " ++ detail

def cause? : StoreError → Option String
  | backend _ fault => some fault.message
  | _ => none

/-- The messages of an error and of its causes, outermost first. -/
def chain : StoreError → List String
  | backend name fault => (backend name fault).message :: fault.chain
  | e => [e.message]

/-- A warning leaves the operation applied. -/
def isWarning : StoreError → Bool
  | evicted .. => true
  | _ => false

def isNotFound : StoreError → Bool
  | notFound _ => true
  | _ => false

def ofKeyError : KeyError → StoreError
  | .malformedDigest expected actual => malformedDigest expected actual
  | .invalidHex detail => classification (KeyError.invalidHex detail).message
  | .unclassifiable key parts => classification (KeyError.unclassifiable key parts).message
  | .encoding detail => encoding detail
  | .unknownCodec name => config (KeyError.unknownCodec name).message

end StoreError

def liftKey {α : Type} (result : Except KeyError α) : Except StoreError α :=
  result.mapError .ofKeyError

end KeyedBlocks
