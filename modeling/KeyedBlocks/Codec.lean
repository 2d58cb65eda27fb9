import KeyedBlocks.KeyError

/-!
The content types that an address can carry, and the hash functions that a digest can come from,
with their codes in the multicodec table.
-/
namespace KeyedBlocks

inductive Codec
  | raw | dagPb | dagCbor | ethBlock | ethBlockList | ethTxTrie | ethTx | ethTxReceiptTrie
  | ethTxReceipt | ethStateTrie | ethAccountSnapshot | ethStorageTrie | ethReceiptLogTrie
  | ethReceiptLog
  deriving DecidableEq, Repr

namespace Codec

def all : List Codec :=
  [raw, dagPb, dagCbor, ethBlock, ethBlockList, ethTxTrie, ethTx, ethTxReceiptTrie, ethTxReceipt,
   ethStateTrie, ethAccountSnapshot, ethStorageTrie, ethReceiptLogTrie, ethReceiptLog]

instance : Inhabited Codec := ⟨ethStateTrie⟩

def code : Codec → Nat
  | raw => 0x55
  | dagPb => 0x70
  | dagCbor => 0x71
  | ethBlock => 0x90
  | ethBlockList => 0x91
  | ethTxTrie => 0x92
  | ethTx => 0x93
  | ethTxReceiptTrie => 0x94
  | ethTxReceipt => 0x95
  | ethStateTrie => 0x96
  | ethAccountSnapshot => 0x97
  | ethStorageTrie => 0x98
  | ethReceiptLogTrie => 0x99
  | ethReceiptLog => 0x9a

def name : Codec → String
  | raw => "raw"
  | dagPb => "dag-pb"
  | dagCbor => "dag-cbor"
  | ethBlock => "eth-block"
  | ethBlockList => "eth-block-list"
  | ethTxTrie => "eth-tx-trie"
  | ethTx => "eth-tx"
  | ethTxReceiptTrie => "eth-tx-receipt-trie"
  | ethTxReceipt => "eth-tx-receipt"
  | ethStateTrie => "eth-state-trie"
  | ethAccountSnapshot => "eth-account-snapshot"
  | ethStorageTrie => "eth-storage-trie"
  | ethReceiptLogTrie => "eth-receipt-log-trie"
  | ethReceiptLog => "eth-receipt-log"

def debugText : Codec → String
  | raw => "Raw"
  | dagPb => "DagPb"
  | dagCbor => "DagCbor"
  | ethBlock => "EthBlock"
  | ethBlockList => "EthBlockList"
  | ethTxTrie => "EthTxTrie"
  | ethTx => "EthTx"
  | ethTxReceiptTrie => "EthTxReceiptTrie"
  | ethTxReceipt => "EthTxReceipt"
  | ethStateTrie => "EthStateTrie"
  | ethAccountSnapshot => "EthAccountSnapshot"
  | ethStorageTrie => "EthStorageTrie"
  | ethReceiptLogTrie => "EthReceiptLogTrie"
  | ethReceiptLog => "EthReceiptLog"

def ofName? (text : String) : Option Codec := all.find? (·.name = text)

def ofName (text : String) : Except KeyError Codec :=
  match ofName? text with
  | some codec => .ok codec
  | none => .error (.unknownCodec text)

end Codec

inductive HashFunction
  /-- The payload stands for itself. -/
  | identity
  | keccak256
  deriving DecidableEq, Repr

namespace HashFunction

def all : List HashFunction := [identity, keccak256]

def code : HashFunction → Nat
  | identity => 0x00
  | keccak256 => 0x1b

def name : HashFunction → String
  | identity => "identity"
  | keccak256 => "keccak-256"

def debugText : HashFunction → String
  | identity => "Identity"
  | keccak256 => "Keccak256"

def ofName? (text : String) : Option HashFunction := all.find? (·.name = text)

end HashFunction

end KeyedBlocks
