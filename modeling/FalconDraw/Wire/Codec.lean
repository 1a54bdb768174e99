/-
FalconDraw.Wire.Codec — transactions, blocks and the block message as bytes
(wire/common.go, msgtx.go, blockheader.go, msgblock.go, message.go).

Encoders are the bytes they write. Decoders are readers, which give up their place
in the input when they fail (`discardInput` is not modelled).
-/
import FalconDraw.Lib.Reader
import FalconDraw.Lib.Sha256
import FalconDraw.Wire.Types

namespace FalconDraw.Wire

open Lib

inductive WireError where
  | eof
  | unexpectedEOF
  | message (func description : String)
  | superfluousWitnessRecord
  /-- A command other than `block`: another message, or an error about it. -/
  | otherCommand (command : Bytes)
deriving DecidableEq, Repr

inductive MessageEncoding where
  | base
  | witness
deriving DecidableEq, Repr

/-! ## Limits -/

def maxMessagePayload : Nat := 1024 * 1024 * 32

def maxProtocolMessageLength : Nat := 4 * 1000 * 1000

def messageHeaderSize : Nat := 24

def commandSize : Nat := 12

def minTxInPayload : Nat := 9 + 32

def maxTxInPerMessage : Nat := maxMessagePayload / minTxInPayload + 1

def maxTxOutPerMessage : Nat := maxMessagePayload / minTxOutPayload + 1

def minTxPayload : Nat := 10

def maxBlockPayload : Nat := 5000000

def maxTxPerBlock : Nat := maxBlockPayload / minTxPayload + 1

def maxWitnessItemsPerInput : Nat := 4000000

def maxWitnessItemSize : Nat := 4000000

def scriptSlabSize : Nat := 2 ^ 22

def txFlagMarker : Nat := 0

def witnessFlag : UInt8 := 1

/-! ## Integers and byte strings -/

def readBytes (n : Nat) : Reader WireError Bytes :=
  readFull (fun input => if input.isEmpty then .eof else .unexpectedEOF) n

/-- The little-endian value of the next `n` bytes. -/
def readUint (n : Nat) : Reader WireError Nat := do
  let buf ← readBytes n
  return leNat buf

def readHash : Reader WireError Hash := do
  let buf ← readBytes 32
  return Hash.ofBytes buf

def uint32Bytes (n : Int) : Bytes := leBytes 4 (n % 2 ^ 32).toNat

/-- `%x` of a number. -/
def hex (n : Nat) : String := String.ofList (Nat.toDigits 16 n)

/-- One of the three longer forms of `ReadVarIntBuf`. -/
def readVarIntTail (discriminant size min : Nat) : Reader WireError Nat := do
  let rv ← readUint size
  failIf (rv < min) (.message "ReadVarInt" ("non-canonical varint " ++ hex rv ++
    " - discriminant " ++ hex discriminant ++ " must encode a value greater than " ++ hex min))
  return rv

def readVarIntBuf : Reader WireError Nat := do
  let discriminant ← readUint 1
  if discriminant = 0xff then readVarIntTail discriminant 8 0x100000000
  else if discriminant = 0xfe then readVarIntTail discriminant 4 0x10000
  else if discriminant = 0xfd then readVarIntTail discriminant 2 0xfd
  else return discriminant

def writeVarBytesBuf (bytes : Bytes) : Bytes := varInt bytes.length ++ bytes

/-- `readScriptBuf` into a slab with `slab` bytes left. -/
def readScriptBuf (slab : Nat) (fieldName : String) : Reader WireError Bytes := do
  let count ← readVarIntBuf
  failIf (maxWitnessItemSize < count) (.message "readScript" (fieldName ++
    " is larger than the max allowed size [count " ++ toString count ++ ", max " ++
    toString maxWitnessItemSize ++ "]"))
  failIf (slab < count) (.message "readScript" (fieldName ++
    " exceeds remaining buffer capacity [count " ++ toString count ++ ", remaining " ++
    toString slab ++ "]"))
  readBytes count

/-! ## Transactions -/

def writeOutPointBuf (op : OutPoint) : Bytes := Hash.toBytes op.hash ++ uint32Bytes op.index

def readOutPointBuf : Reader WireError OutPoint := do
  let hash ← readHash
  let index ← readUint 4
  return ⟨hash, index⟩

def writeTxInBuf (ti : TxIn) : Bytes :=
  writeOutPointBuf ti.previousOutPoint ++ (writeVarBytesBuf ti.signatureScript ++
    uint32Bytes ti.sequence)

def readTxInBuf (slab : Nat) : Reader WireError TxIn := do
  let previousOutPoint ← readOutPointBuf
  let signatureScript ← readScriptBuf slab "transaction input signature script"
  let sequence ← readUint 4
  return { previousOutPoint, signatureScript, sequence }

def writeTxOutBuf (out : TxOut) : Bytes :=
  leBytes 8 out.value.toUInt64.toNat ++ writeVarBytesBuf out.pkScript

def readTxOutBuf (slab : Nat) : Reader WireError TxOut := do
  let value ← readUint 8
  let pkScript ← readScriptBuf slab "transaction output public key script"
  return { value := Int64.ofNat value, pkScript }

def writeTxWitnessBuf (wit : List Bytes) : Bytes :=
  varInt wit.length ++ wit.flatMap writeVarBytesBuf

def MsgTx.btcEncode (enc : MessageEncoding) (msg : MsgTx) : Bytes :=
  let doWitness := enc = .witness ∧ msg.hasWitness
  uint32Bytes msg.version ++ ((if doWitness then [UInt8.ofNat txFlagMarker, witnessFlag] else []) ++
    (varInt msg.txIn.length ++ (msg.txIn.flatMap writeTxInBuf ++
    (varInt msg.txOut.length ++ (msg.txOut.flatMap writeTxOutBuf ++
    ((if doWitness then msg.txIn.flatMap fun ti => writeTxWitnessBuf ti.witness else []) ++
    uint32Bytes msg.lockTime))))))

def readTxWitnessBuf (slab : Nat) : Reader WireError (List Bytes × Nat) := do
  let witCount ← readVarIntBuf
  failIf (maxWitnessItemsPerInput < witCount) (.message "MsgTx.BtcDecode"
    ("too many witness items to fit into max message size [count " ++ toString witCount ++
      ", max " ++ toString maxWitnessItemsPerInput ++ "]"))
  readBudget (readScriptBuf · "script witness item") List.length witCount slab

/-- The witness loop of `btcDecode` over the inputs read before. -/
def readWitnesses : Nat → List TxIn → Reader WireError (List TxIn)
  | _, [] => return []
  | slab, ti :: tis => do
      let (witness, slab) ← readTxWitnessBuf slab
      let tis ← readWitnesses slab tis
      return { ti with witness := witness } :: tis

def readTxWitnesses (enc : MessageEncoding) (flag : UInt8) (slab : Nat) (txIn : List TxIn) :
    Reader WireError (List TxIn) :=
  if flag ≠ 0 ∧ enc = .witness then do
    let txIn ← readWitnesses slab txIn
    failIf (txIn.all fun ti => ti.witness.isEmpty) .superfluousWitnessRecord
    return txIn
  else return txIn

/-- The input count of `btcDecode`, with the flag that may stand in front of it. -/
def readInputCount (enc : MessageEncoding) : Reader WireError (Nat × UInt8) := do
  let count ← readVarIntBuf
  if count = txFlagMarker ∧ enc = .witness then
    let flag ← readBytes 1
    failIf (flag ≠ [witnessFlag]) (.message "MsgTx.BtcDecode"
      ("witness tx but flag byte is " ++ String.ofList (flag.flatMap hexDigits)))
    let count ← readVarIntBuf
    return (count, byteAt flag 0)
  else return (count, 0)

def MsgTx.btcDecode (enc : MessageEncoding) (slab : Nat) : Reader WireError MsgTx := do
  let version ← readUint 4
  let (count, flag) ← readInputCount enc
  failIf (maxTxInPerMessage < count) (.message "MsgTx.BtcDecode"
    ("too many input transactions to fit into max message size [count " ++ toString count ++
      ", max " ++ toString maxTxInPerMessage ++ "]"))
  let (txIn, slab) ← readBudget readTxInBuf (fun ti => ti.signatureScript.length) count slab
  let count ← readVarIntBuf
  failIf (maxTxOutPerMessage < count) (.message "MsgTx.BtcDecode"
    ("too many output transactions to fit into max message size [count " ++ toString count ++
      ", max " ++ toString maxTxOutPerMessage ++ "]"))
  let (txOut, slab) ← readBudget readTxOutBuf (fun out => out.pkScript.length) count slab
  let txIn ← readTxWitnesses enc flag slab txIn
  let lockTime ← readUint 4
  return { version := toInt32 version, txIn, txOut, lockTime }

/-! ## Blocks -/

/-- `wire.BlockHeader` with the two fields no modelled check reads. -/
structure FullBlockHeader extends BlockHeader where
  merkleRoot : Hash
  nonce      : Nat
deriving DecidableEq, Repr

structure MsgBlock where
  header       : FullBlockHeader
  transactions : List MsgTx
deriving DecidableEq, Repr

def Block.msgBlock (b : Block) (merkleRoot : Hash) (nonce : Nat) : MsgBlock :=
  { header := { b.header with merkleRoot, nonce }
    transactions := b.transactions.map Tx.msgTx }

def writeBlockHeaderBuf (bh : FullBlockHeader) : Bytes :=
  uint32Bytes bh.version ++ (Hash.toBytes bh.prevBlock ++ (Hash.toBytes bh.merkleRoot ++
    (uint32Bytes bh.timestamp ++ (uint32Bytes bh.bits ++ uint32Bytes bh.nonce))))

def readBlockHeaderBuf : Reader WireError FullBlockHeader := do
  let version ← readUint 4
  let prevBlock ← readHash
  let merkleRoot ← readHash
  let timestamp ← readUint 4
  let bits ← readUint 4
  let nonce ← readUint 4
  return { version := toInt32 version, prevBlock, merkleRoot, timestamp, bits, nonce }

def MsgBlock.btcEncode (enc : MessageEncoding) (msg : MsgBlock) : Bytes :=
  writeBlockHeaderBuf msg.header ++ (varInt msg.transactions.length ++
    msg.transactions.flatMap (MsgTx.btcEncode enc))

/-- `MsgBlock.BtcDecode`: every transaction gets the whole slab. -/
def MsgBlock.btcDecode (enc : MessageEncoding) : Reader WireError MsgBlock := do
  let header ← readBlockHeaderBuf
  let txCount ← readVarIntBuf
  failIf (maxTxPerBlock < txCount) (.message "MsgBlock.BtcDecode"
    ("too many transactions to fit into a block [count " ++ toString txCount ++ ", max " ++
      toString maxTxPerBlock ++ "]"))
  let transactions ← readMany (MsgTx.btcDecode enc scriptSlabSize) txCount
  return { header, transactions }

structure TxLoc where
  txStart : Nat
  txLen   : Nat
deriving DecidableEq, Repr

/-- `r.Len()`. -/
def remaining : Reader WireError Nat := fun input => .ok (input.length, input)

/-- One round of the loop of `DeserializeTxLoc`. -/
def readTxLoc (fullLen : Nat) : Reader WireError TxLoc := do
  let before ← remaining
  let _ ← MsgTx.btcDecode .witness scriptSlabSize
  let behind ← remaining
  let txStart := fullLen - before
  return { txStart, txLen := fullLen - behind - txStart }

def MsgBlock.deserializeTxLoc : Reader WireError (List TxLoc) := do
  let fullLen ← remaining
  let _ ← readBlockHeaderBuf
  let txCount ← readVarIntBuf
  failIf (maxTxPerBlock < txCount) (.message "MsgBlock.DeserializeTxLoc"
    ("too many transactions to fit into a block [count " ++ toString txCount ++ ", max " ++
      toString maxTxPerBlock ++ "]"))
  readMany (readTxLoc fullLen) txCount

/-! ## The block message -/

/-- `CmdBlock`, the text "block". -/
def cmdBlock : Bytes := [0x62, 0x6c, 0x6f, 0x63, 0x6b]

/-- The first four bytes of `DoubleHashB`. -/
def checksum (payload : Bytes) : Bytes := (Sha256.sum256 (Sha256.sum256 payload)).take 4

/-- The header of a block message as `writeElements` puts it together. -/
def messageHeaderBytes (btcnet : UInt32) (payload : Bytes) : Bytes :=
  leBytes 4 btcnet.toNat ++ (cmdBlock ++ List.replicate (commandSize - cmdBlock.length) 0 ++
    (leBytes 4 payload.length ++ checksum payload))

/-- `WriteMessageWithEncodingN` of a block, with the bytes it wrote. -/
def writeMessageWithEncodingN (msg : MsgBlock) (btcnet : UInt32) (encoding : MessageEncoding) :
    Except WireError Bytes := do
  rejectIf (commandSize < cmdBlock.length) (.message "WriteMessage"
    ("command [block] is too long [max " ++ toString commandSize ++ "]"))
  let payload := msg.btcEncode encoding
  let lenp := payload.length
  rejectIf (maxProtocolMessageLength < lenp) (.message "WriteMessage"
    ("message payload is too large - encoded " ++ toString lenp ++
      " bytes, but maximum message payload is " ++ toString maxProtocolMessageLength ++ " bytes"))
  rejectIf (maxBlockPayload < lenp % 2 ^ 32) (.message "WriteMessage"
    ("message payload is too large - encoded " ++ toString lenp ++
      " bytes, but maximum message payload size for messages of type [block] is " ++
      toString maxBlockPayload ++ "."))
  return messageHeaderBytes btcnet payload ++ payload

structure MessageHeader where
  magic    : Nat
  command  : Bytes
  length   : Nat
  checksum : Bytes
deriving DecidableEq, Repr

/-- `readMessageHeader`: the zeros behind the command are dropped. -/
def readMessageHeader : Reader WireError MessageHeader := do
  let headerBytes ← readBytes messageHeaderSize
  return {
    magic := leNat (slice headerBytes 0 4)
    command := ((slice headerBytes 4 16).reverse.dropWhile (· == 0)).reverse
    length := leNat (slice headerBytes 16 20)
    checksum := slice headerBytes 20 24 }

/-- `BitcoinNet.String`. -/
def bitcoinNetStr (net : Nat) : String :=
  match net with
  | 0xd9b4bef9 => "MainNet"
  | 0xdab5bffa => "TestNet"
  | 0x0709110b => "TestNet3"
  | 0x283f161c => "TestNet4"
  | 0x40CF030A => "SigNet"
  | 0x12141c16 => "SimNet"
  | 0x414570dd => "FalconNet"
  | n => "Unknown BitcoinNet (" ++ toString n ++ ")"

/-- `%v` of a byte array. -/
def bytesStr (bs : Bytes) : String := "[" ++ " ".intercalate (bs.map toString) ++ "]"

/-- `ReadMessageWithEncodingN` of a stream whose next message is a block: the
message and its payload. -/
def readMessageWithEncodingN (btcnet : UInt32) (enc : MessageEncoding) :
    Reader WireError (MsgBlock × Bytes) := do
  let hdr ← readMessageHeader
  failIf (maxProtocolMessageLength < hdr.length) (.message "ReadMessage"
    ("message payload is too large - header indicates " ++ toString hdr.length ++
      " bytes, but max message payload is " ++ toString maxProtocolMessageLength ++ " bytes."))
  failIf (hdr.magic ≠ btcnet.toNat) (.message "ReadMessage"
    ("message from other network [" ++ bitcoinNetStr hdr.magic ++ "]"))
  failIf (hdr.command ≠ cmdBlock) (.otherCommand hdr.command)
  failIf (maxBlockPayload < hdr.length) (.message "ReadMessage"
    ("payload exceeds max length - header indicates " ++ toString hdr.length ++
      " bytes, but max payload size for messages of type [block] is " ++
      toString maxBlockPayload ++ "."))
  let payload ← readBytes hdr.length
  failIf (checksum payload ≠ hdr.checksum) (.message "ReadMessage"
    ("payload checksum failed - header indicates " ++ bytesStr hdr.checksum ++
      ", but actual checksum is " ++ bytesStr (checksum payload) ++ "."))
  let (msg, extra) ← (MsgBlock.btcDecode enc).run payload
  failIf (extra ≠ []) (.message "ReadMessage"
    ("message payload has " ++ toString extra.length ++ " extra bytes after decode"))
  return (msg, payload)

end FalconDraw.Wire
