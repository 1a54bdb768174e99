/-
FalconDraw.Wire.Types — transactions and blocks as the consensus code reads
them (wire/msgtx.go, wire/msgblock.go, btcutil/tx.go).

Widths follow the Go types.
-/
import FalconDraw.Lib.Bytes

namespace FalconDraw.Wire

open Lib

abbrev Hash := BitVec 256

/-- A 20-byte public key hash. -/
abbrev WalletHash := BitVec 160

def Hash.ofBytes (bs : Bytes) : Hash := BitVec.ofNat 256 (beNat bs)

def Hash.toBytes (h : Hash) : Bytes := beBytes 32 h.toNat

def WalletHash.ofBytes (bs : Bytes) : WalletHash := BitVec.ofNat 160 (beNat bs)

def WalletHash.toBytes (h : WalletHash) : Bytes := beBytes 20 h.toNat

@[simp] theorem Hash.toBytes_length (h : Hash) : (Hash.toBytes h).length = 32 :=
  beBytes_length 32 h.toNat

@[simp] theorem WalletHash.toBytes_length (h : WalletHash) : h.toBytes.length = 20 :=
  beBytes_length 20 h.toNat

@[simp] theorem Hash.ofBytes_toBytes (h : Hash) : Hash.ofBytes (Hash.toBytes h) = h := by
  have hlt : h.toNat < 256 ^ 32 := h.isLt
  rw [Hash.ofBytes, Hash.toBytes, beNat_beBytes_of_lt hlt, BitVec.ofNat_toNat, BitVec.setWidth_eq]

@[simp] theorem WalletHash.ofBytes_toBytes (w : WalletHash) :
    WalletHash.ofBytes (WalletHash.toBytes w) = w := by
  have hlt : w.toNat < 256 ^ 20 := w.isLt
  rw [WalletHash.ofBytes, WalletHash.toBytes, beNat_beBytes_of_lt hlt, BitVec.ofNat_toNat,
    BitVec.setWidth_eq]

theorem Hash.toBytes_ofBytes {bs : Bytes} (h : bs.length = 32) :
    Hash.toBytes (Hash.ofBytes bs) = bs := beBytes_beNat_mod h

theorem WalletHash.toBytes_ofBytes {bs : Bytes} (h : bs.length = 20) :
    WalletHash.toBytes (WalletHash.ofBytes bs) = bs := beBytes_beNat_mod h

/-- Go's conversion `int32(x)` of an unsigned 32-bit value. -/
def toInt32 (n : Nat) : Int := (n : Int).bmod (2 ^ 32)

/-! ## Constants -/

def txVersion : Int := 1

def txVersionPoolStake : Int := 6

def txVersionVDFResult : Int := 7

def maxPrevOutIndex : Nat := 0xffffffff

def maxTxInSequenceNum : Nat := 0xffffffff

def minTxOutPayload : Nat := 9

/-! ## Messages -/

structure OutPoint where
  hash  : Hash
  index : Nat
deriving DecidableEq, Repr

structure TxIn where
  previousOutPoint : OutPoint
  signatureScript  : Bytes := []
  witness          : List Bytes := []
  sequence         : Nat := maxTxInSequenceNum
deriving DecidableEq, Repr

structure TxOut where
  value    : Int64
  pkScript : Bytes
deriving DecidableEq, Repr

structure MsgTx where
  version  : Int
  txIn     : List TxIn
  txOut    : List TxOut
  lockTime : Nat := 0
deriving DecidableEq, Repr

/-- `btcutil.Tx`: a message with its id. -/
structure Tx where
  hash  : Hash
  msgTx : MsgTx
deriving DecidableEq, Repr

/-- The header fields the modelled checks read. -/
structure BlockHeader where
  version   : Int
  prevBlock : Hash
  timestamp : Int
  bits      : Nat
deriving DecidableEq, Repr

/-- `btcutil.Block`: header, transactions, hash and the height it was assigned. -/
structure Block where
  hash         : Hash
  header       : BlockHeader
  transactions : List Tx
  height       : Nat
deriving DecidableEq, Repr

/-! ## How ids are printed in messages -/

def hexDigits (b : UInt8) : List Char :=
  [Nat.digitChar (b.toNat / 16), Nat.digitChar (b.toNat % 16)]

/-- `chainhash.Hash.String`: the bytes in reverse order, in hexadecimal. -/
def Hash.str (h : Hash) : String := String.ofList ((Hash.toBytes h).reverse.flatMap hexDigits)

/-- `wire.OutPoint.String`. -/
def OutPoint.str (o : OutPoint) : String := Hash.str o.hash ++ ":" ++ toString o.index

/-! ## Serialized sizes -/

/-- `WriteVarIntBuf`. -/
def varInt (n : Nat) : Bytes :=
  if n < 0xfd then leBytes 1 n
  else if n ≤ 0xffff then 0xfd :: leBytes 2 n
  else if n ≤ 0xffffffff then 0xfe :: leBytes 4 n
  else 0xff :: leBytes 8 n

def varIntSerializeSize (n : Nat) : Nat :=
  if n < 0xfd then 1 else if n ≤ 0xffff then 3 else if n ≤ 0xffffffff then 5 else 9

def TxIn.serializeSize (t : TxIn) : Nat :=
  40 + varIntSerializeSize t.signatureScript.length + t.signatureScript.length

def TxOut.serializeSize (t : TxOut) : Nat :=
  8 + varIntSerializeSize t.pkScript.length + t.pkScript.length

def MsgTx.baseSize (m : MsgTx) : Nat :=
  8 + varIntSerializeSize m.txIn.length + varIntSerializeSize m.txOut.length
    + (m.txIn.map TxIn.serializeSize).sum + (m.txOut.map TxOut.serializeSize).sum

def MsgTx.serializeSizeStripped (m : MsgTx) : Nat := m.baseSize

def witnessSerializeSize (w : List Bytes) : Nat :=
  varIntSerializeSize w.length +
    (w.map fun item => varIntSerializeSize item.length + item.length).sum

def MsgTx.hasWitness (m : MsgTx) : Bool := m.txIn.any fun t => !t.witness.isEmpty

def MsgTx.serializeSize (m : MsgTx) : Nat :=
  m.baseSize +
    if m.hasWitness then 2 + (m.txIn.map fun t => witnessSerializeSize t.witness).sum else 0

def blockHeaderLen : Nat := 80

def Block.serializeSizeStripped (b : Block) : Nat :=
  blockHeaderLen + varIntSerializeSize b.transactions.length +
    (b.transactions.map fun t => t.msgTx.serializeSizeStripped).sum

def Block.serializeSize (b : Block) : Nat :=
  blockHeaderLen + varIntSerializeSize b.transactions.length +
    (b.transactions.map fun t => t.msgTx.serializeSize).sum

/-- `IsCoinBaseTx`: one input, with the null outpoint. -/
def MsgTx.isCoinBase (m : MsgTx) : Bool :=
  match m.txIn with
  | [t] => t.previousOutPoint.index == maxPrevOutIndex && t.previousOutPoint.hash == 0
  | _ => false

def Tx.isCoinBase (t : Tx) : Bool := t.msgTx.isCoinBase

end FalconDraw.Wire
