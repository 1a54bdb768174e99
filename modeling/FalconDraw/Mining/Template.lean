/-
FalconDraw.Mining.Template — the coinbase and the draw transactions of a block
template (mining/mining.go, txscript/scriptbuilder.go, standard.go).

A template extends the tip with a coinbase that pays the subsidy.
-/
import FalconDraw.Chain.Run

namespace FalconDraw.Mining

open Lib Wire Draw Chain

/-! ## Scripts -/

/-- `ScriptBuilder.AddData`, below the size limits. -/
def addData (data : Bytes) : Bytes :=
  let n := data.length
  if n = 0 ∨ data = [0] then [0x00]
  else if n = 1 ∧ byteAt data 0 ≤ 16 then [0x50 + byteAt data 0]
  else if data = [0x81] then [0x4f]
  else if n < 0x4c then UInt8.ofNat n :: data
  else if n ≤ 0xff then 0x4c :: UInt8.ofNat n :: data
  else if n ≤ 0xffff then 0x4d :: (leBytes 2 n ++ data)
  else 0x4e :: (leBytes 4 n ++ data)

/-- The base-256 digits of an `int64` that is not negative, lowest first. -/
def digits : Nat → Nat → Bytes
  | 0, _ => []
  | k + 1, n => if n = 0 then [] else UInt8.ofNat n :: digits k (n / 256)

/-- `scriptNum.Bytes` of a number that is not negative: a zero byte follows when
the highest digit has its sign bit set. -/
def scriptNumBytes (n : Nat) : Bytes :=
  let ds := digits 8 n
  if 0x80 ≤ ds.getLastD 0 then ds ++ [0] else ds

/-- `ScriptBuilder.AddInt64` of a number that is not negative. -/
def addInt64 (n : Nat) : Bytes :=
  if n = 0 then [0x00]
  else if n ≤ 16 then [0x50 + UInt8.ofNat n]
  else addData (scriptNumBytes n)

/-- `CoinbaseFlags`, "/P2SH/btcd/". -/
def coinbaseFlags : Bytes := [0x2f, 0x50, 0x32, 0x53, 0x48, 0x2f, 0x62, 0x74, 0x63, 0x64, 0x2f]

def standardCoinbaseScript (nextBlockHeight extraNonce : Nat) : Bytes :=
  addInt64 nextBlockHeight ++ addInt64 extraNonce ++ addData coinbaseFlags

/-- The address a template pays to; `anyone` is the nil address. -/
inductive PayToAddress where
  | pubKeyHash (hash : WalletHash)
  | scriptHash (hash : WalletHash)
  | pubKey (key : { bs : Bytes // bs.length = 33 ∨ bs.length = 65 })
  | witnessPubKeyHash (hash : WalletHash)
  | witnessScriptHash (hash : Hash)
  | taproot (key : Hash)
  | payToAnchor (program : BitVec 16)
  | anyone

/-- `PayToAddrScript`, and the script `createCoinbaseTx` uses for the nil
address. -/
def payToAddrScript : PayToAddress → Bytes
  | .pubKeyHash h => [0x76, 0xa9] ++ addData (WalletHash.toBytes h) ++ [0x88, 0xac]
  | .scriptHash h => [0xa9] ++ addData (WalletHash.toBytes h) ++ [0x87]
  | .pubKey k => addData k.val ++ [0xac]
  | .witnessPubKeyHash h => [0x00] ++ addData (WalletHash.toBytes h)
  | .witnessScriptHash h => [0x00] ++ addData (Hash.toBytes h)
  | .taproot k => [0x51] ++ addData (Hash.toBytes k)
  | .payToAnchor p => [0x51] ++ addData (beBytes 2 p.toNat)
  | .anyone => [0x51]

/-! ## The coinbase -/

def createCoinbaseTx (p : Params) (coinbaseScript : Bytes) (nextBlockHeight : Nat)
    (addr : PayToAddress) : MsgTx :=
  { version := txVersion
    txIn := [{ previousOutPoint := ⟨0, maxPrevOutIndex⟩, signatureScript := coinbaseScript }]
    txOut := [⟨calcBlockSubsidy nextBlockHeight p, payToAddrScript addr⟩] }

/-! ## The pending VDF result -/

/-- The ids of the transactions a template makes itself. -/
structure TemplateIds where
  coinbase   : Hash
  settlement : Hash
  vdfResult  : Hash

def templateDrawData (idx : StakeIndex) (vdf : VDFResultData) : PoolDrawData :=
  let result := runDraw (idx.fetchPoolStakeEntries vdf.drawHeight)
    (drawSeed vdf.drawBlockHash vdf.vdfOutput)
  { balance := idx.reconstructPoolBalance vdf.drawHeight
    jackpotWon := result.jackpotWon
    winnerWalletHash :=
      match result.jackpotWon, result.winners with
      | true, w :: _ => w.walletHash
      | _, _ => 0 }

def settlementTxs (idx : StakeIndex) (vdf : VDFResultData) (ids : TemplateIds) : List Tx :=
  if 0 < idx.reconstructPoolBalance vdf.drawHeight then
    [⟨ids.settlement, buildPoolDrawSettlementTx vdf.drawHeight (templateDrawData idx vdf)⟩]
  else []

def bountyOutputs (idx : StakeIndex) (vdf : VDFResultData) (nextBlockHeight : Nat) : List TxOut :=
  if 0 < idx.reconstructPoolBalance vdf.drawHeight ∧ vdf.submitterWalletHash ≠ 0 then
    [⟨calcVDFBounty nextBlockHeight, makeWinnerP2WPKHScript vdf.submitterWalletHash⟩]
  else []

/-- What a pending VDF result contributes: outputs of the coinbase, and the
transactions behind it. -/
def pendingParts (idx : StakeIndex) (pending : Option VDFResultData) (ids : TemplateIds)
    (nextBlockHeight : Nat) : List TxOut × List Tx :=
  match pending with
  | none => ([], [])
  | some vdf => (bountyOutputs idx vdf nextBlockHeight,
      settlementTxs idx vdf ids ++ [⟨ids.vdfResult, buildVDFResultTx vdf⟩])

/-! ## The block -/

/-- The block of a template on top of the tip, with the transactions selected
from the pool and their fees. -/
def templateBlock (p : Params) (s : ChainState) (pending : Option VDFResultData)
    (addr : PayToAddress) (header : HeaderInfo) (ids : TemplateIds) (selected : List Tx)
    (totalFees : Int64) : Block :=
  let nextBlockHeight := s.tip.height + 1
  let parts := pendingParts s.idx pending ids nextBlockHeight
  let base := createCoinbaseTx p (standardCoinbaseScript nextBlockHeight 0) nextBlockHeight addr
  let paid := base.txOut.map fun o => { o with value := o.value + totalFees }
  let coinbase : Tx := ⟨ids.coinbase, { base with txOut := paid ++ parts.1 }⟩
  { hash := header.hash
    header := ⟨header.version, s.tip.hash, header.timestamp, header.bits⟩
    transactions := coinbase :: (parts.2 ++ selected)
    height := nextBlockHeight }

end FalconDraw.Mining
