/-
FalconDraw.Mempool.TxPool — the pool of unconfirmed transactions: its maps and
the operations that change them (mempool/mempool.go).

  pool                id            → transaction, fee, fee rate
  outpoints           outpoint      → the transaction of the pool that spends it
  pendingStakeCounts  draw, wallet  → number of stakes that wait
  orphans             id            → transaction with unknown inputs
  orphansByPrev       outpoint      → the orphans that spend it

Maps by id are `Keyed`. The order in which the orphans of an outpoint are
visited, which the source leaves to the runtime, is a parameter (`MapOrder`);
other maps are iterated in the order of their list, where nothing depends on
it. The walks along spends recurse to a bounded depth. The address index, the
fee estimator and the time of the last change are left out.
-/
import FalconDraw.Lib.Keyed
import FalconDraw.Lib.Walk
import FalconDraw.Mempool.Policy

namespace FalconDraw.Mempool

open Lib Wire Draw Chain Mining

def maxRBFSequence : Nat := 0xfffffffd

def maxReplacementEvictions : Nat := 100

def unminedHeight : Nat := 0x7fffffff

def orphanTTL : Int := 15 * 60

def orphanExpireScanInterval : Int := 5 * 60

structure OrphanTx where
  tx         : Tx
  tag        : Nat
  expiration : Int

structure TxPool where
  pool               : Keyed fun d : TxDesc => d.tx.hash
  outpoints          : Bucket OutPoint Tx
  pendingStakeCounts : Bucket Nat (Bucket WalletHash Int)
  orphans            : Keyed fun o : OrphanTx => o.tx.hash
  orphansByPrev      : Bucket OutPoint (Keyed Tx.hash)
  nextExpireScan     : Int

/-- The order of each iteration over the orphans of an outpoint: any. -/
structure MapOrder where
  visit : TxPool → OutPoint → List Tx → List Tx
  perm  : ∀ mp op txs, (visit mp op txs).Perm txs

def MapOrder.listed : MapOrder := ⟨fun _ _ txs => txs, fun _ _ _ => .rfl⟩

def outPoints (tx : Tx) : List OutPoint :=
  (List.range tx.msgTx.txOut.length).map fun i => ⟨tx.hash, i⟩

def spends (tx : Tx) : List OutPoint := tx.msgTx.txIn.map TxIn.previousOutPoint

/-- Version, `FindPoolStakingOpReturn` and `ExtractPoolStakingData`: what the pool
reads of a stake. -/
def stakeData (m : MsgTx) : Option PoolStakingData :=
  if m.version = txVersionPoolStake then
    match findPoolStakingOpReturn m with
    | none => none
    | some script => (extractPoolStakingData script).toOption
  else none

namespace TxPool

def new (now : Int) : TxPool :=
  ⟨Keyed.empty, Bucket.empty, Bucket.empty, Keyed.empty, Bucket.empty,
    now + orphanExpireScanInterval⟩

def isTransactionInPool (mp : TxPool) (hash : Hash) : Bool := (mp.pool.find? hash).isSome

def isOrphanInPool (mp : TxPool) (hash : Hash) : Bool := (mp.orphans.find? hash).isSome

/-! ## Orphans -/

def orphansOf (mp : TxPool) (order : MapOrder) (prevOut : OutPoint) : List Tx :=
  match mp.orphansByPrev.get prevOut with
  | none => []
  | some orphans => order.visit mp prevOut orphans.entries

/-- One outpoint of `addOrphan`. -/
def listOrphan (tx : Tx) (byPrev : Bucket OutPoint (Keyed Tx.hash)) (prevOut : OutPoint) :
    Bucket OutPoint (Keyed Tx.hash) :=
  byPrev.put prevOut (((byPrev.get prevOut).getD Keyed.empty).insert tx)

/-- One outpoint of `removeOrphan`; an outpoint without orphans is deleted. -/
def unlistOrphan (txHash : Hash) (byPrev : Bucket OutPoint (Keyed Tx.hash)) (prevOut : OutPoint) :
    Bucket OutPoint (Keyed Tx.hash) :=
  match byPrev.get prevOut with
  | none => byPrev
  | some orphans =>
      if (orphans.erase txHash).size = 0 then byPrev.delete prevOut
      else byPrev.put prevOut (orphans.erase txHash)

/-- `removeOrphan`. An orphan is off the index before its redeemers are visited,
so no orphan is visited twice. -/
def removeOrphanFrom (order : MapOrder) : Nat → TxPool → Tx → Bool → TxPool
  | 0, mp, _, _ => mp
  | depth + 1, mp, tx, removeRedeemers =>
      match mp.orphans.find? tx.hash with
      | none => mp
      | some otx =>
          let mp := { mp with
            orphansByPrev := (spends otx.tx).foldl (unlistOrphan tx.hash) mp.orphansByPrev }
          let mp :=
            if removeRedeemers then
              (outPoints tx).foldl (fun mp prevOut =>
                (mp.orphansOf order prevOut).foldl (fun mp orphan =>
                  removeOrphanFrom order depth mp orphan true) mp) mp
            else mp
          { mp with orphans := mp.orphans.erase tx.hash }

def removeOrphan (order : MapOrder) (mp : TxPool) (tx : Tx) (removeRedeemers : Bool) : TxPool :=
  removeOrphanFrom order mp.orphans.size mp tx removeRedeemers

def removeOrphansByTag (order : MapOrder) (mp : TxPool) (tag : Nat) : TxPool :=
  mp.orphans.entries.foldl (fun mp otx =>
    if otx.tag = tag then removeOrphan order mp otx.tx true else mp) mp

/-- The scan of `limitNumOrphans` for expired orphans. -/
def expireOrphans (order : MapOrder) (mp : TxPool) (now : Int) : TxPool :=
  if mp.nextExpireScan < now then
    { mp.orphans.entries.foldl (fun mp otx =>
        if otx.expiration < now then removeOrphan order mp otx.tx true else mp) mp with
      nextExpireScan := now + orphanExpireScanInterval }
  else mp

/-- `limitNumOrphans`; `first` is where the iteration over the map starts. -/
def limitNumOrphans (order : MapOrder) (policy : Policy) (mp : TxPool) (now : Int) (first : Nat) :
    TxPool :=
  let mp := expireOrphans order mp now
  if mp.orphans.size + 1 ≤ policy.maxOrphanTxs then mp
  else match mp.orphans.entries[first % mp.orphans.size]? with
    | some otx => removeOrphan order mp otx.tx false
    | none => mp

def addOrphan (order : MapOrder) (policy : Policy) (mp : TxPool) (tx : Tx) (tag : Nat) (now : Int)
    (first : Nat) : TxPool :=
  if policy.maxOrphanTxs = 0 then mp
  else
    let mp := limitNumOrphans order policy mp now first
    { mp with
      orphans := mp.orphans.insert ⟨tx, tag, now + orphanTTL⟩
      orphansByPrev := (spends tx).foldl (listOrphan tx) mp.orphansByPrev }

def maybeAddOrphan (order : MapOrder) (policy : Policy) (mp : TxPool) (tx : Tx) (tag : Nat)
    (now : Int) (first : Nat) : Admission TxPool := do
  let serializedLen := tx.msgTx.serializeSize
  refuseIf (policy.maxOrphanTxSize < serializedLen) .nonstandard ("orphan transaction size of " ++
    toString serializedLen ++ " bytes is larger than max allowed size of " ++
    toString policy.maxOrphanTxSize ++ " bytes")
  return addOrphan order policy mp tx tag now first

def removeOrphanDoubleSpends (order : MapOrder) (mp : TxPool) (tx : Tx) : TxPool :=
  (spends tx).foldl (fun mp op =>
    (mp.orphansOf order op).foldl (fun mp orphan => removeOrphan order mp orphan true) mp) mp

/-! ## The pool and its maps -/

/-- `pendingStakeCounts[dh][wh]`, zero where there is none. -/
def pendingStakes (mp : TxPool) (drawHeight : Nat) (wallet : WalletHash) : Int :=
  ((mp.pendingStakeCounts.get drawHeight).bind fun counts => counts.get wallet).getD 0

/-- The stake count of `addTransaction`. -/
def countStake (mp : TxPool) (m : MsgTx) : TxPool :=
  match stakeData m with
  | none => mp
  | some d =>
      let counts := (mp.pendingStakeCounts.get d.drawHeight).getD Bucket.empty
      { mp with
        pendingStakeCounts := mp.pendingStakeCounts.put d.drawHeight
          (counts.put d.walletHash ((counts.get d.walletHash).getD 0 + 1)) }

/-- The stake count of `removeTransaction`; a count that falls to zero is deleted. -/
def uncountStake (mp : TxPool) (m : MsgTx) : TxPool :=
  match stakeData m with
  | none => mp
  | some d =>
      match mp.pendingStakeCounts.get d.drawHeight with
      | none => mp
      | some counts =>
          let n := (counts.get d.walletHash).getD 0 - 1
          { mp with
            pendingStakeCounts := mp.pendingStakeCounts.put d.drawHeight
              (if n ≤ 0 then counts.delete d.walletHash else counts.put d.walletHash n) }

/-- The end of `removeTransaction`: the transaction with this id leaves the pool,
if it is there. -/
def dropTransaction (mp : TxPool) (hash : Hash) : TxPool :=
  match mp.pool.find? hash with
  | none => mp
  | some txDesc =>
      uncountStake { mp with
        outpoints := (spends txDesc.tx).foldl Bucket.delete mp.outpoints
        pool := mp.pool.erase hash } txDesc.tx.msgTx

/-- What is done with the transaction of the pool that spends an outpoint, if there is one. -/
def forRedeemer (remove : TxPool → Tx → Option TxPool) (mp : TxPool) (op : OutPoint) :
    Option TxPool :=
  match mp.outpoints.get op with
  | some txRedeemer => remove mp txRedeemer
  | none => some mp

/-- `removeTransaction`: the redeemers first, if they are to go, then the
transaction. -/
def removeFrom : Nat → TxPool → Tx → Bool → Option TxPool
  | 0, _, _, _ => none
  | depth + 1, mp, tx, removeRedeemers =>
      let redeemed :=
        if removeRedeemers then
          (outPoints tx).foldlM (forRedeemer fun mp txRedeemer => removeFrom depth mp txRedeemer true)
            mp
        else some mp
      redeemed.map fun mp => mp.dropTransaction tx.hash

def removeTransaction (mp : TxPool) (tx : Tx) (removeRedeemers : Bool) : Option TxPool :=
  removeFrom (mp.pool.size + 1) mp tx removeRedeemers

def expiredStake (currentHeight : Int) (tx : Tx) : Bool :=
  isPoolStakingTx tx && (stakeData tx.msgTx).any fun d => toInt32 d.drawHeight ≤ currentHeight

/-- `EvictExpiredPoolStakes`: the redeemers of an expired stake stay. -/
def evictExpiredPoolStakes (mp : TxPool) (currentHeight : Int) : Option TxPool :=
  mp.pool.entries.foldlM (fun mp desc =>
    if expiredStake currentHeight desc.tx then mp.removeTransaction desc.tx false else some mp) mp

def removeDoubleSpends (mp : TxPool) (tx : Tx) : Option TxPool :=
  (spends tx).foldlM (forRedeemer fun mp txRedeemer =>
    if txRedeemer.hash = tx.hash then some mp else mp.removeTransaction txRedeemer true) mp

def addTransaction (mp : TxPool) (tx : Tx) (fee : Int64) : TxPool × TxDesc :=
  let txD : TxDesc := ⟨tx, fee, fee * 1000 / getTxVirtualSize tx.msgTx⟩
  (countStake { mp with
    pool := mp.pool.insert txD
    outpoints := (spends tx).foldl (fun m op => m.put op tx) mp.outpoints } tx.msgTx, txD)

/-! ## Relatives and conflicts -/

def ofWalk {α : Type} : Option α → Admission α
  | some a => .ok a
  | none => .error .unfinished

@[simp] theorem ofWalk_eq_ok {α : Type} {w : Option α} {a : α} : ofWalk w = .ok a ↔ w = some a := by
  cases w <;> simp [ofWalk]

/-- The input loop of `signalsReplacement`. -/
def signalsLoop (mp : TxPool) (ancestorSignals : Tx → Option Bool) : List TxIn → Option Bool
  | [] => some false
  | t :: ts =>
      if t.sequence ≤ maxRBFSequence then some true
      else match mp.pool.find? t.previousOutPoint.hash with
        | none => signalsLoop mp ancestorSignals ts
        | some unconfirmedAncestor =>
            (ancestorSignals unconfirmedAncestor.tx).bind fun signals =>
              if signals then some true else signalsLoop mp ancestorSignals ts

def signalsFrom (mp : TxPool) : Nat → Tx → Option Bool
  | 0, _ => none
  | depth + 1, tx => mp.signalsLoop (signalsFrom mp depth) tx.msgTx.txIn

def signalsReplacement (mp : TxPool) (tx : Tx) : Option Bool := mp.signalsFrom (mp.pool.size + 1) tx

def replaceable (policy : Policy) (mp : TxPool) (conflict : Tx) : Admission Bool :=
  if policy.rejectReplacement then .ok false else ofWalk (mp.signalsReplacement conflict)

def checkPoolDoubleSpend (policy : Policy) (mp : TxPool) : List TxIn → Admission Bool
  | [] => .ok false
  | t :: ts =>
      match mp.outpoints.get t.previousOutPoint with
      | none => checkPoolDoubleSpend policy mp ts
      | some conflict => do
          let signals ← mp.replaceable policy conflict
          refuseIf (signals = false) .duplicate ("output already spent in mempool: output=" ++
            t.previousOutPoint.str ++ ", tx=" ++ Hash.str conflict.hash)
          let _ ← checkPoolDoubleSpend policy mp ts
          return true

/-- The transactions of the pool whose outputs a transaction spends. -/
def parents (mp : TxPool) (tx : Tx) : List Tx :=
  (spends tx).filterMap fun op => (mp.pool.find? op.hash).map TxDesc.tx

def redeemers (mp : TxPool) (tx : Tx) : List Tx := (outPoints tx).filterMap mp.outpoints.get

def txAncestors (mp : TxPool) (tx : Tx) : Option (List Tx) := walk mp.parents (mp.pool.size + 1) tx

def txDescendants (mp : TxPool) (tx : Tx) : Option (List Tx) :=
  walk mp.redeemers (mp.pool.size + 1) tx

/-- `txConflicts`: what spends an output the transaction spends, and everything
below that. -/
def txConflicts (mp : TxPool) (tx : Tx) : Option (Keyed Tx.hash) :=
  (walkList mp.txDescendants ((spends tx).filterMap mp.outpoints.get)).map Keyed.ofList

end TxPool

end FalconDraw.Mempool
