import FabricOev.Ledger.Block
import FabricOev.Ledger.RwSet
import FabricOev.Lib.SortedMerge

/-!
# Validation against the state

`statebasedval.Validator`: the multi-version check of a block. Each transaction flagged
valid so far is checked against the database overlaid with the writes of the valid
transactions before it, point reads by version and range queries by re-execution; a
valid one adds its writes to the batch. Nothing here writes to the database.
-/

namespace FabricOev.Ledger

open Go Protos Result Lib.SortedMerge

/-- `combinedIterator.Next` to the end: the smaller key first, the batch entry if both have it, and
no item for a delete. -/
abbrev combine := @merge GoString VersionedValue Update _ Update.toValue

/-- `serveEndKeyIfNeeded`. -/
def serveEndKey (db : StateDb) (updates : UpdateBatch) (ns stop : GoString) :
    List (GoString × VersionedValue) :=
  (((updates.get ns stop).elim (db.getState ns stop) Update.toValue).map fun v => (stop, v)).toList

/-- Everything the combined iterator serves for a range. -/
def combinedResults (db : StateDb) (updates : UpdateBatch) (ns start stop : GoString)
    (includeEndKey : Bool) : List (GoString × VersionedValue) :=
  let ds := scan db.state ns start stop
  let us := scan updates ns start stop
  combine (ds.length + us.length + 1) ds us ++
    if includeEndKey then serveEndKey db updates ns stop else []

/-- `rangeQueryResultsValidator.validate`. A read without a version is dereferenced. -/
def validateResults : List KvRead → List (GoString × VersionedValue) → Result Bool
  | [], rs => .ok rs.isEmpty
  | _ :: _, [] => .ok false
  | kv :: kvs, r :: rs =>
    if r.1 ≠ kv.key then .ok false
    else do
      let v ← deref kv.version
      if r.2.version ≠ v then .ok false else validateResults kvs rs

/-- The loop of `rangeQueryHashValidator.validate`; `matched` is `lastMatchedIndex + 1`. -/
def validateHashes (hash : Bytes → Bytes) (inMerkle : MerkleSummary) :
    List (GoString × VersionedValue) → ResultsHelper → Nat → Result Bool
  | [], helper, _ => .ok (helper.done hash = some inMerkle)
  | r :: rs, helper, matched =>
    let helper := helper.addResult hash ⟨r.1, some r.2.version⟩
    let merkle := helper.summary
    if merkle.maxLevel < inMerkle.maxLevel then validateHashes hash inMerkle rs helper matched
    else if matched = merkle.hashes.length then validateHashes hash inMerkle rs helper matched
    else if inMerkle.hashes.length < merkle.hashes.length then .ok false
    else do
      let h ← index merkle.hashes matched
      let h' ← index inMerkle.hashes matched
      if h = h' then validateHashes hash inMerkle rs helper (matched + 1) else .ok false

variable (hash : Bytes → Bytes)

/-- `validateRangeQuery`. The error of a degree below 2 is dropped, and the nil helper dereferenced.
-/
def validateRangeQuery (db : StateDb) (updates : UpdateBatch) (ns : GoString)
    (q : RangeQueryInfo) : Result Bool :=
  let results := combinedResults db updates ns q.startKey q.endKey (!q.itrExhausted)
  match q.readsInfo with
  | .merkleHashes m => do
    let helper ← deref (ResultsHelper.new m.maxDegree)
    validateHashes hash m results helper 0
  | .rawReads rs => validateResults rs results
  | .absent => validateResults [] results

def validateKvRead (db : StateDb) (updates : UpdateBatch) (ns : GoString) (r : KvRead) : Bool :=
  if updates.existsKey ns r.key then false
  else areSame ((db.getState ns r.key).map (·.version)) r.version

def validateReadSet (db : StateDb) (updates : UpdateBatch) (ns : GoString)
    (rs : List KvRead) : Bool :=
  rs.all (validateKvRead db updates ns)

def validateRangeQueries (db : StateDb) (updates : UpdateBatch) (ns : GoString) :
    List RangeQueryInfo → Result Bool
  | [] => .ok true
  | q :: qs => do
    let ok ← validateRangeQuery hash db updates ns q
    if ok then validateRangeQueries db updates ns qs else .ok false

def validateTx (db : StateDb) (updates : UpdateBatch) : TxRwSet → Result TxValidationCode
  | [] => .ok .valid
  | s :: ss =>
    if validateReadSet db updates s.ns s.reads then do
      let ok ← validateRangeQueries hash db updates s.ns s.rangeQueries
      if ok then validateTx db updates ss else .ok .phantomReadConflict
    else .ok .mvccReadConflict

def addWrite (ns : GoString) (h : Height) (b : UpdateBatch) (w : KvWrite) : Result UpdateBatch :=
  if w.isDelete then .ok (b.delete ns w.key h) else b.put ns w.key w.value h

def addWriteSetToBatch (rw : TxRwSet) (h : Height) (b : UpdateBatch) : Result UpdateBatch :=
  rw.foldlM (fun b s => s.writes.foldlM (addWrite s.ns h) b) b

def validateEndorserTx (db : StateDb) (data : Bytes) (doMvccValidation : Bool)
    (updates : UpdateBatch) : Result (Option TxRwSet × TxValidationCode) := do
  match ← (getActionFromEnvelope data).attempt with
  | .error _ => .ok (none, .nilTxAction)
  | .ok action =>
    match TxRwSet.fromProtoBytes action.results with
    | none => .ok (none, .invalidOtherReason)
    | some rw =>
      if doMvccValidation then do
        let code ← validateTx hash db updates rw
        if code = .valid then .ok (some rw, .valid) else .ok (none, code)
      else .ok (some rw, .valid)

/-- One transaction of `ValidateAndPrepareBatch`, given the flags and the batch so far. -/
def validateOne (db : StateDb) (number : UInt64) (doMvccValidation : Bool)
    (st : TxFlags × UpdateBatch) (i : Nat) (data : Bytes) : Result (TxFlags × UpdateBatch) := do
  let (flags, updates) := st
  if ← flags.isValid i then do
    let chdr ← channelHeaderOf data
    if chdr.headerType ≠ HeaderType.endorserTransaction then .ok (flags, updates)
    else do
      let (rw, code) ← validateEndorserTx hash db data doMvccValidation updates
      let flags ← flags.setFlag i code
      match rw with
      | none => .ok (flags, updates)
      | some rw => do
        let updates ← addWriteSetToBatch rw ⟨number, UInt64.ofNat i⟩ updates
        .ok (flags, updates)
  else .ok (flags, updates)

/-- The transaction loop from index `i` on. -/
def validateLoop (db : StateDb) (number : UInt64) (doMvccValidation : Bool) :
    Nat → List Bytes → TxFlags × UpdateBatch → Result (TxFlags × UpdateBatch)
  | _, [], st => .ok st
  | i, d :: ds, st => do
    let st ← validateOne hash db number doMvccValidation st i d
    validateLoop db number doMvccValidation (i + 1) ds st

/-- `ValidateAndPrepareBatch`: the block with its new flags, and the batch. -/
def validateAndPrepareBatch (db : StateDb) (block : Block) (doMvccValidation : Bool) :
    Result (Block × UpdateBatch) := do
  let flags ← block.txsFilter
  let (flags, updates) ←
    validateLoop hash db block.header.number doMvccValidation 0 block.data (flags, ∅)
  .ok (block.setFilter flags, updates)

end FabricOev.Ledger
