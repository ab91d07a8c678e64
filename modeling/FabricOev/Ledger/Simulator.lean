import FabricOev.Ledger.RwSet

/-!
# The transaction simulator

`lockBasedTxSimulator` between `NewTxSimulator` and `Done`: its `queryHelper`, the
iterators it hands out and the `RWSetBuilder` that records what was read and written. The
state database is an argument of every call, since it need not be the same at the next one.
Calls after `Done`, which panic, cannot be written down here: `done` gives the builder away.
-/

namespace FabricOev.Ledger

open Go List

/-- `nsRWs`; the range queries in the order in which they were added. -/
structure NsRws where
  readMap : Std.ExtTreeMap GoString KvRead compare
  writeMap : Std.ExtTreeMap GoString KvWrite compare
  rangeQueries : List RangeQueryInfo

def NsRws.empty : NsRws := ⟨∅, ∅, []⟩

/-- The same `rangeQueryKey`. -/
def RangeQueryInfo.sameKey (q q' : RangeQueryInfo) : Bool :=
  q.startKey = q'.startKey ∧ q.endKey = q'.endKey ∧ q.itrExhausted = q'.itrExhausted

abbrev RwSetBuilder := Std.ExtTreeMap GoString NsRws compare

namespace RwSetBuilder

def getOrCreateNsRw (b : RwSetBuilder) (ns : GoString) : NsRws := (b[ns]?).getD NsRws.empty

def addToReadSet (b : RwSetBuilder) (ns key : GoString) (version : Option Height) : RwSetBuilder :=
  let s := b.getOrCreateNsRw ns
  b.insert ns { s with readMap := s.readMap.insert key ⟨key, version⟩ }

/-- A nil value is a delete. -/
def addToWriteSet (b : RwSetBuilder) (ns key : GoString) (value : Option Bytes) : RwSetBuilder :=
  let s := b.getOrCreateNsRw ns
  b.insert ns { s with writeMap := s.writeMap.insert key ⟨key, value.isNone, value⟩ }

/-- Of the queries with one key only the first is kept. -/
def addToRangeQuerySet (b : RwSetBuilder) (ns : GoString) (q : RangeQueryInfo) : RwSetBuilder :=
  let s := b.getOrCreateNsRw ns
  b.insert ns (if s.rangeQueries.any q.sameKey then s
      else { s with rangeQueries := s.rangeQueries ++ [q] })

/-- Namespaces, reads and writes in the order of their names and keys. -/
def getTxReadWriteSet (b : RwSetBuilder) : TxRwSet :=
  b.toList.map fun e =>
    ⟨e.1, e.2.readMap.toList.map (·.2), e.2.rangeQueries, e.2.writeMap.toList.map (·.2)⟩

end RwSetBuilder

/-- `ledgerconfig.IsQueryReadsHashingEnabled` and `GetMaxDegreeQueryReadsHashing`. -/
structure QueryConfig where
  hashingEnabled : Bool
  maxDegree : Nat
deriving DecidableEq, Repr

/-- `RangeQueryResultsHelper`; there is a tree only if hashing is on. -/
inductive QueryResults where
  | raw (pending : List KvRead)
  | hashed (helper : ResultsHelper)
deriving DecidableEq, Repr

namespace QueryResults

def new (qc : QueryConfig) : Option QueryResults :=
  if qc.hashingEnabled then (ResultsHelper.new qc.maxDegree).map .hashed else some (.raw [])

variable (hash : Bytes → Bytes)

def addResult (kv : KvRead) : QueryResults → QueryResults
  | .raw pending => .raw (pending ++ [kv])
  | .hashed helper => .hashed (helper.addResult hash kv)

/-- `Done`: the results, or their summary. -/
def done : QueryResults → List KvRead × Option MerkleSummary
  | .raw pending => (pending, none)
  | .hashed helper => if helper.isEmpty then (helper.pending, none) else ([], helper.done hash)

end QueryResults

/-- What `queryHelper.done` sets: the results unless there are none, or their summary. -/
def ReadsInfo.ofDone : List KvRead × Option MerkleSummary → ReadsInfo
  | (_, some m) => .merkleHashes m
  | ([], none) => .absent
  | (rs, none) => .rawReads rs

/-- `resultsItr`. The database's iterator is what it has left: LevelDB reads a snapshot. -/
structure ResultsItr where
  ns : GoString
  endKey : GoString
  dbItr : List (GoString × VersionedValue)
  rangeQueryInfo : RangeQueryInfo
  results : QueryResults
deriving DecidableEq, Repr

/-- `newResultsItr`; the end key of the query is set by `Next` only. -/
def newResultsItr (qc : QueryConfig) (db : StateDb) (ns startKey endKey : GoString) :
    Option ResultsItr := do
  let results ← QueryResults.new qc
  some ⟨ns, endKey, scan db.state ns startKey endKey, ⟨startKey, [], false, .absent⟩, results⟩

namespace ResultsItr

variable (hash : Bytes → Bytes)

/-- `Next` with `updateRangeQueryInfo`. -/
def next (it : ResultsItr) : Option (GoString × VersionedValue) × ResultsItr :=
  match it.dbItr with
  | [] =>
    (none, { it with
      rangeQueryInfo := { it.rangeQueryInfo with itrExhausted := true, endKey := it.endKey } })
  | r :: rs =>
    (some r, { it with
      dbItr := rs
      rangeQueryInfo := { it.rangeQueryInfo with endKey := r.1 }
      results := it.results.addResult hash ⟨r.1, some r.2.version⟩ })

/-- The query as `done` records it. -/
def recorded (it : ResultsItr) : RangeQueryInfo :=
  { it.rangeQueryInfo with readsInfo := ReadsInfo.ofDone (it.results.done hash) }

end ResultsItr

structure TxSimulator where
  rwSetBuilder : RwSetBuilder
  itrs : List ResultsItr

def TxSimulator.new : TxSimulator := ⟨∅, []⟩

/-- A call of a simulator or of one of its iterators, numbered as they were made. -/
inductive SimCall where
  | getState (ns key : GoString)
  | setState (ns key : GoString) (value : Option Bytes)
  | getStateRangeScanIterator (ns startKey endKey : GoString)
  | next (itr : Nat)
deriving DecidableEq, Repr

/-- What a call brings from the database. An iterator that could not be made is an error. -/
inductive Answer (α : Type) where
  | value (v : Option α)
  | written
  | iterator (itr : Option Nat)
  | entry (e : Option (GoString × α))
deriving DecidableEq, Repr

def Answer.map {α β : Type} (f : α → β) : Answer α → Answer β
  | .value v => .value (v.map f)
  | .written => .written
  | .iterator itr => .iterator itr
  | .entry e => .entry (e.map fun e => (e.1, f e.2))

namespace TxSimulator

section Calls

variable (qc : QueryConfig) (hash : Bytes → Bytes) (db : StateDb)

/-- One call. An iterator that was never made is a nil pointer. -/
def call (sim : TxSimulator) : SimCall → Result (Answer VersionedValue × TxSimulator)
  | .getState ns key =>
    let v := db.getState ns key
    .ok (.value v, { sim with
      rwSetBuilder := sim.rwSetBuilder.addToReadSet ns key (v.map (·.version)) })
  | .setState ns key value =>
    .ok (.written, { sim with rwSetBuilder := sim.rwSetBuilder.addToWriteSet ns key value })
  | .getStateRangeScanIterator ns startKey endKey =>
    match newResultsItr qc db ns startKey endKey with
    | none => .ok (.iterator none, sim)
    | some it => .ok (.iterator (some sim.itrs.length), { sim with itrs := sim.itrs ++ [it] })
  | .next i => do
    let it ← Result.deref (sim.itrs[i]?)
    let (e, it) := it.next hash
    .ok (.entry e, { sim with itrs := sim.itrs.set i it })

def calls : List SimCall → TxSimulator → Result (List (Answer VersionedValue) × TxSimulator)
  | [], sim => .ok ([], sim)
  | c :: cs, sim => do
    let (a, sim) ← sim.call qc hash db c
    let (as, sim) ← calls cs sim
    .ok (a :: as, sim)

end Calls

variable (hash : Bytes → Bytes)

def done (sim : TxSimulator) : RwSetBuilder :=
  sim.itrs.foldl (fun b it => b.addToRangeQuerySet it.ns (it.recorded hash)) sim.rwSetBuilder

/-- The read-write set behind `GetTxSimulationResults`. -/
def rwSet (sim : TxSimulator) : TxRwSet := (sim.done hash).getTxReadWriteSet

def getTxSimulationResults (sim : TxSimulator) : Bytes := (sim.rwSet hash).toProtoBytes

end TxSimulator

/-- A transaction program: it ends, or makes a call and goes on with the value it answers. -/
inductive Program where
  | finish
  | call (c : SimCall) (rest : Answer Bytes → Program)

def Program.run (qc : QueryConfig) (hash : Bytes → Bytes) (db : StateDb) :
    Program → TxSimulator → Result TxSimulator
  | .finish, sim => .ok sim
  | .call c rest, sim => do
    let (a, sim) ← sim.call qc hash db c
    (rest (a.map (·.value))).run qc hash db sim

namespace TxSimulator

variable {qc : QueryConfig} {hash : Bytes → Bytes} {db db' : StateDb}

variable (h : ∀ ns key, db.getState ns key = db'.getState ns key)
include h

/-- A call depends on what the database holds, not on its savepoint. -/
theorem call_congr (sim : TxSimulator) (c : SimCall) :
    sim.call qc hash db c = sim.call qc hash db' c := by
  have hstate : db.state = db'.state := Std.ExtTreeMap.ext_getElem? fun k => h k.ns k.key
  cases c with
  | getState ns key => simp only [call, h]
  | setState ns key value => rfl
  | getStateRangeScanIterator ns startKey endKey => simp only [call, newResultsItr, hstate]
  | next i => rfl

theorem calls_congr (cs : List SimCall) (sim : TxSimulator) :
    calls qc hash db cs sim = calls qc hash db' cs sim := by
  induction cs generalizing sim with
  | nil => rfl
  | cons c cs ih =>
    rw [calls, calls, call_congr h]
    simp only [ih]

omit h

theorem calls_concat {cs : List SimCall} {c : SimCall} {sim mid fin : TxSimulator}
    {as : List (Answer VersionedValue)} {a : Answer VersionedValue}
    (h : calls qc hash db cs sim = .ok (as, mid)) (hc : mid.call qc hash db c = .ok (a, fin)) :
    calls qc hash db (cs ++ [c]) sim = .ok (as ++ [a], fin) := by
  induction cs generalizing sim as with
  | nil =>
    cases h
    rw [nil_append, calls, hc]
    rfl
  | cons d cs ih =>
    obtain ⟨⟨b, next⟩, hd, h⟩ := bind_ok.mp h
    obtain ⟨⟨bs, last⟩, hcs, h⟩ := bind_ok.mp h
    cases h
    rw [cons_append, calls, hd]
    show (calls qc hash db (cs ++ [c]) next >>= _) = _
    rw [ih hcs]
    rfl

end TxSimulator

end FabricOev.Ledger
