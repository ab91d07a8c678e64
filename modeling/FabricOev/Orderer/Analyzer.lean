import FabricOev.Lib.Coloring
import FabricOev.Orderer.Extractor

/-!
# Conflict graph and schedule

`AnalyzeBatchAndSchedule`: the intents of a block become the vertices of a conflict
graph, a greedy colouring in the lexicographic order of the TxIDs gives each a batch, and
the batches, in the order of their colours and each in the order of the block, are the
schedule.
-/

namespace FabricOev.Orderer

open Go Protos Ledger Bench Lib

/-- The end of an interval; a point ends at the next key. -/
def KeyInterval.bound (a : KeyInterval) : GoString := if a.isRange then a.stop else a.start ++ [0]

def intersects (a b : KeyInterval) : Bool :=
  if !a.isRange && !b.isRange then a.start = b.start
  else a.start < b.bound && b.start < a.bound

def anyIntersect (as bs : List KeyInterval) : Bool := as.any fun a => bs.any fun b => intersects a b

def txsConflict (a b : TxIntent) : Bool :=
  anyIntersect a.hypercube.writeIntervals b.hypercube.readIntervals ||
    anyIntersect a.hypercube.writeIntervals b.hypercube.writeIntervals ||
    anyIntersect b.hypercube.writeIntervals a.hypercube.readIntervals

/-- The edges of `buildConflictGraph`, from every intent to later ones; each stands for both
directions. -/
def conflictEdges : List TxIntent → List (GoString × GoString)
  | [] => []
  | a :: rest => (rest.filter (txsConflict a)).map (fun b => (a.txId, b.txId)) ++ conflictEdges rest

structure ConflictGraph where
  nodes : List GoString
  edges : List (GoString × GoString)
deriving DecidableEq, Repr

/-- `graph.Edges[txID]`; the order of the neighbours is not looked at. -/
def ConflictGraph.neighbors (g : ConflictGraph) (txId : GoString) : List GoString :=
  g.edges.filterMap (fun e => if e.1 = txId then some e.2 else none) ++
    g.edges.filterMap fun e => if e.2 = txId then some e.1 else none

def buildConflictGraph (intents : List TxIntent) : ConflictGraph :=
  ⟨intents.map (·.txId), conflictEdges intents⟩

structure ColorAssignment where
  txToColor : List (GoString × Nat)
  numColors : Nat
deriving DecidableEq, Repr

/-- `TxToColor[txID]`; a missing entry reads as 0. -/
def ColorAssignment.colorOf (c : ColorAssignment) (txId : GoString) : Nat :=
  (c.txToColor.lookup txId).getD 0

/-- `greedyGraphColoring`: in the order of `sort.Strings`. -/
def greedyGraphColoring (g : ConflictGraph) : ColorAssignment :=
  let color := Coloring.greedy g.neighbors (g.nodes.insertionSort (· ≤ ·))
  ⟨color, if g.nodes = [] then 0 else (color.map (·.2)).foldl max 0 + 1⟩

/-- The intents of one colour, in the order of the block. -/
def batchOf (intents : List TxIntent) (coloring : ColorAssignment) (i : Nat) : List TxIntent :=
  intents.filter fun t => coloring.colorOf t.txId = i

/-- The batches with the numbers they have in the schedule; a colour without
transactions has none. -/
def batchesOf (intents : List TxIntent) (coloring : ColorAssignment) : List (Nat × List TxIntent) :=
  ((List.range coloring.numColors).map fun i => (i, batchOf intents coloring i)).filter
    fun b => b.2 ≠ []

def buildBatchSchedule (blockNum : UInt64) (intents : List TxIntent) (coloring : ColorAssignment) :
    BatchSchedule :=
  ⟨blockNum, (batchesOf intents coloring).map fun b =>
    ⟨Int64.ofNat b.1, b.2.map (·.txId)⟩, str "v1"⟩

def scheduleBatches (intents : List TxIntent) : List (List TxIntent) :=
  (batchesOf intents (greedyGraphColoring (buildConflictGraph intents))).map (·.2)

/-- `AnalyzeBatchAndSchedule`: the bytes for the metadata, or nil without intents. -/
def analyzeBatchAndSchedule (block : Block) : Result (Option Bytes) := do
  let intents ← extractIntentsFromBlock block.data
  if intents = [] then .ok none
  else
    let coloring := greedyGraphColoring (buildConflictGraph intents)
    .ok (some (buildBatchSchedule block.header.number intents coloring).marshal)

/-- The part of `WriteBlock` that puts the bytes into the metadata. -/
def writeOrdererMetadata (block : Block) (value : Option Bytes) : Block :=
  match value with
  | none => block
  | some v =>
    let slot := Metadata.marshal ⟨v⟩
    { block with metadata := block.metadata.map fun ms => ms.set MetadataIndex.orderer slot }

end FabricOev.Orderer
