import FabricOev.Bench.Commit
import FabricOev.Lib.Footprint
import FabricOev.Protos.SignedTx

/-!
# Replay as jobs on the adapter

The adapter is a key-value store and an invocation a job on it. In these terms the
replay of a schedule has a form in which neither the order of Go's maps nor the flags
of the block occur: look every id up, then merge batch after batch.
-/

namespace FabricOev.Bench

open Go Protos Ledger Lib StateDbAdapter Result Option UInt64 List FinMap

def adapterStore : Store StateDbAdapter CompositeKey Bytes where
  get a k := a.getState k.ns k.key
  put a k v := a.putState k.ns k.key v
  get_put_self a k v := by simp [StateDbAdapter.getState, StateDbAdapter.putState, UpdateBatch.get]
  get_put_ne a k k' v h := by
    have hc : ¬ compare k k' = .eq := fun h' => h (Std.LawfulEqOrd.eq_of_compare h')
    simp [StateDbAdapter.getState, StateDbAdapter.putState, UpdateBatch.get,
      Std.ExtTreeMap.getElem?_insert, hc]
  put_comm a k k' v v' h := by
    have hins : (a.batch.insert k ⟨some v, a.height⟩).insert k' ⟨some v', a.height⟩ =
        (a.batch.insert k' ⟨some v', a.height⟩).insert k ⟨some v, a.height⟩ :=
      insert_comm h
    exact congrArg (fun b => { a with batch := b }) hins

def inNamespace (ns : GoString) (ws : List (GoString × Bytes)) : List (CompositeKey × Bytes) :=
  ws.map fun w => (⟨ns, w.1⟩, w.2)

variable {ns : GoString} {ws : List (GoString × Bytes)}
  {order : Nat → WriteMap → List (GoString × Bytes)} {block : Block} {s : BatchSchedule}
  {db : StateDb} {a : StateDbAdapter} {t : SignedTx}

theorem inNamespace_perm {ws' : List (GoString × Bytes)} (h : ws.Perm ws') :
    (inNamespace ns ws).Perm (inNamespace ns ws') := h.map _

theorem inNamespace_pairwise (h : ws.Pairwise fun a b => a.1 ≠ b.1) :
    (inNamespace ns ws).Pairwise fun a b => a.1 ≠ b.1 := by
  refine pairwise_map.mpr (h.imp fun hne he => hne ?_)
  exact congrArg CompositeKey.key he

variable (ns ws a db)

theorem putWrites_eq : putWrites ns ws a = adapterStore.putAll a (inNamespace ns ws) := by
  rw [putWrites, Store.putAll, inNamespace, foldl_map]
  rfl

theorem flush_empty (h : Height) : (⟨db, ∅, h⟩ : StateDbAdapter).flush.state = db.state :=
  overlay_empty Update.toValue db.state

/-- The adapter shows what its flush would store. -/
theorem getState_eq_flush (ns key : GoString) :
    a.getState ns key = (a.flush.getState ns key).map (·.value) := by
  rw [flush, StateDb.getState_applyUpdates, getState]
  cases a.batch.get ns key with
  | none => rfl
  | some u =>
    cases hu : u.value <;> simp [Update.toValue, hu]

theorem flush_putState (ns key : GoString) (v : Bytes) :
    (a.putState ns key v).flush.state = a.flush.state.insert ⟨ns, key⟩ ⟨v, a.height⟩ :=
  overlay_insert _ _ _ _ _

variable {ns ws a db}

theorem flush_putWrites (cc : GoString) (ws : List (GoString × Bytes)) (a : StateDbAdapter) :
    (putWrites cc ws a).flush =
      ⟨ws.foldl (fun m w => m.insert ⟨cc, w.1⟩ ⟨w.2, a.height⟩) a.flush.state, some a.height⟩ := by
  induction ws generalizing a with
  | nil => rfl
  | cons w ws ih =>
    rw [foldl_cons, ← flush_putState]
    exact ih (a.putState cc w.1 w.2)

/-! ## Jobs -/

/-- The job of a scheduled id: what its invocation, if it has one, writes. -/
def invJob (inv : Option Invocation) : Store.Job StateDbAdapter CompositeKey Bytes :=
  fun a => inv.bind fun inv => (inv.replay a).map fun ws => inNamespace inv.ccName ws.toList

/-- Merging a replay is merging its job, in whatever order the write map is ranged over. -/
theorem mergeReplay_eq {order : WriteMap → List (GoString × Bytes)}
    (ho : ∀ m, (order m).Perm m.toList) (base a : StateDbAdapter) (inv : Option Invocation) :
    mergeReplay order base a inv = adapterStore.merge base a (invJob inv) := by
  cases inv with
  | none => rfl
  | some inv =>
    simp only [mergeReplay, Store.merge, invJob, bind_some]
    cases inv.replay base with
    | none => rfl
    | some ws =>
      have hd := pairwise_ne_toList ws
      have hd' := ((ho ws).pairwise_iff fun h => Ne.symm h).mpr hd
      simp only [map_some, putWrites_eq]
      exact adapterStore.putAll_perm (inNamespace_perm (ho ws)) (inNamespace_pairwise hd') a

theorem mergeResults_eq (ho : ∀ j m, (order j m).Perm m.toList) (base : StateDbAdapter) (j : Nat)
    (invs : List (Option Invocation)) (a : StateDbAdapter) :
    mergeResults order base j invs a =
      invs.foldl (fun a inv => adapterStore.merge base a (invJob inv)) a := by
  induction invs generalizing j a with
  | nil => rfl
  | cons inv invs ih => rw [mergeResults, ih, mergeReplay_eq (ho j), foldl_cons]

/-- A batch is its jobs run in parallel; for a batch of one that is a single step. -/
theorem replayBatch_eq (ho : ∀ j m, (order j m).Perm m.toList) (block : Block) (a : StateDbAdapter)
    (txIds : List GoString) :
    replayBatch order block a txIds =
      (txIds.mapM (lookupInvocation block)).map fun invs => adapterStore.parallel invJob invs a := by
  unfold replayBatch
  split
  · rfl
  · rename_i txId
    simp only [replaySingleTx, mapM_cons, mapM_nil]
    cases lookupInvocation block txId with
    | error f => rfl
    | ok inv => exact congrArg Except.ok (mergeReplay_eq (ho 0) a a inv)
  · simp only [mergeResults_eq ho]
    cases txIds.mapM (lookupInvocation block) with
    | error f | ok invs => rfl

def lookupBatches (block : Block) (es : List BatchEntry) :
    Result (List (List (Option Invocation))) :=
  es.mapM fun e => e.txIds.mapM (lookupInvocation block)

theorem lookupBatches_eq (block : Block) (s : BatchSchedule) :
    lookupBatches block s.batches =
      s.batchIds.mapM fun ids => ids.mapM (lookupInvocation block) := by
  rw [lookupBatches, BatchSchedule.batchIds, mapM_map]
  rfl

def runBatches (bs : List (List (Option Invocation))) (a : StateDbAdapter) : StateDbAdapter :=
  bs.foldl (fun a invs => adapterStore.parallel invJob invs a) a

theorem replayBatches_eq (order : MapOrder) (block : Block) (i : Nat) (es : List BatchEntry)
    (a : StateDbAdapter) :
    replayBatches order block i es a = (lookupBatches block es).map fun bs => runBatches bs a := by
  induction es generalizing i a with
  | nil => rfl
  | cons e es ih =>
    rw [replayBatches, lookupBatches, mapM_cons, replayBatch_eq (order.writes_perm i)]
    cases e.txIds.mapM (lookupInvocation block) with
    | error f => rfl
    | ok invs =>
      change replayBatches order block (i + 1) es (adapterStore.parallel invJob invs a) = _
      rw [ih, lookupBatches]
      cases es.mapM fun e => e.txIds.mapM (lookupInvocation block) with
      | error f | ok bs => rfl

theorem replaySchedule_eq (order : MapOrder) (block : Block) (s : BatchSchedule) (db : StateDb) :
    replaySchedule order block s db = (lookupBatches block s.batches).map fun bs =>
      runBatches bs (StateDbAdapter.new db block.header.number block.data.length) :=
  replayBatches_eq order block 0 s.batches _

/-- What holds of a new adapter and is kept by every put holds after the replay. -/
theorem replaySchedule_invariant {P : StateDbAdapter → Prop} {order : MapOrder}
    (hinit : P (StateDbAdapter.new db block.header.number block.data.length))
    (hput : ∀ a k v, P a → P (adapterStore.put a k v))
    (h : replaySchedule order block s db = .ok a) : P a := by
  rw [replaySchedule_eq] at h
  cases hb : lookupBatches block s.batches with
  | error f => simp [hb, Except.map] at h
  | ok bs =>
    simp only [hb, Except.map, Except.ok.injEq] at h
    subst h
    refine foldlRecOn bs _ hinit fun acc hacc invs _ => ?_
    exact adapterStore.parallel_invariant hput invJob invs hacc

/-- A replay writes to the adapter's batch only. -/
theorem replaySchedule_adapter {order : MapOrder} (h : replaySchedule order block s db = .ok a) :
    a.db = db ∧ a.height = ⟨block.header.number, ofNat block.data.length - 1⟩ := by
  let P := fun a : StateDbAdapter =>
    a.db = db ∧ a.height = ⟨block.header.number, ofNat block.data.length - 1⟩
  have hinit : P (new db block.header.number block.data.length) := ⟨rfl, rfl⟩
  exact replaySchedule_invariant hinit (fun _ _ _ h => h) h

/-- Flags and other metadata have no part in it. -/
theorem replaySchedule_congr (order order' : MapOrder) {b b' : Block}
    (hn : b.header.number = b'.header.number) (hd : b.data = b'.data) (s : BatchSchedule)
    (db : StateDb) : replaySchedule order b s db = replaySchedule order' b' s db := by
  have hl : lookupInvocation b = lookupInvocation b' := by
    funext txId
    rw [lookupInvocation, lookupInvocation, hd]
  simp only [replaySchedule_eq, lookupBatches, hl, hn, hd]

/-- A batch of the schedule runs on the adapter that the batches before it leave. -/
def BatchBase (order : MapOrder) (block : Block) (s : BatchSchedule) (db : StateDb)
    (e : BatchEntry) (a : StateDbAdapter) : Prop :=
  ∃ earlier later, s.batches = earlier ++ e :: later ∧ replayBatches order block 0 earlier
      (StateDbAdapter.new db block.header.number block.data.length) = .ok a

/-- Transaction `i` is the first with its scheduled id, and its replay on its batch's adapter writes
`ws`. -/
def ReplayedAt (order : MapOrder) (block : Block) (s : BatchSchedule) (db : StateDb) (i : Nat)
    (inv : Invocation) (ws : WriteMap) : Prop :=
  ∃ e a id d, BatchBase order block s db e a ∧ id ∈ e.txIds ∧
    findTxInBlock (block.data.take i) id = .ok none ∧ block.data[i]? = some d ∧
    txIdOf d = .ok (some id) ∧ extractInvocationFromEnvBytes d = .ok inv ∧
    inv.replay a = some ws

theorem Invocation.replay_ccName {inv : Invocation} {ws : WriteMap} (h : inv.replay a = some ws) :
    inv.ccName = ccSmallBank ∨ inv.ccName = ccYcsb := by
  unfold Invocation.replay replayTx at h
  split at h
  · rename_i hc
    exact .inl hc
  · split at h
    · rename_i hc
      exact .inr hc
    · simp [Except.toOption] at h

theorem txIdOf_envelope (h : t.Reads) : txIdOf t.envelope = .ok (some t.txId) := by
  rw [txIdOf, h.channelHeaderOf]
  rfl

/-- The chaincode of the header with the arguments of the proposal; the endorsed part has
no say. -/
theorem invocation_envelope (h : t.Reads) {fn : GoString} {args : List GoString}
    (hargs : t.args = fn :: args) :
    extractInvocationFromEnvBytes t.envelope = .ok ⟨t.ccId.name, fn, args⟩ := by
  have hhdr : deref t.payload.header = .ok t.header := rfl
  have hext : getChaincodeHeaderExtension t.payload.header = .ok t.hdrExt := by
    simp only [getChaincodeHeaderExtension, hhdr, h.channelHeader, h.hdrExt, bind, Except.bind,
      ofOption]
  simp only [extractInvocationFromEnvBytes, h.envelope, h.payload, hext, h.transaction, bind,
    Except.bind]
  simp only [SignedTx.hdrExt, SignedTx.transaction, deref, h.actionPayload,
    h.proposalPayload, h.invocationSpec, ofOption]
  simp only [SignedTx.invocationSpec, hargs]

end FabricOev.Bench
