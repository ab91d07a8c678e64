import FabricOev.Ledger.ScheduleFrame

/-!
# Versions and values

The version check compares versions and never values, so it rests on a version standing for one
value of its key. Between blocks it does: whatever a block writes carries its number. Inside a
scheduled commit the database is written twice, by the replay under the height of the last
transaction, and then by the validated transactions, the last one under the same height.
-/

namespace FabricOev.Ledger

open Go Protos Bench Orderer Lib List KvLedger StateDbAdapter Option Except StateDb

/-- Two reads of a key that return the same version return the same value. -/
def VersionsSound (dbs : Set StateDb) : Prop :=
  ∀ p ∈ dbs, ∀ q ∈ dbs, ∀ ns key,
    (p.getState ns key).map (·.version) = (q.getState ns key).map (·.version) →
      (p.getState ns key).map (·.value) = (q.getState ns key).map (·.value)

def VersionsBelow (n : Nat) (db : StateDb) : Prop :=
  ∀ ns key e, db.getState ns key = some e → e.version.blockNum.toNat < n

theorem VersionsSound.subset {dbs dbs' : Set StateDb} (hs : VersionsSound dbs) (h : dbs' ⊆ dbs) :
    VersionsSound dbs' :=
  fun p hp q hq => hs p (h hp) q (h hq)

theorem VersionsBelow.mono {n m : Nat} {db : StateDb} (h : VersionsBelow n db) (hnm : n ≤ m) :
    VersionsBelow m db := by
  intro ns key e he
  have := h ns key e he
  omega

/-- A new database may repeat the entries of an old one, and needs versions of its own for
the others. -/
theorem VersionsSound.insert {dbs : Set StateDb} (hs : VersionsSound dbs) {db q : StateDb}
    (hdb : db ∈ dbs)
    (hq : ∀ ns key, q.getState ns key = db.getState ns key ∨
      ∀ p ∈ dbs, ∀ e e', p.getState ns key = some e → q.getState ns key = some e' →
        e.version = e'.version → e.value = e'.value) :
    VersionsSound (Set.insert q dbs) := by
  have hold : ∀ p ∈ dbs, ∀ ns key,
      (p.getState ns key).map (·.version) = (q.getState ns key).map (·.version) →
        (p.getState ns key).map (·.value) = (q.getState ns key).map (·.value) := by
    intro p hp ns key hv
    cases hq ns key with
    | inl hsame =>
      rw [hsame] at hv ⊢
      exact hs p hp db hdb ns key hv
    | inr hnew =>
      cases hpk : p.getState ns key with
      | none =>
        rw [hpk] at hv
        rw [map_eq_none_iff.mp hv.symm]
      | some e =>
        rw [hpk] at hv
        obtain ⟨e', hqk, hve⟩ := map_eq_some_iff.mp hv.symm
        rw [hqk]
        exact congrArg some (hnew p hp e e' hpk hqk hve.symm)
  intro p hp p' hp' ns key hv
  obtain rfl | hp := hp
  · obtain rfl | hp' := hp'
    · rfl
    · exact (hold p' hp' ns key hv.symm).symm
  · obtain rfl | hp' := hp'
    · exact hold p hp ns key hv
    · exact hs p hp p' hp' ns key hv

def OfBlock (n : Nat) (b : UpdateBatch) : Prop :=
  ∀ (k : CompositeKey) (u : Update), b[k]? = some u → u.version.blockNum.toNat = n

section Batch

variable {n : Nat} {db : StateDb} {b : UpdateBatch} {h : Height}

theorem getState_apply_cases (ns key : GoString) :
    (db.applyUpdates b h).getState ns key = db.getState ns key ∨
      ∃ u, b.get ns key = some u ∧ (db.applyUpdates b h).getState ns key = u.toValue := by
  rw [getState_applyUpdates]
  cases hu : b.get ns key with
  | none => exact .inl rfl
  | some u => exact .inr ⟨u, rfl, rfl⟩

variable {u : Update}

theorem Update.toValue_eq_some {e : VersionedValue} :
    u.toValue = some e ↔ u.value = some e.value ∧ u.version = e.version := by
  unfold Update.toValue
  cases hu : u.value with
  | none => simp
  | some v =>
    obtain ⟨v', ver⟩ := e
    simp

theorem VersionsBelow.applyUpdates (hdb : VersionsBelow n db) (hb : OfBlock n b) :
    VersionsBelow (n + 1) (db.applyUpdates b h) := by
  intro ns key e he
  cases getState_apply_cases ns key with
  | inl hsame =>
    have := hdb ns key e (hsame.symm.trans he)
    omega
  | inr hnew =>
    obtain ⟨u, hu, huv⟩ := hnew
    have hver := (Update.toValue_eq_some.mp (huv.symm.trans he)).2
    have := hb ⟨ns, key⟩ u hu
    rw [hver] at this
    omega

/-- What a batch of block `n` writes is new to databases below `n`. -/
theorem VersionsSound.applyUpdates {dbs : Set StateDb} (hs : VersionsSound dbs) (hdb : db ∈ dbs)
    (hbelow : ∀ p ∈ dbs, VersionsBelow n p) (hb : OfBlock n b) :
    VersionsSound (Set.insert (db.applyUpdates b h) dbs) := by
  apply hs.insert hdb
  intro ns key
  cases getState_apply_cases ns key with
  | inl hsame => exact .inl hsame
  | inr hnew =>
    right
    intro p hp e e' he he' hver
    obtain ⟨u, hu, huv⟩ := hnew
    have hver' := (Update.toValue_eq_some.mp (huv.symm.trans he')).2
    have hold := hbelow p hp ns key e he
    have hnum := hb ⟨ns, key⟩ u hu
    rw [hver', ← hver] at hnum
    omega

end Batch

variable {updates : UpdateBatch} {s : BatchSchedule} {a : StateDbAdapter} {l : KvLedger}
  {block : Block} {rest : List KvLedger} {steps : List StateDb}

theorem validateLoop_ofBlock {hash : Bytes → Bytes} {db : StateDb} {number : UInt64} {mvcc : Bool}
    {ds : List Bytes} {flags flags' : TxFlags}
    (h : validateLoop hash db number mvcc 0 ds (flags, ∅) = .ok (flags', updates)) :
    OfBlock number.toNat updates := by
  intro k u hk
  cases validateLoop_entries h hk with
  | inl hempty => simp at hempty
  | inr hentry =>
    obtain ⟨i, d, rw, -, -, -, hmem⟩ := hentry
    rw [version_of_mem_writeEntries hmem]

/-- The replay puts values, all under the height of the block. -/
theorem replaySchedule_batch {order : MapOrder} {db : StateDb}
    (h : replaySchedule order block s db = .ok a) {k : CompositeKey} (hk : a.batch[k]? = some u) :
    u.version = blockHeight block ∧ u.value.isSome = true := by
  let P := fun a : StateDbAdapter => a.height = blockHeight block ∧
    ∀ (k : CompositeKey) (u : Update), a.batch[k]? = some u →
      u.version = blockHeight block ∧ u.value.isSome = true
  have hinit : P (new db block.header.number block.data.length) :=
    ⟨rfl, fun k u hu => by simp [new] at hu⟩
  have hput : ∀ a k v, P a → P (adapterStore.put a k v) := by
    intro a k v hP
    obtain ⟨hheight, hbatch⟩ := hP
    refine ⟨hheight, fun k' u hu => ?_⟩
    have hins : (a.batch.insert k ⟨some v, a.height⟩)[k']? = some u := hu
    by_cases hk : k = k'
    · rw [← hk, Std.ExtTreeMap.getElem?_insert_self] at hins
      rw [← some.inj hins]
      exact ⟨hheight, rfl⟩
    · have hc : ¬ compare k k' = .eq := fun h => hk (Std.LawfulEqOrd.eq_of_compare h)
      rw [Std.ExtTreeMap.getElem?_insert, if_neg hc] at hins
      exact hbatch k' u hins
  exact (replaySchedule_invariant hinit hput h).2 k u hk

/-! ## The databases of a commit -/

/-- The databases a commit passes through. -/
def CommitRun.dbs (r : CommitRun) : Set StateDb := {db | ∃ p ∈ r.trail, p.stateDb = db}

theorem commitHistory_trail (cfg : Config) (block : Block) (start : KvLedger)
    (rest : List KvLedger) (l : KvLedger) :
    ∃ hist : List KvLedger, (commitHistory cfg block start rest l).start = start ∧
      (commitHistory cfg block start rest l).rest = rest ++ hist ∧ hist.length ≤ 1 ∧
      ∀ p ∈ hist, p.blocks = l.blocks ∧ p.stateDb = l.stateDb := by
  unfold commitHistory
  split
  · split
    · exact ⟨[_], rfl, rfl, le_refl _, by simp⟩
    · exact ⟨[], rfl, by simp, by simp, by simp⟩
    · exact ⟨[], rfl, by simp, by simp, by simp⟩
  · exact ⟨[], rfl, by simp, by simp, by simp⟩

/-- The ledgers after the first, with the state databases: the block is stored before them. -/
inductive CommitTrail (l : KvLedger) (block : Block) : List KvLedger → List StateDb → Prop
  | failed : CommitTrail l block [] []
  | stored {l₁ : KvLedger} : l₁.stateDb = l.stateDb → l.blocks.length ≤ l₁.blocks.length →
      CommitTrail l block [l₁] []
  | written {l₁ last : KvLedger} {mids hist : List KvLedger} : l₁.stateDb = l.stateDb →
      block.header.number.toNat = l.blocks.length → l.blocks.length < last.blocks.length →
      hist.length ≤ 1 → (∀ p ∈ hist, p.blocks = last.blocks ∧ p.stateDb = last.stateDb) →
      CommitTrail l block (l₁ :: (mids ++ [last]) ++ hist) ((mids ++ [last]).map (·.stateDb))

/-- The state databases after the first, in order; before any, the block is stored. -/
structure DbSteps (l : KvLedger) (block : Block) (r : CommitRun) (steps : List StateDb) : Prop where
  dbs : r.dbs = {db | db ∈ l.stateDb :: steps}
  last : r.ledger.stateDb = steps.getLastD l.stateDb
  grows : l.blocks.length ≤ r.ledger.blocks.length
  stored : steps ≠ [] → block.header.number.toNat = l.blocks.length ∧
    l.blocks.length < r.ledger.blocks.length

theorem CommitTrail.dbs (h : CommitTrail l block rest steps) (outcome : Result Unit) :
    CommitRun.dbs ⟨l, rest, outcome⟩ = {db | db ∈ l.stateDb :: steps} := by
  ext db
  show (∃ p ∈ l :: rest, p.stateDb = db) ↔ db ∈ l.stateDb :: steps
  cases h with
  | failed => simp [eq_comm]
  | stored h1 => simp [h1, eq_comm]
  | @written l1 last mids hist h1 _ _ _ hhist =>
    constructor
    · intro hp
      obtain ⟨p, hp, rfl⟩ := hp
      obtain rfl | hp := mem_cons.mp hp
      · exact mem_cons_self
      · obtain hp | hp := mem_append.mp hp
        · obtain rfl | hp := mem_cons.mp hp
          · exact h1 ▸ mem_cons_self
          · exact mem_cons_of_mem _ (mem_map_of_mem hp)
        · rw [(hhist p hp).2]
          exact mem_cons_of_mem _ (mem_map_of_mem (by simp))
    · intro hdb
      obtain rfl | hdb := mem_cons.mp hdb
      · exact ⟨l, mem_cons_self, rfl⟩
      · obtain ⟨p, hp, rfl⟩ := mem_map.mp hdb
        exact ⟨p, mem_cons_of_mem _ (mem_append_left _ (mem_cons_of_mem _ hp)), rfl⟩

/-- The ledger a commit leaves has the last state database it wrote. -/
theorem CommitTrail.ledger (h : CommitTrail l block rest steps) :
    (rest.getLastD l).stateDb = steps.getLastD l.stateDb ∧
      l.blocks.length ≤ (rest.getLastD l).blocks.length ∧
      (steps ≠ [] → block.header.number.toNat = l.blocks.length ∧
        l.blocks.length < (rest.getLastD l).blocks.length) := by
  cases h with
  | failed => exact ⟨rfl, le_refl _, fun h => absurd rfl h⟩
  | stored h1 hblocks => exact ⟨h1, hblocks, fun h => absurd rfl h⟩
  | @written l1 last mids hist h1 hnum hblocks hlen hhist =>
    have hlast : ((l1 :: (mids ++ [last]) ++ hist).getLastD l).stateDb = last.stateDb ∧
        ((l1 :: (mids ++ [last]) ++ hist).getLastD l).blocks = last.blocks := by
      cases hist with
      | nil =>
        rw [append_nil, ← cons_append, getLastD_concat]
        exact ⟨rfl, rfl⟩
      | cons q hist =>
        obtain rfl : hist = [] := length_eq_zero_iff.mp (by simpa using hlen)
        have hq := hhist q (by simp)
        rw [getLastD_concat]
        exact ⟨hq.2, hq.1⟩
    rw [hlast.1, hlast.2, map_append, map_singleton, getLastD_concat]
    exact ⟨rfl, hblocks.le, fun _ => ⟨hnum, hblocks⟩⟩

theorem CommitTrail.dbSteps {r : CommitRun} (hstart : r.start = l)
    (h : CommitTrail l block r.rest steps) : DbSteps l block r steps := by
  obtain ⟨start, rest, outcome⟩ := r
  obtain rfl : start = l := hstart
  obtain ⟨hlast, hgrows, hstored⟩ := h.ledger
  exact ⟨h.dbs outcome, hlast, hgrows, hstored⟩

/-- The end both paths have: block stored, databases written, then the history. -/
theorem commitHistory_commitTrail (cfg : Config) (block block' : Block) (l1 : KvLedger)
    (mids : List KvLedger) (last : KvLedger) (h1 : l1.stateDb = l.stateDb)
    (hnum : block.header.number.toNat = l.blocks.length)
    (hblocks : l.blocks.length < last.blocks.length) :
    (commitHistory cfg block' l (l1 :: (mids ++ [last])) last).start = l ∧
      CommitTrail l block (commitHistory cfg block' l (l1 :: (mids ++ [last])) last).rest
        ((mids ++ [last]).map (·.stateDb)) := by
  obtain ⟨hist, hstart, hrest, hlen, hhist⟩ :=
    commitHistory_trail cfg block' l (l1 :: (mids ++ [last])) last
  rw [hrest]
  exact ⟨hstart, .written h1 hnum hblocks hlen hhist⟩

/-- A scheduled commit gets as far as the state database, with this replay and this batch. -/
structure ScheduledWrites (cfg : Config) (order : MapOrder) (l : KvLedger) (block : Block)
    (s : BatchSchedule) (a : StateDbAdapter) (updates : UpdateBatch) : Prop where
  replayed : replaySchedule order block s l.stateDb = .ok a
  validated : ∃ block' blocks, prepareWithBatchSchedule cfg order l.stateDb block s =
    .ok (block', updates) ∧ addBlock l.blocks block' = .ok blocks

theorem commitSchedule_trail (cfg : Config) (order : MapOrder) (l : KvLedger)
    (block : Block) (s : BatchSchedule) :
    (commitWithBatchSchedule cfg order l block s).start = l ∧
      ((CommitTrail l block (commitWithBatchSchedule cfg order l block s).rest [] ∧
          ¬ ∃ a updates, ScheduledWrites cfg order l block s a updates) ∨
        ∃ a updates, ScheduledWrites cfg order l block s a updates ∧
          CommitTrail l block (commitWithBatchSchedule cfg order l block s).rest
            [a.flush, a.flush.applyUpdates updates (blockHeight block)]) := by
  cases hp : prepareWithBatchSchedule cfg order l.stateDb block s with
  | error f =>
    simp only [commitWithBatchSchedule, hp]
    refine ⟨trivial, .inl ⟨.failed, fun h => ?_⟩⟩
    obtain ⟨a, updates, hw⟩ := h
    obtain ⟨b, blocks, hb, -⟩ := hw.validated
    rw [hp] at hb
    cases hb
  | ok pr =>
    obtain ⟨block', updates⟩ := pr
    cases ha : addBlock l.blocks block' with
    | error f =>
      simp only [commitWithBatchSchedule, hp, ha]
      refine ⟨trivial, .inl ⟨.failed, fun h => ?_⟩⟩
      obtain ⟨a, updates', hw⟩ := h
      obtain ⟨b, blocks, hb, hadd⟩ := hw.validated
      rw [hp] at hb
      cases hb
      rw [ha] at hadd
      cases hadd
    | ok blocks =>
      obtain ⟨p⟩ := prepareSchedule_ok hp
      obtain ⟨hnum, rfl⟩ := addBlock_ok ha
      obtain ⟨hhdr, hheight, hreplay⟩ := p.same_block
      cases hr : replaySchedule order block s l.stateDb with
      | error f =>
        simp only [commitWithBatchSchedule, hp, ha, commitBenchmarkTxs, hreplay, hr, bind,
          Except.bind]
        refine ⟨trivial, .inl ⟨.stored rfl (by simp), fun h => ?_⟩⟩
        obtain ⟨a, updates', hw⟩ := h
        cases hr.symm.trans hw.replayed
      | ok a =>
        simp only [commitWithBatchSchedule, hp, ha, commitBenchmarkTxs, hreplay, hr, bind,
          Except.bind, hheight]
        obtain ⟨hstart, htrail⟩ := commitHistory_commitTrail cfg block block' (l := l)
          ⟨l.blocks ++ [block'], l.stateDb, l.historyDb⟩
          [⟨l.blocks ++ [block'], a.flush, l.historyDb⟩]
          ⟨l.blocks ++ [block'], a.flush.applyUpdates updates (blockHeight block), l.historyDb⟩
          rfl (hhdr ▸ hnum) (by simp)
        exact ⟨hstart, .inr ⟨a, updates, ⟨hr, block', _, hp, ha⟩, htrail⟩⟩

theorem commitMvcc_trail (cfg : Config) (l : KvLedger) (block : Block) :
    (commitMvcc cfg l block).start = l ∧ (CommitTrail l block (commitMvcc cfg l block).rest [] ∨
        ∃ updates, OfBlock l.blocks.length updates ∧
          CommitTrail l block (commitMvcc cfg l block).rest
            [l.stateDb.applyUpdates updates (blockHeight block)]) := by
  unfold commitMvcc
  cases hv : validateAndPrepareBatch cfg.hash l.stateDb block true with
  | error f => exact ⟨rfl, .inl .failed⟩
  | ok pr =>
    obtain ⟨block', updates⟩ := pr
    obtain ⟨flags, -, hv⟩ := bind_ok.mp hv
    obtain ⟨⟨flags', updates'⟩, hloop, hv⟩ := bind_ok.mp hv
    cases hv
    dsimp only
    cases ha : addBlock l.blocks (block.setFilter flags') with
    | error f => exact ⟨rfl, .inl .failed⟩
    | ok blocks =>
      obtain ⟨hnum, rfl⟩ := addBlock_ok ha
      obtain ⟨hstart, htrail⟩ := commitHistory_commitTrail cfg block (block.setFilter flags') (l := l)
        ⟨l.blocks ++ [block.setFilter flags'], l.stateDb, l.historyDb⟩ []
        ⟨l.blocks ++ [block.setFilter flags'],
          l.stateDb.applyUpdates updates (blockHeight block), l.historyDb⟩ rfl hnum (by simp)
      refine ⟨hstart, .inr ⟨updates, ?_, htrail⟩⟩
      rw [← hnum]
      exact validateLoop_ofBlock hloop

/-- Nothing, the batch of the validated transactions, or first the replay and then that batch. -/
inductive CommitWrites (cfg : Config) (order : MapOrder) (l : KvLedger) (block : Block) :
    List StateDb → Prop
  | nothing : CommitWrites cfg order l block []
  | validated {updates : UpdateBatch} : OfBlock l.blocks.length updates →
      CommitWrites cfg order l block [l.stateDb.applyUpdates updates (blockHeight block)]
  | replayed {s : BatchSchedule} {a : StateDbAdapter} {updates : UpdateBatch} :
      cfg.benchReplayEnabled = true → parseBatchSchedule block = some s →
      ScheduledWrites cfg order l block s a updates →
      CommitWrites cfg order l block [a.flush, a.flush.applyUpdates updates (blockHeight block)]

theorem commit_dbs (cfg : Config) (order : MapOrder) (l : KvLedger) (block : Block) :
    ∃ steps, CommitWrites cfg order l block steps ∧
      DbSteps l block (commit cfg order l block) steps := by
  have hmvcc : ∃ steps, CommitWrites cfg order l block steps ∧
      DbSteps l block (commitMvcc cfg l block) steps := by
    obtain ⟨hstart, h⟩ := commitMvcc_trail cfg l block
    cases h with
    | inl h => exact ⟨[], .nothing, h.dbSteps hstart⟩
    | inr h =>
      obtain ⟨updates, hupd, h⟩ := h
      exact ⟨_, .validated hupd, h.dbSteps hstart⟩
  unfold commit
  split
  · rename_i hbench
    cases hs : parseBatchSchedule block with
    | none => exact hmvcc
    | some s =>
      obtain ⟨hstart, h⟩ := commitSchedule_trail cfg order l block s
      cases h with
      | inl h => exact ⟨[], .nothing, h.1.dbSteps hstart⟩
      | inr h =>
        obtain ⟨a, updates, hw, h⟩ := h
        exact ⟨_, .replayed hbench hs hw, h.dbSteps hstart⟩
  · exact hmvcc

/-- Whatever the replay and the last transaction both write, they give the same value. -/
def ReplayKept (cfg : Config) (order : MapOrder) (l : KvLedger) (block : Block) : Prop :=
  cfg.benchReplayEnabled = true → ∀ s, parseBatchSchedule block = some s →
    ∀ a updates, ScheduledWrites cfg order l block s a updates →
      ∀ (k : CompositeKey) (v w : Bytes), a.batch[k]? = some ⟨some v, blockHeight block⟩ →
        updates[k]? = some ⟨some w, blockHeight block⟩ → v = w

section Commit

variable {cfg : Config} {order : MapOrder} (h : ScheduledWrites cfg order l block s a updates)
include h

/-- The replay and the batch of a scheduled commit are determined by it. -/
theorem ScheduledWrites.unique {a' : StateDbAdapter} {updates' : UpdateBatch}
    (h' : ScheduledWrites cfg order l block s a' updates') : a = a' ∧ updates = updates' := by
  obtain ⟨b, bs, hb, -⟩ := h.validated
  obtain ⟨b', bs', hb', -⟩ := h'.validated
  obtain ⟨-, rfl⟩ := Prod.mk.inj (ok.inj (hb.symm.trans hb'))
  exact ⟨ok.inj (h.replayed.symm.trans h'.replayed), rfl⟩

theorem ScheduledWrites.trail :
    (commitWithBatchSchedule cfg order l block s).start = l ∧
      CommitTrail l block (commitWithBatchSchedule cfg order l block s).rest
        [a.flush, a.flush.applyUpdates updates (blockHeight block)] := by
  obtain ⟨hstart, htrail⟩ := commitSchedule_trail cfg order l block s
  refine ⟨hstart, ?_⟩
  cases htrail with
  | inl hnone => exact absurd ⟨a, updates, h⟩ hnone.2
  | inr hsome =>
    obtain ⟨a', updates', h', htrail⟩ := hsome
    obtain ⟨rfl, rfl⟩ := h.unique h'
    exact htrail

/-! ## One commit -/

theorem ScheduledWrites.ofBlock :
    block.header.number.toNat = l.blocks.length ∧ OfBlock l.blocks.length a.batch ∧
      OfBlock l.blocks.length updates := by
  obtain ⟨block', blocks, hp, ha⟩ := h.validated
  obtain ⟨p⟩ := prepareSchedule_ok hp
  have hnum : block.header.number.toNat = l.blocks.length := by
    rw [← (addBlock_ok ha).1, p.block_eq]
    rfl
  refine ⟨hnum, fun k u hk => ?_, hnum ▸ validateLoop_ofBlock p.loop_eq⟩
  rw [(replaySchedule_batch h.replayed hk).1, ← hnum]
  rfl

theorem ScheduledWrites.sound
    (hkept : ∀ (k : CompositeKey) (v w : Bytes), a.batch[k]? = some ⟨some v, blockHeight block⟩ →
      updates[k]? = some ⟨some w, blockHeight block⟩ → v = w)
    {dbs : Set StateDb} (hs : VersionsSound dbs) (hdb : l.stateDb ∈ dbs)
    (hbelow : ∀ p ∈ dbs, VersionsBelow l.blocks.length p) :
    VersionsSound (Set.insert (a.flush.applyUpdates updates (blockHeight block))
      (Set.insert a.flush dbs)) := by
  obtain ⟨-, hreplay, hupd⟩ := h.ofBlock
  have hflush : a.flush = l.stateDb.applyUpdates a.batch a.height := by
    rw [flush, (replaySchedule_adapter h.replayed).1]
  have hfirst : VersionsSound (Set.insert a.flush dbs) :=
    hflush ▸ hs.applyUpdates hdb hbelow hreplay
  apply hfirst.insert (.inl rfl)
  intro ns key
  cases getState_apply_cases ns key with
  | inl hsame => exact .inl hsame
  | inr hnew =>
    right
    intro p hp e e' he he' hver
    obtain ⟨u, hu, huv⟩ := hnew
    obtain ⟨hval, hver'⟩ := Update.toValue_eq_some.mp (huv.symm.trans he')
    have hnum := hupd ⟨ns, key⟩ u hu
    rw [hver', ← hver] at hnum
    obtain rfl | hp := hp
    · -- the entry is of this block, so it is one the replay has put
      rw [hflush] at he
      cases getState_apply_cases ns key with
      | inl hsame =>
        have := hbelow _ hdb ns key e (hsame.symm.trans he)
        omega
      | inr hput =>
        obtain ⟨r, hr, hrv⟩ := hput
        obtain ⟨hrval, hrver⟩ := Update.toValue_eq_some.mp (hrv.symm.trans he)
        have hheight := (replaySchedule_batch h.replayed hr).1
        apply hkept ⟨ns, key⟩
        · obtain ⟨rv, rver⟩ := r
          rw [← hrval, ← hheight]
          exact hr
        · obtain ⟨uv, uver⟩ := u
          rw [← hval, ← hheight, hrver, hver, ← hver']
          exact hu
    · have := hbelow p hp ns key e he
      omega

theorem ScheduledWrites.below (hbelow : VersionsBelow l.blocks.length l.stateDb) :
    VersionsBelow (l.blocks.length + 1) a.flush ∧
      VersionsBelow (l.blocks.length + 1) (a.flush.applyUpdates updates (blockHeight block)) := by
  obtain ⟨-, hreplay, hupd⟩ := h.ofBlock
  have hflush : VersionsBelow (l.blocks.length + 1) a.flush := by
    rw [flush, (replaySchedule_adapter h.replayed).1]
    exact hbelow.applyUpdates hreplay
  refine ⟨hflush, fun ns key e he => ?_⟩
  cases getState_apply_cases ns key with
  | inl hsame => exact hflush ns key e (hsame.symm.trans he)
  | inr hnew =>
    obtain ⟨u, hu, huv⟩ := hnew
    have hver := (Update.toValue_eq_some.mp (huv.symm.trans he)).2
    have hnum := hupd ⟨ns, key⟩ u hu
    rw [hver] at hnum
    omega

omit h

/-- A commit keeps what the databases so far have, if its replay is kept. -/
theorem commit_sound (hkept : ReplayKept cfg order l block) {dbs : Set StateDb}
    (hs : VersionsSound dbs) (hdb : l.stateDb ∈ dbs)
    (hbelow : ∀ p ∈ dbs, VersionsBelow l.blocks.length p) :
    VersionsSound (dbs ∪ (commit cfg order l block).dbs) := by
  obtain ⟨steps, hw, hsteps⟩ := commit_dbs cfg order l block
  rw [hsteps.dbs]
  cases hw with
  | nothing =>
    refine hs.subset fun p hp => ?_
    obtain hp | hp := hp
    · exact hp
    · exact mem_singleton.mp hp ▸ hdb
  | validated hupd =>
    refine (hs.applyUpdates (h := blockHeight block) hdb hbelow hupd).subset fun p hp => ?_
    obtain hp | hp := hp
    · exact .inr hp
    · obtain rfl | hp := mem_cons.mp hp
      · exact .inr hdb
      · exact .inl (mem_singleton.mp hp)
  | replayed hbench hparse hw =>
    refine (hw.sound (hkept hbench _ hparse _ _ hw) hs hdb hbelow).subset fun p hp => ?_
    obtain hp | hp := hp
    · exact .inr (.inr hp)
    · obtain rfl | hp := mem_cons.mp hp
      · exact .inr (.inr hdb)
      · obtain rfl | hp := mem_cons.mp hp
        · exact .inr (.inl rfl)
        · exact .inl (mem_singleton.mp hp)

theorem commit_below (hbelow : VersionsBelow l.blocks.length l.stateDb) :
    ∀ p ∈ (commit cfg order l block).dbs,
      VersionsBelow (commit cfg order l block).ledger.blocks.length p := by
  obtain ⟨steps, hw, hsteps⟩ := commit_dbs cfg order l block
  have hgrows := hsteps.grows
  have hstored := hsteps.stored
  intro p hp
  rw [hsteps.dbs] at hp
  obtain rfl | hp := mem_cons.mp hp
  · exact hbelow.mono hgrows
  · cases hw with
    | nothing => cases hp
    | validated hupd =>
      obtain rfl := mem_singleton.mp hp
      exact (hbelow.applyUpdates hupd).mono (hstored (by simp)).2
    | replayed _ _ hw =>
      obtain ⟨hflush, hfinal⟩ := hw.below hbelow
      have hlt := (hstored (by simp)).2
      obtain rfl | hp := mem_cons.mp hp
      · exact hflush.mono hlt
      · exact mem_singleton.mp hp ▸ hfinal.mono hlt

theorem commit_ledger_mem : (commit cfg order l block).ledger.stateDb ∈
    (commit cfg order l block).dbs := by
  obtain ⟨steps, -, hsteps⟩ := commit_dbs cfg order l block
  rw [hsteps.dbs, hsteps.last]
  exact getLastD_mem_cons

/-- A key given two values by replay and last transaction has one version before and after. -/
theorem replayKept_of_sound (hs : VersionsSound (commit cfg order l block).dbs) :
    ReplayKept cfg order l block := by
  intro hbench s hparse a updates hw k v w hk hk'
  have hsteps : DbSteps l block (commit cfg order l block)
      [a.flush, a.flush.applyUpdates updates (blockHeight block)] := by
    unfold commit
    rw [if_pos hbench, hparse]
    exact hw.trail.2.dbSteps hw.trail.1
  rw [hsteps.dbs] at hs
  have hflush : a.flush.getState k.ns k.key = some ⟨v, blockHeight block⟩ := by
    rw [flush, getState_applyUpdates]
    show (a.batch[k]?).elim _ _ = _
    rw [hk]
    rfl
  have hfinal : (a.flush.applyUpdates updates (blockHeight block)).getState k.ns k.key =
      some ⟨w, blockHeight block⟩ := by
    rw [getState_applyUpdates]
    show (updates[k]?).elim _ _ = _
    rw [hk']
    rfl
  have h := hs a.flush (by simp) (a.flush.applyUpdates updates (blockHeight block)) (by simp)
    k.ns k.key (by rw [hflush, hfinal]; rfl)
  rw [hflush, hfinal] at h
  exact some.inj h

end Commit

/-- A block with the configuration and the map orders it is committed under. -/
structure CommitStep where
  cfg : Config
  order : MapOrder
  block : Block

def CommitStep.run (c : CommitStep) (l : KvLedger) : CommitRun := commit c.cfg c.order l c.block

/-- Every state database from the start of a run of commits to its end. -/
def runDbs : KvLedger → List CommitStep → Set StateDb
  | l, [] => {l.stateDb}
  | l, c :: cs => (c.run l).dbs ∪ runDbs (c.run l).ledger cs

/-- Every block of the run meets the condition on the ledger it is committed to. -/
def RunKept : KvLedger → List CommitStep → Prop
  | _, [] => True
  | l, c :: cs => ReplayKept c.cfg c.order l c.block ∧ RunKept (c.run l).ledger cs

theorem runDbs_sound {cs : List CommitStep} (hkept : RunKept l cs) {dbs : Set StateDb}
    (hs : VersionsSound dbs) (hdb : l.stateDb ∈ dbs)
    (hbelow : ∀ p ∈ dbs, VersionsBelow l.blocks.length p) :
    VersionsSound (dbs ∪ runDbs l cs) := by
  induction cs generalizing l dbs with
  | nil =>
    refine hs.subset fun p hp => ?_
    obtain hp | hp := hp
    · exact hp
    · exact hp ▸ hdb
  | cons c cs ih =>
    obtain ⟨hc, hcs⟩ := hkept
    rw [runDbs, ← Set.union_assoc]
    apply ih hcs (commit_sound hc hs hdb hbelow) (.inr commit_ledger_mem)
    intro p hp
    obtain hp | hp := hp
    · obtain ⟨steps, -, hsteps⟩ := commit_dbs c.cfg c.order l c.block
      exact (hbelow p hp).mono hsteps.grows
    · exact commit_below (hbelow _ hdb) p hp

/-- Over a run of commits a version stands for one value exactly if no block's replay is
overwritten by its last transaction with another value. -/
theorem versions_sound_iff (l : KvLedger) (hl : VersionsBelow l.blocks.length l.stateDb)
    (cs : List CommitStep) : VersionsSound (runDbs l cs) ↔ RunKept l cs := by
  constructor
  · intro hs
    induction cs generalizing l with
    | nil => trivial
    | cons c cs ih =>
      refine ⟨replayKept_of_sound (hs.subset Set.subset_union_left), ?_⟩
      apply ih
      · exact commit_below hl _ commit_ledger_mem
      · exact hs.subset Set.subset_union_right
  · intro hkept
    have hone : VersionsSound {l.stateDb} := by
      intro p hp q hq ns key _
      rw [hp, hq]
    refine (runDbs_sound hkept hone rfl fun p hp => ?_).subset Set.subset_union_right
    rw [hp]
    exact hl

theorem versionsBelow_empty (n : Nat) : VersionsBelow n empty := by
  intro ns key e he
  simp [StateDb.getState, StateDb.empty] at he

/-- An account is created by replay, and the last transaction puts another key. -/
theorem versions_sound_after_replay :
    VersionsSound (runDbs empty [⟨replayConfig, MapOrder.sorted, mixedBlock⟩]) := by
  apply (versions_sound_iff empty (versionsBelow_empty _) _).mpr
  refine ⟨?_, trivial⟩
  intro _ s hs a updates hw k v w hv hu
  have hparse : parseBatchSchedule mixedBlock = some (scheduleOf [[str "t1"]]) := by decide +kernel
  obtain rfl := some.inj (hparse.symm.trans hs)
  obtain ⟨b, bs, hb, -⟩ := hw.validated
  have hapart : (prepareWithBatchSchedule replayConfig MapOrder.sorted empty.stateDb mixedBlock
      (scheduleOf [[str "t1"]])).toOption.bind (fun r => (replaySchedule MapOrder.sorted mixedBlock
        (scheduleOf [[str "t1"]]) empty.stateDb).toOption.map fun a =>
          r.2.keys.all fun k => a.batch[k]?.isNone) = some true := by
    decide +kernel
  rw [show prepareWithBatchSchedule _ _ _ _ _ = _ from hb, show replaySchedule _ _ _ _ = _ from
    hw.replayed] at hapart
  have hnone := List.all_eq_true.mp (some.inj hapart) k
    (Std.ExtTreeMap.mem_keys.mpr (Std.ExtTreeMap.mem_iff_isSome_getElem?.mpr (by rw [hu]; rfl)))
  rw [hv] at hnone
  cases hnone

/-- A transaction of another chaincode that writes the account `a` without reading it. -/
def overwriteTx (txId : GoString) : SignedTx :=
  { SignedTx.bare txId (str "mycc") [str "put"] with
    results := TxRwSet.toProtoBytes
      [⟨ccSmallBank, [], [], [⟨str "account:a", false, some (str "x")⟩]⟩] }

/-- The replay creates the account, the last transaction of the block overwrites it, and
both leave the version of block 0, transaction 1. -/
theorem last_transaction_reuses_version :
    let block := firstBlock [createAccountTx (str "t1") (str "a"), overwriteTx (str "t2")] [0, 0]
      (scheduleOf [[str "t1"]])
    ¬ VersionsSound (runDbs empty [⟨replayConfig, MapOrder.sorted, block⟩]) := by
  intro block hs
  have htrail : (commit replayConfig MapOrder.sorted empty block).trail.map
      (fun l => l.stateDb.getState ccSmallBank (str "account:a")) =
      [none, none, some ⟨AccountRecord.marshal ⟨str "a", str "name", 1, 1⟩, ⟨0, 1⟩⟩,
        some ⟨str "x", ⟨0, 1⟩⟩] := by decide +kernel
  have hread : ∀ (i : Nat) e, ((commit replayConfig MapOrder.sorted empty block).trail.map
      (fun l => l.stateDb.getState ccSmallBank (str "account:a")))[i]? = some (some e) →
      ∃ p ∈ runDbs empty [⟨replayConfig, MapOrder.sorted, block⟩],
        p.getState ccSmallBank (str "account:a") = some e := by
    intro i e hi
    obtain ⟨l, hl, he⟩ := mem_map.mp (mem_of_getElem? hi)
    exact ⟨l.stateDb, .inl ⟨l, hl, rfl⟩, he⟩
  rw [htrail] at hread
  obtain ⟨p, hp, hpe⟩ := hread 2 _ rfl
  obtain ⟨q, hq, hqe⟩ := hread 3 _ rfl
  have h := hs p hp q hq ccSmallBank (str "account:a") (by rw [hpe, hqe]; rfl)
  rw [hpe, hqe] at h
  exact absurd (some.inj h) (by decide +kernel)

end FabricOev.Ledger
