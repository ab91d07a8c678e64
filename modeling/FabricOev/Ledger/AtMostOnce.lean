import FabricOev.Ledger.InvalidTransactions
import FabricOev.Orderer.Analyzer

/-!
# Applied at most once

A transaction reaches the state by replay, once for every time the schedule names it, or
by its endorsed write set. Along a chain of commits each TxID is applied at most once if
no block repeats an id, no schedule names one twice, and nothing that is scheduled or
comes in valid was in an earlier block. None of this is checked by the scheduled path.
-/

namespace FabricOev.Ledger

open Go Protos Bench Orderer List MapOrder KvLedger Option

def replayedIn (block : Block) (a : StateDbAdapter) (txIds : List GoString) : List GoString :=
  txIds.filter fun id =>
    match lookupInvocation block id with
    | .ok (some inv) => (inv.replay a).isSome
    | _ => false

def replayedIds (order : MapOrder) (block : Block) :
    Nat → List BatchEntry → StateDbAdapter → List GoString
  | _, [], _ => []
  | i, e :: es, a =>
    replayedIn block a e.txIds ++
      match replayBatch (order.writes i) block a e.txIds with
      | .ok a' => replayedIds order block (i + 1) es a'
      | .error _ => []

/-- The id of a transaction whose endorsed write set validation accepts. -/
def acceptedId (hash : Bytes → Bytes) (db : StateDb) (st : TxFlags × UpdateBatch) (i : Nat)
    (data : Bytes) : Option GoString :=
  match st.1.isValid i, channelHeaderOf data with
  | .ok true, .ok chdr =>
    if chdr.headerType ≠ HeaderType.endorserTransaction then none
    else
      match validateEndorserTx hash db data true st.2 with
      | .ok (some _, _) => some chdr.txId
      | _ => none
  | _, _ => none

/-- The ids whose write sets the validation loop adds to the batch. -/
def endorsedIds (hash : Bytes → Bytes) (db : StateDb) (number : UInt64) :
    Nat → List Bytes → TxFlags × UpdateBatch → List GoString
  | _, [], _ => []
  | i, d :: ds, st =>
    (acceptedId hash db st i d).toList ++
      match validateOne hash db number true st i d with
      | .ok st' => endorsedIds hash db number (i + 1) ds st'
      | .error _ => []

/-- Steps 1 and 2: the flags validation starts from. -/
def markedFlags (order : MapOrder) (block : Block) (s : BatchSchedule) : Result TxFlags := do
  let index ← buildTxIdIndexMap 0 block.data
  let flags ← block.txsFilter
  setScheduledFlags .notValidated index (order.ids 2 s.allTxIds) flags

def endorsedFrom (cfg : Config) (db : StateDb) (block : Block) (flags : Result TxFlags) :
    List GoString :=
  match flags with
  | .ok flags => endorsedIds cfg.hash db block.header.number 0 block.data (flags, ∅)
  | .error _ => []

/-- What a scheduled commit applies: nothing unless it gets to `txtmgmt.Commit`. -/
def scheduledApplied (cfg : Config) (order : MapOrder) (l : KvLedger) (block : Block)
    (s : BatchSchedule) : List GoString :=
  if (commitWithBatchSchedule cfg order l block s).rest.length < 3 then []
  else
    replayedIds order block 0 s.batches
        (StateDbAdapter.new l.stateDb block.header.number block.data.length) ++
      endorsedFrom cfg l.stateDb block (markedFlags order block s)

def mvccApplied (cfg : Config) (l : KvLedger) (block : Block) : List GoString :=
  if (commitMvcc cfg l block).rest.length < 2 then []
  else endorsedFrom cfg l.stateDb block block.txsFilter

/-- The TxIDs a commit applies to the state, one entry for each application. -/
def appliedBy (cfg : Config) (order : MapOrder) (l : KvLedger) (block : Block) : List GoString :=
  if cfg.benchReplayEnabled then
    match parseBatchSchedule block with
    | some s => scheduledApplied cfg order l block s
    | none => mvccApplied cfg l block
  else mvccApplied cfg l block

def appliedAlong (cfg : Config) : KvLedger → List (MapOrder × Block) → List GoString
  | _, [] => []
  | l, (order, block) :: rest =>
    appliedBy cfg order l block ++ appliedAlong cfg (commit cfg order l block).ledger rest

variable {d : Bytes} {id : GoString} {i : Nat}

theorem txIdOf_of_channelHeader {chdr : ChannelHeader} (h : channelHeaderOf d = .ok chdr) :
    txIdOf d = .ok (some chdr.txId) := by
  rw [txIdOf, h]
  rfl

theorem replayedIds_sublist (order : MapOrder) (block : Block) (i : Nat) (es : List BatchEntry)
    (a : StateDbAdapter) : (replayedIds order block i es a).Sublist (es.flatMap (·.txIds)) := by
  induction es generalizing i a with
  | nil => exact List.Sublist.refl _
  | cons e es ih =>
    refine List.Sublist.append filter_sublist ?_
    split
    · exact ih _ _
    · exact nil_sublist _

theorem findTxInBlock_some {data : List Bytes} (h : findTxInBlock data id = .ok (some d)) :
    ∃ i, TxIdAt data i id := by
  induction data with
  | nil => cases h
  | cons d0 ds ih =>
    obtain ⟨x, hx, h⟩ := bind_ok.mp h
    split at h
    · rename_i he
      exact ⟨0, d0, rfl, he ▸ hx⟩
    · obtain ⟨i, hi⟩ := ih h
      exact ⟨i + 1, hi.succ⟩

theorem mem_replayedIds {order : MapOrder} {block : Block} {es : List BatchEntry}
    {a : StateDbAdapter} (h : id ∈ replayedIds order block i es a) :
    id ∈ txIdsOf block.data := by
  induction es generalizing i a with
  | nil => simp [replayedIds] at h
  | cons e es ih =>
    rw [replayedIds, mem_append] at h
    rcases h with h | h
    · have hfound := (mem_filter.mp h).2
      split at hfound
      · rename_i inv hinv
        obtain ⟨o, ho, hinv⟩ := bind_ok.mp hinv
        cases o with
        | none => cases hinv
        | some d => exact mem_txIdsOf.mpr (findTxInBlock_some ho)
      · cases hfound
    · split at h
      · exact ih h
      · simp at h

section Endorsed

variable {hash : Bytes → Bytes} {db : StateDb} {number : UInt64} {st : TxFlags × UpdateBatch}
  {i : Nat} {id : GoString} {ds : List Bytes}

theorem acceptedId_some (h : acceptedId hash db st i d = some id) :
    txIdOf d = .ok (some id) ∧ FlaggedValid st.1 i := by
  unfold acceptedId at h
  split at h
  · rename_i chdr hvalid hchdr
    split at h
    · cases h
    · split at h
      · cases h
        exact ⟨txIdOf_of_channelHeader hchdr, (TxFlags.isValid_eq_ok hvalid).mp rfl⟩
      · cases h
  · cases h

theorem mem_endorsedIds (h : id ∈ endorsedIds hash db number i ds st) :
    ∃ k, TxIdAt ds k id ∧ FlaggedValid st.1 (i + k) := by
  induction ds generalizing i st with
  | nil => simp [endorsedIds] at h
  | cons d ds ih =>
    rw [endorsedIds, mem_append] at h
    rcases h with h | h
    · obtain ⟨hid, hv⟩ := acceptedId_some (mem_toList.mp h)
      exact ⟨0, ⟨d, rfl, hid⟩, hv⟩
    · split at h
      · rename_i st' hone
        obtain ⟨k, hk, hv⟩ := ih h
        have hflag := (validateOne_cases hone).flag_ne (show i ≠ i + 1 + k by omega)
        refine ⟨k + 1, hk.succ, ?_⟩
        rw [show i + (k + 1) = i + 1 + k by omega, FlaggedValid, ← hflag]
        exact hv
      · simp at h

theorem nodup_endorsedIds (hd : (txIdsOf ds).Nodup) :
    (endorsedIds hash db number i ds st).Nodup := by
  induction ds generalizing i st with
  | nil => exact nodup_nil
  | cons d ds ih =>
    rw [endorsedIds, nodup_append]
    refine ⟨by cases acceptedId hash db st i d <;> simp, ?_, ?_⟩
    · split
      · exact ih (nodup_txIdsOf_tail hd)
      · exact nodup_nil
    · rintro id hid id' hid' rfl
      split at hid'
      · obtain ⟨hhead, -⟩ := acceptedId_some (mem_toList.mp hid)
        obtain ⟨k, hk, -⟩ := mem_endorsedIds hid'
        rw [txIdsOf_cons hhead] at hd
        exact (nodup_cons.mp hd).1 (mem_txIdsOf.mpr ⟨k, hk⟩)
      · simp at hid'

theorem validateOne_batch {st' : TxFlags × UpdateBatch}
    (h : validateOne hash db number true st i d = .ok st')
    (hnone : acceptedId hash db st i d = none) : st'.2 = st.2 := by
  cases validateOne_cases h with
  | skipped | other | rejected => rfl
  | accepted hv hc ht hrw hm =>
    obtain ⟨action, haction, hrw⟩ := hrw
    have hvalid : st.1.isValid i = .ok true := by
      rw [TxFlags.isValid_eq, if_pos hv.lt, decide_eq_true hv]
    simp [acceptedId, hvalid, hc, ht, validateEndorserTx, haction, Result.attempt, hrw, hm rfl,
      bind, Except.bind] at hnone

theorem validateLoop_batch_of_nil {st' : TxFlags × UpdateBatch}
    (h : validateLoop hash db number true i ds st = .ok st')
    (hnil : endorsedIds hash db number i ds st = []) : st'.2 = st.2 := by
  induction ds generalizing i st with
  | nil =>
    cases h
    rfl
  | cons d ds ih =>
    obtain ⟨mid, hone, hrest⟩ := bind_ok.mp h
    rw [endorsedIds, hone] at hnil
    obtain ⟨hhead, htail⟩ := append_eq_nil_iff.mp hnil
    exact (ih hrest htail).trans (validateOne_batch hone (toList_eq_nil_iff.mp hhead))

end Endorsed

theorem replayBatch_of_nil {order : Nat → WriteMap → List (GoString × Bytes)} {block : Block}
    {a a' : StateDbAdapter} {txIds : List GoString} (ho : ∀ j m, (order j m).Perm m.toList)
    (h : replayBatch order block a txIds = .ok a') (hnil : replayedIn block a txIds = []) :
    a' = a := by
  rw [replayBatch_eq ho] at h
  cases hinvs : txIds.mapM (lookupInvocation block) with
  | error f =>
    rw [hinvs] at h
    cases h
  | ok invs =>
    rw [hinvs] at h
    obtain rfl := Except.ok.inj h
    clear h
    rw [Result.mapM_eq_ok] at hinvs
    rw [replayedIn, filter_eq_nil_iff] at hnil
    induction hinvs with
    | nil => rfl
    | @cons id inv ids invs hlookup _ ih =>
      obtain ⟨hid, hids⟩ := forall_mem_cons.mp hnil
      have hjob : invJob inv a = none := by
        cases inv with
        | none => rfl
        | some inv =>
          rw [hlookup] at hid
          simpa [invJob] using hid
      show invs.foldl _ (adapterStore.merge a a (invJob inv)) = a
      rw [Lib.Store.merge, hjob]
      exact ih hids

theorem replayBatches_of_nil {order : MapOrder} {block : Block} {es : List BatchEntry}
    {a a' : StateDbAdapter} (h : replayBatches order block i es a = .ok a')
    (hnil : replayedIds order block i es a = []) : a' = a := by
  induction es generalizing i a with
  | nil =>
    cases h
    rfl
  | cons e es ih =>
    obtain ⟨mid, hmid, hrest⟩ := bind_ok.mp h
    rw [replayedIds, hmid] at hnil
    obtain ⟨hhead, htail⟩ := append_eq_nil_iff.mp hnil
    rw [replayBatch_of_nil (order.writes_perm i) hmid hhead] at hrest htail
    exact ih hrest htail

/-! ## One commit -/

/-- The ordinary path stores the block and applies its batch, or leaves the ledger alone. -/
theorem commitMvcc_cases (cfg : Config) (l : KvLedger) (block : Block) :
    (∃ f, commitMvcc cfg l block = ⟨l, [], .error f⟩) ∨
      ∃ flagsIn flags updates, block.txsFilter = .ok flagsIn ∧
        validateLoop cfg.hash l.stateDb block.header.number true 0 block.data (flagsIn, ∅) =
          .ok (flags, updates) ∧
        (commitMvcc cfg l block).ledger.blocks = l.blocks ++ [block.setFilter flags] ∧
        (commitMvcc cfg l block).ledger.stateDb =
          l.stateDb.applyUpdates updates (blockHeight block) ∧
        2 ≤ (commitMvcc cfg l block).rest.length := by
  unfold commitMvcc
  cases hv : validateAndPrepareBatch cfg.hash l.stateDb block true with
  | error f => exact .inl ⟨f, rfl⟩
  | ok r =>
    obtain ⟨flagsIn, hin, hv⟩ := bind_ok.mp hv
    obtain ⟨⟨flags, updates⟩, hloop, hv⟩ := bind_ok.mp hv
    cases hv
    dsimp only
    cases ha : addBlock l.blocks (block.setFilter flags) with
    | error f => exact .inl ⟨f, rfl⟩
    | ok blocks =>
      obtain ⟨-, rfl⟩ := addBlock_ok ha
      obtain ⟨hblocks, hstate⟩ := commitHistory_ledger cfg (block.setFilter flags) l
        [⟨l.blocks ++ [block.setFilter flags], l.stateDb, l.historyDb⟩,
          ⟨l.blocks ++ [block.setFilter flags],
            l.stateDb.applyUpdates updates (blockHeight block), l.historyDb⟩] _ rfl
      exact .inr ⟨flagsIn, flags, updates, hin, hloop, hblocks, hstate,
        commitHistory_rest cfg _ l [_, _] _⟩

/-- What a commit does to the block store, and that it applies nothing without it. -/
theorem commit_blocks (cfg : Config) (order : MapOrder) (l : KvLedger) (block : Block) :
    (∃ flags, (commit cfg order l block).ledger.blocks = l.blocks ++ [block.setFilter flags]) ∨
      ((commit cfg order l block).ledger = l ∧ appliedBy cfg order l block = []) := by
  have hmvcc : (∃ flags, (commitMvcc cfg l block).ledger.blocks =
      l.blocks ++ [block.setFilter flags]) ∨
      ((commitMvcc cfg l block).ledger = l ∧ mvccApplied cfg l block = []) := by
    rcases commitMvcc_cases cfg l block with ⟨f, h⟩ | ⟨_, flags, _, -, -, h, -⟩
    · have hrest : (commitMvcc cfg l block).rest.length = 0 := by rw [h]; rfl
      exact .inr ⟨by rw [h]; rfl, by rw [mvccApplied, if_pos (by omega)]⟩
    · exact .inl ⟨flags, h⟩
  unfold commit appliedBy
  split
  · cases parseBatchSchedule block with
    | some s =>
      rcases commitSchedule_cases cfg order l block s with ⟨f, h⟩ | ⟨block', ⟨st⟩⟩
      · have hrest : (commitWithBatchSchedule cfg order l block s).rest.length = 0 := by rw [h]; rfl
        refine .inr ⟨by dsimp only; rw [h]; rfl, ?_⟩
        dsimp only
        rw [scheduledApplied, if_pos (by omega)]
      · exact .inl ⟨st.prepared.flagsOut, by dsimp only; rw [st.blocks, ← st.prepared.block_eq]⟩
    | none => exact hmvcc
  · exact hmvcc

/-- What is applied is all that reaches the state. -/
theorem commit_state_of_nil {cfg : Config} {order : MapOrder} {l : KvLedger} {block : Block}
    (h : appliedBy cfg order l block = []) (ns key : GoString) :
    (commit cfg order l block).ledger.stateDb.getState ns key = l.stateDb.getState ns key := by
  have hempty : ∀ (db : StateDb) (height : Height),
      (db.applyUpdates ∅ height).getState ns key = db.getState ns key := by
    intro db height
    rw [StateDb.getState_applyUpdates]
    simp [UpdateBatch.get]
  have hmvcc : mvccApplied cfg l block = [] →
      (commitMvcc cfg l block).ledger.stateDb.getState ns key = l.stateDb.getState ns key := by
    intro h
    rcases commitMvcc_cases cfg l block with ⟨f, hl⟩ | ⟨flagsIn, _, _, hin, hloop, -, hstate, hrest⟩
    · rw [hl]
      rfl
    · rw [mvccApplied, if_neg (by omega), hin] at h
      obtain rfl := validateLoop_batch_of_nil hloop h
      rw [hstate, hempty]
  unfold appliedBy at h
  unfold commit
  split at h
  · rename_i he
    rw [if_pos he]
    cases hs : parseBatchSchedule block with
    | none =>
      rw [hs] at h
      exact hmvcc h
    | some s =>
      rw [hs] at h
      dsimp only at h ⊢
      rcases commitSchedule_cases cfg order l block s with ⟨f, hl⟩ | ⟨block', ⟨st⟩⟩
      · rw [hl]
        rfl
      · rw [st.stateDb]
        cases ha : replaySchedule order block s l.stateDb with
        | error f => rfl
        | ok a =>
          rw [scheduledApplied, if_neg (by have := st.rest a ha; omega)] at h
          obtain ⟨hreplayed, hendorsed⟩ := append_eq_nil_iff.mp h
          have p := st.prepared
          have hmarked : markedFlags order block s = .ok p.flagsMarked :=
            bind_ok.mpr ⟨_, p.index_eq, bind_ok.mpr ⟨_, p.flagsIn_eq, p.marked_eq⟩⟩
          rw [hmarked] at hendorsed
          have hupdates : st.updates = ∅ := validateLoop_batch_of_nil p.loop_eq hendorsed
          obtain rfl := replayBatches_of_nil ha hreplayed
          rw [hupdates, hempty]
          exact hempty _ _
  · rename_i he
    rw [if_neg he]
    exact hmvcc h

def storedIds (l : KvLedger) : List GoString := l.blocks.flatMap fun b => txIdsOf b.data

def Eligible (cfg : Config) (block : Block) (i : Nat) (id : GoString) : Prop :=
  (∃ flags, block.txsFilter = .ok flags ∧ FlaggedValid flags i) ∨
    cfg.benchReplayEnabled = true ∧ ∃ s, parseBatchSchedule block = some s ∧ id ∈ s.txIdList

/-- No repeated ids in block or schedule, and no id that is applied is already stored. -/
structure AppliesOnce (cfg : Config) (l : KvLedger) (block : Block) : Prop where
  distinct : (txIdsOf block.data).Nodup
  schedule : ∀ s, parseBatchSchedule block = some s → s.txIdList.Nodup
  fresh : ∀ i id, TxIdAt block.data i id → Eligible cfg block i id → id ∉ storedIds l

/-- A block of new ids meets the condition whatever its flags are. -/
theorem appliesOnce_of_new {cfg : Config} {l : KvLedger} {block : Block}
    (hd : (txIdsOf block.data).Nodup)
    (hs : ∀ s ∈ parseBatchSchedule block, s.txIdList.Nodup)
    (hn : ∀ id ∈ txIdsOf block.data, id ∉ storedIds l) : AppliesOnce cfg l block where
  distinct := hd
  schedule := hs
  fresh i id hi _ := hn id (mem_txIdsOf.mpr ⟨i, hi⟩)

theorem endorsed_unscheduled {order : MapOrder} {block : Block} {s : BatchSchedule}
    {flags : TxFlags} (hd : DistinctTxIds block.data) (h : markedFlags order block s = .ok flags)
    (hi : TxIdAt block.data i id) (hv : FlaggedValid flags i) :
    id ∉ s.txIdList ∧ ∃ flagsIn, block.txsFilter = .ok flagsIn ∧ FlaggedValid flagsIn i := by
  obtain ⟨index, hindex, h⟩ := bind_ok.mp h
  obtain ⟨flagsIn, hin, h⟩ := bind_ok.mp h
  have hids : ∀ x, x ∈ order.ids 2 s.allTxIds ↔ x ∈ s.txIdList := fun x => by
    rw [(order.ids_perm 2 _).mem_iff, BatchSchedule.allTxIds, mem_dedup]
  have hnot : id ∉ s.txIdList := by
    intro hmem
    have hmark := scheduledFlags_touched h ((hids id).mpr hmem)
      (txIdIndexMap_distinct hindex hd hi)
    rw [FlaggedValid, hmark] at hv
    exact absurd (some.inj hv) (by decide)
  have huntouched : flags[i]? = flagsIn[i]? := by
    refine scheduledFlags_untouched h fun x hx hl => hnot ?_
    obtain ⟨k, hk, hat⟩ := txIdIndexMap_sound hindex hl
    obtain rfl : k = i := by omega
    obtain ⟨d, hdat, hid⟩ := hi
    obtain ⟨d', hdat', hx'⟩ := hat
    obtain rfl := some.inj (hdat.symm.trans hdat')
    have hxid := Except.ok.inj (hx'.symm.trans hid)
    exact some.inj hxid ▸ (hids x).mp hx
  exact ⟨hnot, flagsIn, hin, by rwa [FlaggedValid, ← huntouched]⟩

section OneCommit

variable {cfg : Config} {order : MapOrder} {l : KvLedger} {block : Block} {db : StateDb}
  {id : GoString}

theorem mem_endorsedFrom {flags : Result TxFlags} (h : id ∈ endorsedFrom cfg db block flags) :
    ∃ fs i, flags = .ok fs ∧ TxIdAt block.data i id ∧ FlaggedValid fs i := by
  unfold endorsedFrom at h
  split at h
  · rename_i fs
    obtain ⟨k, hk, hv⟩ := mem_endorsedIds h
    exact ⟨fs, k, rfl, hk, by rwa [Nat.zero_add] at hv⟩
  · simp at h

theorem nodup_endorsedFrom (flags : Result TxFlags) (hd : (txIdsOf block.data).Nodup) :
    (endorsedFrom cfg db block flags).Nodup := by
  unfold endorsedFrom
  split
  · exact nodup_endorsedIds hd
  · exact nodup_nil

variable (h : AppliesOnce cfg l block)
include h

theorem mem_appliedBy (hid : id ∈ appliedBy cfg order l block) :
    ∃ i, TxIdAt block.data i id ∧ Eligible cfg block i id := by
  have hmvcc : id ∈ mvccApplied cfg l block →
      ∃ i, TxIdAt block.data i id ∧ Eligible cfg block i id := by
    intro hid
    unfold mvccApplied at hid
    split at hid
    · simp at hid
    · obtain ⟨fs, i, hfs, hi, hv⟩ := mem_endorsedFrom hid
      exact ⟨i, hi, .inl ⟨fs, hfs, hv⟩⟩
  unfold appliedBy at hid
  split at hid
  · rename_i hen
    split at hid
    · rename_i s hs
      unfold scheduledApplied at hid
      split at hid
      · simp at hid
      · rcases mem_append.mp hid with hid | hid
        · obtain ⟨i, hi⟩ := mem_txIdsOf.mp (mem_replayedIds hid)
          exact ⟨i, hi, .inr ⟨hen, s, hs, (replayedIds_sublist ..).subset hid⟩⟩
        · obtain ⟨fs, i, hfs, hi, hv⟩ := mem_endorsedFrom hid
          exact ⟨i, hi, .inl (endorsed_unscheduled (distinct_of_nodup h.distinct) hfs hi hv).2⟩
    · exact hmvcc hid
  · exact hmvcc hid

theorem nodup_appliedBy : (appliedBy cfg order l block).Nodup := by
  have hmvcc : (mvccApplied cfg l block).Nodup := by
    unfold mvccApplied
    split
    · exact nodup_nil
    · exact nodup_endorsedFrom _ h.distinct
  unfold appliedBy
  split
  · split
    · rename_i s hs
      unfold scheduledApplied
      split
      · exact nodup_nil
      · refine nodup_append.mpr ⟨(h.schedule s hs).sublist (replayedIds_sublist ..),
          nodup_endorsedFrom _ h.distinct, ?_⟩
        rintro id hrep id' hend rfl
        obtain ⟨fs, i, hfs, hi, hv⟩ := mem_endorsedFrom hend
        exact (endorsed_unscheduled (distinct_of_nodup h.distinct) hfs hi hv).1
          ((replayedIds_sublist ..).subset hrep)
    · exact hmvcc
  · exact hmvcc

/-- Ids that are stored stay stored, and what is applied is stored. -/
theorem storedIds_commit (hid : id ∈ storedIds l ∨ id ∈ appliedBy cfg order l block) :
    id ∈ storedIds (commit cfg order l block).ledger := by
  rcases commit_blocks cfg order l block with ⟨flags, hb⟩ | ⟨hl, hnil⟩
  · rw [storedIds, hb, flatMap_append, mem_append, flatMap_singleton]
    rcases hid with hid | hid
    · exact .inl hid
    · obtain ⟨i, hi, -⟩ := mem_appliedBy h hid
      exact .inr (mem_txIdsOf.mpr ⟨i, hi⟩)
  · rw [hl]
    rcases hid with hid | hid
    · exact hid
    · simp [hnil] at hid

end OneCommit

/-- Every block of a chain meets the condition on the ledger it is committed to. -/
def AllApplyOnce (cfg : Config) : KvLedger → List (MapOrder × Block) → Prop
  | _, [] => True
  | l, (order, block) :: rest =>
    AppliesOnce cfg l block ∧ AllApplyOnce cfg (commit cfg order l block).ledger rest

/-- Along such a chain nothing that was stored before is applied again, and no id twice. -/
theorem appliedAlong_fresh {cfg : Config} {l : KvLedger} {run : List (MapOrder × Block)}
    (h : AllApplyOnce cfg l run) :
    (appliedAlong cfg l run).Nodup ∧ ∀ id ∈ appliedAlong cfg l run, id ∉ storedIds l := by
  induction run generalizing l with
  | nil => exact ⟨nodup_nil, by simp [appliedAlong]⟩
  | cons step rest ih =>
    obtain ⟨order, block⟩ := step
    obtain ⟨hone, hrest⟩ := h
    obtain ⟨hnodup, hfresh⟩ := ih hrest
    constructor
    · refine nodup_append.mpr ⟨nodup_appliedBy hone, hnodup, ?_⟩
      rintro id hid id' hid' rfl
      exact hfresh id hid' (storedIds_commit hone (.inr hid))
    · intro id hid
      rcases mem_append.mp hid with hid | hid
      · obtain ⟨i, hi, hel⟩ := mem_appliedBy hone hid
        exact hone.fresh i id hi hel
      · exact fun hst => hfresh id hid (storedIds_commit hone (.inl hst))

/-- Every TxID is applied at most once along a chain of commits in which every block has
distinct ids, its schedule no duplicates, and nothing eligible is stored already. -/
theorem applied_at_most_once {cfg : Config} {l : KvLedger} {run : List (MapOrder × Block)}
    (h : AllApplyOnce cfg l run) (id : GoString) : (appliedAlong cfg l run).count id ≤ 1 :=
  nodup_iff_count_le_one.mp (appliedAlong_fresh h).1 id

/-- Block `n` with the given transactions and flags, and the schedule an orderer gives it. -/
def blockAt (n : UInt64) (txs : List SignedTx) (flags : TxFlags)
    (batches : List (List GoString)) : Block :=
  ⟨⟨n, [], []⟩, txs.map SignedTx.envelope, some [[], [], flags,
      Metadata.marshal ⟨BatchSchedule.marshal { scheduleOf batches with blockNumber := n }⟩]⟩

def depositTx (txId account amount : GoString) : SignedTx :=
  SignedTx.bare txId ccSmallBank [str "DepositChecking", account, amount]

/-- An account and a deposit in the next block. -/
theorem create_then_deposit_once :
    (appliedAlong replayConfig empty
      [(MapOrder.sorted, blockAt 0 [createAccountTx (str "t1") (str "a")] [0] [[str "t1"]]),
        (MapOrder.sorted, blockAt 1 [depositTx (str "t2") (str "a") (str "5")] [0] [[str "t2"]])]
      ).count (str "t2") ≤ 1 := by
  have hfirst : AppliesOnce replayConfig empty
      (blockAt 0 [createAccountTx (str "t1") (str "a")] [0] [[str "t1"]]) :=
    appliesOnce_of_new (by decide +kernel) (by decide +kernel) (by decide +kernel)
  have hsecond : AppliesOnce replayConfig (commit replayConfig sorted empty
        (blockAt 0 [createAccountTx (str "t1") (str "a")] [0] [[str "t1"]])).ledger
      (blockAt 1 [depositTx (str "t2") (str "a") (str "5")] [0] [[str "t2"]]) :=
    appliesOnce_of_new (by decide +kernel) (by decide +kernel) (by decide +kernel)
  have hall : AllApplyOnce replayConfig empty
      [(sorted, blockAt 0 [createAccountTx (str "t1") (str "a")] [0] [[str "t1"]]),
        (sorted, blockAt 1 [depositTx (str "t2") (str "a") (str "5")] [0] [[str "t2"]])] :=
    ⟨hfirst, hsecond, trivial⟩
  exact applied_at_most_once hall (str "t2")

/-- The deposit comes again in a later block, where the validator flags it as a duplicate.
The orderer schedules it all the same, and the account is credited twice. -/
theorem duplicate_deposit_applied_twice :
    let deposit := depositTx (str "t2") (str "a") (str "5")
    let b0 := blockAt 0 [createAccountTx (str "t1") (str "a")] [0] [[str "t1"]]
    let b1 := blockAt 1 [deposit] [0] [[str "t2"]]
    let b2 := blockAt 2 [deposit] [TxValidationCode.duplicateTxId.toByte] [[str "t2"]]
    let l := [b0, b1, b2].foldl (fun l b => (commit replayConfig sorted l b).ledger) empty
    analyzeBatchAndSchedule b2 =
        .ok (some ({ scheduleOf [[str "t2"]] with blockNumber := 2 } : BatchSchedule).marshal) ∧
      appliedAlong replayConfig empty
        ([b0, b1, b2].map fun b => (sorted, b)) = [str "t1", str "t2", str "t2"] ∧
      ((sbGetAccount (fun k => (l.stateDb.getState ccSmallBank k).map (·.value))
        (str "a")).toOption.map (·.checking)) = some 11 := by
  decide +kernel

end FabricOev.Ledger
