import FabricOev.BlockStore.CrashRuns

/-!
# What the checkpoints tell of the chain

A checkpoint says whether the chain is empty and which block is the last one. Checkpoints are saved
and published by `newBlockfileMgr`, by `moveToNextFile` and behind the append of `addBlock`; they
are compared with the blocks that are completely in the files at that time. `moveToNextFile` takes
it that there is a block.
-/

namespace FabricOev.BlockStore

open Go Protos Ledger Lib List Disk Shape UInt64 Nat CheckpointInfo

def StoreStep.checkpoint : StoreStep → Option CheckpointInfo
  | .disk (.write batch _) =>
    ((∅ : LevelDb).writeBatch batch)[blkMgrInfoKey]?.bind CheckpointInfo.unmarshal
  | .updateCheckpoint cpInfo => some cpInfo
  | _ => none

/-- The chain is said to be empty exactly if it is, and else the last number is right. -/
def CheckpointInfo.Matches (cpInfo : CheckpointInfo) (chain : List Block) : Prop :=
  (cpInfo.isChainEmpty = true ↔ chain = []) ∧
    ∀ b, chain.getLast? = some b → cpInfo.lastBlockNumber = b.header.number

/-- The checkpoint tells of the blocks that are completely in the files. -/
def Disk.Told (d : Disk) (cpInfo : CheckpointInfo) : Prop :=
  ∃ l t, FilesOk d.contents l t ∧ Torn t ∧ cpInfo.Matches l.chain

/-- Every checkpoint is told when it is saved or published. -/
def Store.AllTold : Store → List StoreStep → Prop
  | _, [] => True
  | s, step :: steps => (∀ cpInfo ∈ step.checkpoint, s.disk.Told cpInfo) ∧
      (s.apply step).AllTold steps

/-- Every checkpoint that the next call saves tells the chain. -/
def Node.NextTold (conf : StoreConf) (b : Block) (indexFails : Bool) : Node → Prop
  | .down d => (d.levelDb[blkMgrInfoKey]? = none → d.Told newCpInfo) ∧
      ∀ effects mgr, newBlockfileMgr conf d = (effects, .ok mgr) →
        (effects.foldl Disk.apply d).Told mgr.cpInfo
  | .up s => s.AllTold (addBlock conf s.mgr b indexFails).1

section Told

variable {conf : StoreConf} {d : Disk} {s : Store} {l : Shape} {b : StoredBlock}
  {hash : BlockHeader → Bytes}

theorem Shape.Valid.matches (hv : l.Valid) : l.checkpoint.Matches l.chain := by
  refine ⟨?_, fun b hb => ?_⟩
  · rw [l.chain_eq, map_eq_nil_iff, ← length_eq_zero_iff]
    exact decide_eq_true_iff
  · rw [getLast?_eq_getElem?, l.chain_eq, length_map, getElem?_map] at hb
    obtain ⟨p, hp, rfl⟩ := Option.map_eq_some_iff.mp hb
    exact (hv.numbered _ p hp).symm

theorem Idle.told (h : Idle hash d l) (hv : l.Valid) : d.Told l.checkpoint :=
  ⟨l, [], h.files, torn_nil, hv.matches⟩

theorem checkpoint_saved (hv : l.Valid) (hs : l.Small) (sync : Bool) :
    (saveCurrentInfo l.checkpoint sync).checkpoint = some l.checkpoint := by
  have hfile : l.before.length < 2 ^ 64 := lt_trans hs.files (by norm_num)
  have hsize : (contentOf l.last).length < 2 ^ 64 := lt_trans hv.size_last (by norm_num)
  exact unmarshal_marshal hfile hsize

theorem checkpoint_indexed (p : Placed) (sync : Bool) :
    (StoreStep.disk (.write (batchOf (p.puts hash)) sync)).checkpoint = none := by
  rw [StoreStep.checkpoint, checkpoint_index]
  rfl

theorem Store.AllTold.append {xs ys : List StoreStep} (hx : s.AllTold xs)
    (hy : (s.applyAll xs).AllTold ys) : s.AllTold (xs ++ ys) := by
  induction xs generalizing s with
  | nil => exact hy
  | cons step xs ih => exact ⟨hx.1, ih hx.2 hy⟩

theorem Running.told_moved (h : Running conf s l) (hne : l.placed ≠ []) (hv : l.Valid)
    (hs : l.roll.Small) : s.AllTold (moveToNextFile l.checkpoint) := by
  have hopen : Idle conf.hash (s.disk.apply (.openFile (l.before.length + 1))) l :=
    h.idle.openFile h.current
  have hmoved := (h.moved hne).1
  rw [moveToNextFile_eq hne] at hmoved ⊢
  refine ⟨nofun, fun cpInfo hcp => ?_, fun cpInfo hcp => ?_, trivial⟩
  · rw [checkpoint_saved hv.roll hs] at hcp
    cases hcp
    exact ⟨l, [], hopen.files, torn_nil, l.chain_roll ▸ hv.roll.matches⟩
  · cases hcp
    exact hmoved.idle.told hv.roll

theorem Running.told_stored (h : Running conf s l) (hv : (l.push b).Valid)
    (hs : (l.push b).Small) (indexFails : Bool) : s.AllTold (storeSteps conf l b indexFails) := by
  obtain ⟨hstore, hcount, -⟩ := h.counted b
  refine ⟨nofun, nofun, nofun, fun cpInfo hcp => ?_, ?_⟩
  · rw [checkpoint_saved hv hs] at hcp
    cases hcp
    exact hstore.told hv
  · cases indexFails with
    | true =>
      refine ⟨fun cpInfo hcp => ?_, nofun, trivial⟩
      cases hcp
      exact hcount.told hv
    | false =>
      refine ⟨fun cpInfo hcp => ?_, fun cpInfo hcp => ?_, nofun, trivial⟩
      · rw [checkpoint_indexed] at hcp
        cases hcp
      · cases hcp
        exact (h.addedBlock b).1.told hv

theorem NodeOk.nextTold {k : Nat} {n : Node} {c : List Block} {b : Block}
    (hattrs : conf.attrs = .all) (hmax : conf.maxBlockfileSize < 2 ^ 63)
    (h : NodeOk conf k n c) (hk : k + 1 < 2 ^ 63) (hb : Storable conf b) (indexFails : Bool) :
    n.NextTold conf b indexFails := by
  cases n with
  | down d =>
    refine ⟨fun hnone => ?_, fun effects mgr hnew => ?_⟩
    · obtain ⟨rfl, -⟩ | ⟨l, t, hc, -⟩ := h
      · exact ⟨⟨[], []⟩, [], ⟨nofun, rfl, fun _ _ => rfl⟩, torn_nil, iff_of_true rfl rfl, nofun⟩
      · obtain ⟨_, _, -, hcp⟩ := hc.db.checkpoint
        cases hcp.symm.trans hnone
    · obtain ⟨l, effects', hnew', hrun, -, hv, -⟩ := h.starts hattrs (lt_of_succ_lt hk)
      cases hnew.symm.trans hnew'
      exact hrun.idle.told hv
  | up s =>
    obtain ⟨l, hrun, -, hv, hw⟩ := h
    rw [Node.NextTold]
    obtain ⟨-, hno⟩ | ⟨sb, rfl, hnum, hfirst, hadd⟩ := hrun.addBlock_cases hattrs hb
    · obtain ⟨f, hf⟩ := hno indexFails
      rw [hf]
      trivial
    · rw [hadd, addSteps]
      refine .append ?_ ((hrun.room sb hfirst).told_stored (hv.room_push hmax hnum).2
        (hw.room_push.small hk) indexFails)
      split
      · rename_i hroll
        have hw' : (l.room conf sb).Within _ := hw.room
        rw [room, if_pos hroll] at hw'
        exact hrun.told_moved (hfirst hroll) hv (hw'.small hk)
      · trivial

/-- A first block that does not fit into a file: the checkpoint of the next file counts a block. -/
theorem first_block_untold {b : Block} {bytes : Bytes} {txOffsets : List TxIndexInfo}
    (hattrs : conf.attrs = .all) (hser : serializeBlock b = .ok (bytes, txOffsets))
    (hnum : b.header.number = 0) (hlarge : conf.maxBlockfileSize < (encodeRawBytes bytes).length)
    (indexFails : Bool) : ¬ (Node.run conf [.start]).NextTold conf b indexFails := by
  have hok : NodeOk conf 0 (.down .empty) [] := .inl ⟨rfl, rfl⟩
  obtain ⟨⟨before, last⟩, effects, hnew, hrun, hchain, -, hw, -⟩ := hok.starts hattrs (by norm_num)
  obtain rfl : before = [] := eq_nil_of_length_eq_zero (Nat.le_zero.mp hw.files)
  obtain rfl : last = [] := by
    rw [chain_eq, map_eq_nil_iff] at hchain
    exact last_eq_nil hchain
  have hroll : Rolls conf newCpInfo bytes := by
    rw [encodeRawBytes, length_append] at hlarge
    rw [Rolls, newCpInfo]
    omega
  have hmgr : Shape.mgr conf.hash ⟨[], []⟩ = ⟨newCpInfo, ⟨0, [], []⟩⟩ := rfl
  rw [Node.run, foldl_cons, foldl_nil, Node.step, hnew]
  dsimp only [Node.NextTold]
  rw [hmgr, addBlock, if_neg (not_not.mpr hnum), hser]
  dsimp only
  rw [if_pos hroll]
  rintro ⟨-, -, htold, -⟩
  obtain ⟨l, t, hfiles, -, hempty, -⟩ := htold _ rfl
  -- no file has a byte, and so no block is in them
  have hbytes : (effects.foldl Disk.apply empty).contents.flatten = [] := hrun.idle.files.flatten
  have hopened : ((effects.foldl Disk.apply empty).apply (.openFile 1)).contents.flatten = [] := by
    rw [contents_openFile]
    split
    · exact hbytes
    · rw [flatten_append, hbytes]
      rfl
  have hnil := append_eq_nil_iff.mp (hfiles.flatten.symm.trans hopened)
  have hchain' : l.chain = [] := map_eq_nil_iff.mpr (contentOf_eq_nil hnil.1)
  exact Bool.false_ne_true (hempty.mpr hchain')

/-- Every checkpoint of a run is told if all blocks can be stored, in particular if the first one
fits into a file; if it does not, adding it is enough for one that is not. -/
theorem checkpoints_told_iff (hattrs : conf.attrs = .all) (hmax : conf.maxBlockfileSize < 2 ^ 63) :
    (∀ (es : List NodeEvent) (b : Block) (indexFails : Bool), es.length + 1 < 2 ^ 63 →
      (∀ e ∈ es, e.Storable conf) → (∀ b, .add b true ∉ es) → Storable conf b →
        (Node.run conf es).NextTold conf b indexFails) ∧
      ∀ (b : Block) (bytes : Bytes) (txOffsets : List TxIndexInfo) (indexFails : Bool),
        serializeBlock b = .ok (bytes, txOffsets) → b.header.number = 0 →
        conf.maxBlockfileSize < (encodeRawBytes bytes).length →
          ¬ (Node.run conf [.start]).NextTold conf b indexFails := by
  refine ⟨fun es b indexFails hlen hes hwrites hb => ?_, fun b bytes txOffsets indexFails hser hnum
    hlarge => first_block_untold hattrs hser hnum hlarge indexFails⟩
  obtain ⟨c, -, hok⟩ := NodeOk.run hattrs hmax es (lt_of_succ_lt hlen) hes (not_losesIndex hwrites)
  exact hok.nextTold hattrs hmax hlen hb indexFails

end Told

theorem checkpoints_told_first_block :
    (Node.run smallConf [.start]).NextTold smallConf (blockOf 0 [str "t0", str "t1"] 0) false :=
  (checkpoints_told_iff rfl (by decide)).1 _ _ _ (by decide) (by simp [NodeEvent.Storable]) (by simp)
    (storable_of_ok rfl (by decide) rfl (by decide) (by decide) (by decide))

/-- A first block of more than 10 bytes with files of 10 bytes: the checkpoint is wrong, and after
a crash behind it the peer does not start again. -/
theorem first_block_counted_early :
    let conf : StoreConf := ⟨10, .all, smallConf.hash⟩
    ¬ (Node.run conf [.start]).NextTold conf (blockOf 0 [str "t0"] 0) false ∧
      (Node.run conf [.start, .addCrash (blockOf 0 [str "t0"] 0) false 3 (fun _ => 9) 9]).restart
        conf = Result.panicWith (.explicit
          (str "Could not retrieve header of the last block form file")) :=
  ⟨first_block_untold rfl rfl rfl (by decide) false, by decide +kernel⟩

end FabricOev.BlockStore
