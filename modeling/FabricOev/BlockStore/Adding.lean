import FabricOev.BlockStore.Recovery

/-!
# Adding a block

The steps of `addBlock` on a store with all its blocks indexed. After the last one the block is
at the end of the chain and indexed, and a crash anywhere on the way leaves the chain without it
or with it.
-/

namespace FabricOev.BlockStore

open Go Go.Wire Protos Ledger Lib FinMap List Shape UInt64 Nat

/-! ## The steps -/

def storeSteps (conf : StoreConf) (l : Shape) (b : StoredBlock) (indexFails : Bool) :
    List StoreStep :=
  [.disk (.append l.before.length (encodeVarint b.bytes.length)),
    .disk (.append l.before.length b.bytes), .disk (.syncFile l.before.length),
    saveCurrentInfo (l.push b).checkpoint false] ++
  (if indexFails then [] else [.disk (.write (batchOf ((l.next b).puts conf.hash)) false)]) ++
  [.updateCheckpoint (l.push b).checkpoint,
    .updateBlockchainInfo (conf.hash b.block.header) b.block.header.previousHash]

variable (hash : BlockHeader → Bytes)

section Steps

variable {conf : StoreConf} {l : Shape} {b : StoredBlock}

theorem Shape.checkpoint_push (l : Shape) (b : StoredBlock)
    (hnum : b.block.header.number = ofNat l.placed.length) :
    (l.push b).checkpoint = ⟨l.before.length, (contentOf l.last).length +
      (b.bytes.length + (encodeVarint b.bytes.length).length), false, b.block.header.number⟩ := by
  have hlen : (l.push b).placed.length = l.placed.length + 1 := by
    rw [placed_push, length_append, length_singleton]
  have hsize : (contentOf (l.push b).last).length = (contentOf l.last).length +
      (b.bytes.length + (encodeVarint b.bytes.length).length) := by
    rw [push, contentOf_append, length_append]
    simp only [contentOf, flatMap_singleton, StoredBlock.frame, encodeRawBytes, length_append]
    omega
  rw [checkpoint, hlen, hsize, hnum, checkpointAt, decide_eq_false (succ_ne_zero _),
    Nat.add_sub_cancel]
  rfl

theorem appendBlock_eq (hattrs : conf.attrs = .all)
    (hnum : b.block.header.number = ofNat l.placed.length) (indexFails : Bool) :
    appendBlock conf l.checkpoint b.block b.bytes b.txOffsets indexFails =
      (storeSteps conf l b indexFails, .ok ()) := by
  have hinfo := indexBlock_placed conf.hash (l.next b)
  have hsteps : ∀ info, info = (l.next b).info conf.hash → indexSteps .all info indexFails =
      .ok (if indexFails then []
        else [.disk (.write (batchOf ((l.next b).puts conf.hash)) false)]) := by
    intro info hi
    rw [hi, indexSteps, hinfo, Result.ok_bind]
  rw [appendBlock, hattrs, hsteps, storeSteps, checkpoint_push l b hnum]
  · rfl
  · rfl

theorem height_infoOf (chain : List Block) : (infoOf hash chain).height = ofNat chain.length := by
  rw [infoOf]
  cases hlast : chain.getLast? with
  | none => rw [getLast?_eq_none_iff.mp hlast]; rfl
  | some b => rfl

theorem Shape.nextFile_checkpoint (h : l.placed ≠ []) :
    l.checkpoint.nextFile = l.roll.checkpoint := by
  have hpos : ¬ l.placed.length = 0 := fun h0 => h (eq_nil_of_length_eq_zero h0)
  rw [checkpoint, checkpoint, placed_roll, checkpointAt, checkpointAt, decide_eq_false hpos]
  simp [CheckpointInfo.nextFile, roll, contentOf]

theorem moveToNextFile_eq (h : l.placed ≠ []) :
    moveToNextFile l.checkpoint = [.disk (.openFile (l.before.length + 1)),
      saveCurrentInfo l.roll.checkpoint true, .updateCheckpoint l.roll.checkpoint] := by
  rw [← nextFile_checkpoint h]
  rfl

def Shape.room (conf : StoreConf) (l : Shape) (b : StoredBlock) : Shape :=
  if Rolls conf l.checkpoint b.bytes then l.roll else l

def addSteps (conf : StoreConf) (l : Shape) (b : StoredBlock) (indexFails : Bool) :
    List StoreStep :=
  (if Rolls conf l.checkpoint b.bytes then moveToNextFile l.checkpoint else []) ++
    storeSteps conf (l.room conf b) b indexFails

theorem addBlock_eq (hattrs : conf.attrs = .all)
    (hnum : b.block.header.number = ofNat l.placed.length)
    (hfirst : Rolls conf l.checkpoint b.bytes → l.placed ≠ []) (indexFails : Bool) :
    addBlock conf (l.mgr conf.hash) b.block indexFails =
      (addSteps conf l b indexFails, .ok ()) := by
  have hheight : ¬ b.block.header.number ≠ (l.mgr conf.hash).bcInfo.height := by
    rw [mgr, height_infoOf, l.chain_eq, length_map, hnum]
    exact fun h => h rfl
  rw [addBlock, if_neg hheight, b.serialized]
  dsimp only
  rw [addSteps, room, show (l.mgr conf.hash).cpInfo = l.checkpoint from rfl]
  by_cases hroll : Rolls conf l.checkpoint b.bytes
  · have hnum' : b.block.header.number = ofNat l.roll.placed.length := by
      rw [placed_roll]
      exact hnum
    rw [if_pos hroll, if_pos hroll, if_pos hroll, nextFile_checkpoint (hfirst hroll),
      appendBlock_eq hattrs hnum']
  · rw [if_neg hroll, if_neg hroll, if_neg hroll, appendBlock_eq hattrs hnum]
    rfl

end Steps

section Valid

variable {conf : StoreConf} {l : Shape} {b : StoredBlock}

theorem Shape.Valid.roll (h : l.Valid) : l.roll.Valid := by
  refine ⟨?_, fun bs hbs => ?_⟩
  · rw [placed_roll]
    exact h.numbered
  · obtain hbs | hbs := mem_append.mp hbs
    · exact h.sizes bs hbs
    · rw [mem_singleton.mp hbs]
      exact Nat.two_pow_pos 63

theorem Shape.Valid.push (h : l.Valid) (hnum : b.block.header.number = ofNat l.placed.length)
    (hsize : (contentOf l.last).length + b.frame.length < 2 ^ 63) : (l.push b).Valid := by
  refine ⟨fun i p hp => ?_, fun bs hbs => ?_⟩
  · rw [placed_push] at hp
    obtain hp | ⟨rfl, rfl⟩ := getElem?_concat_eq_some.mp hp
    · exact h.numbered i p hp
    · exact hnum
  · obtain hbs | hbs := mem_append.mp hbs
    · exact h.sizes bs (mem_append_left _ hbs)
    · rw [mem_singleton.mp hbs, Shape.push, contentOf_append, length_append]
      simpa [contentOf] using hsize

theorem StoredBlock.length_frame_lt (b : StoredBlock) : b.frame.length < 2 ^ 57 := by
  have hshort := b.short
  have hprefix := length_encodeVarint_le hshort
  rw [frame, encodeRawBytes, length_append]
  omega

theorem length_frame (b : StoredBlock) :
    b.frame.length = b.bytes.length + (encodeVarint b.bytes.length).length := by
  rw [StoredBlock.frame, encodeRawBytes, length_append, add_comm]

theorem Shape.Valid.room_push (h : l.Valid) (hmax : conf.maxBlockfileSize < 2 ^ 63)
    (hnum : b.block.header.number = ofNat l.placed.length) :
    (l.room conf b).Valid ∧ ((l.room conf b).push b).Valid := by
  rw [room]
  split
  · refine ⟨h.roll, h.roll.push (by rw [placed_roll]; exact hnum) ?_⟩
    have := b.length_frame_lt
    show 0 + b.frame.length < 2 ^ 63
    omega
  · rename_i hroll
    refine ⟨h, h.push hnum ?_⟩
    rw [Rolls, ← length_frame] at hroll
    have hroll : ¬ conf.maxBlockfileSize < (contentOf l.last).length + b.frame.length := hroll
    omega

variable (l b)

theorem Shape.chain_room : (l.room conf b).chain = l.chain := by
  rw [room]
  split
  · exact l.chain_roll
  · rfl

theorem Shape.placed_room : (l.room conf b).placed = l.placed := by
  rw [room]
  split
  · exact l.placed_roll
  · rfl

theorem Shape.length_room : (l.room conf b).before.length ≤ l.before.length + 1 := by
  rw [room]
  split
  · rw [roll, length_append, length_singleton]
  · omega

end Valid

section Adding

variable {conf : StoreConf} {s : Store} {l : Shape} {b : StoredBlock}

theorem Recoverable.imp {hash : BlockHeader → Bytes} {P Q : Shape → Prop} {d : Disk}
    (h : Recoverable hash P d) (hPQ : ∀ l, P l → Q l) : Recoverable hash Q d := by
  intro bytes writes
  obtain ⟨l, t, hc, hl⟩ := h bytes writes
  exact ⟨l, t, hc, hPQ l hl⟩

theorem Running.moved (h : Running conf s l) (hne : l.placed ≠ []) :
    Running conf (s.applyAll (moveToNextFile l.checkpoint)) l.roll ∧
      ∀ k, Recoverable conf.hash (fun l' => l' = l ∨ l' = l.roll)
        (s.applyAll ((moveToNextFile l.checkpoint).take k)).disk := by
  have hopen : Idle conf.hash (s.disk.apply (.openFile (l.before.length + 1))) l :=
    h.idle.openFile h.current
  have hlen := length_openFile (d := s.disk) (n := l.before.length + 1) h.current
  have hroll := hopen.roll (lt_of_succ_lt hlen)
  rw [moveToNextFile_eq hne]
  refine ⟨⟨hroll, ?_, ?_, ?_⟩, fun k => ?_⟩
  · rw [roll, length_append]
    exact hlen
  · show IndexOk conf.hash (Disk.levelDb (Disk.apply _ (.write _ true))) _
    rw [levelDb_write, placed_roll]
    exact h.index.put _
  · rw [Shape.mgr, Shape.chain_roll]
    exact congrArg (BlockfileMgr.mk l.roll.checkpoint ∘ BlockfileMgr.bcInfo) h.mgr
  · rcases k with _ | _ | _ | k
    · exact h.idle.recoverable.imp fun _ hl => .inl hl
    · exact hopen.recoverable.imp fun _ hl => .inl hl
    · exact hroll.recoverable.imp fun _ hl => .inr hl
    · rw [take_of_length_le (le_add_left 3 k)]
      exact hroll.recoverable.imp fun _ hl => .inr hl

def Disk.storeBlock (d : Disk) (l : Shape) (b : StoredBlock) : Disk :=
  ((d.apply (.append l.before.length (encodeVarint b.bytes.length))).apply
    (.append l.before.length b.bytes)).apply (.syncFile l.before.length)

def Disk.countBlock (d : Disk) (l : Shape) (b : StoredBlock) : Disk :=
  (d.storeBlock l b).apply (.write (putBatch blkMgrInfoKey (l.push b).checkpoint.marshal) false)

def Disk.addBlock (hash : BlockHeader → Bytes) (d : Disk) (l : Shape) (b : StoredBlock) : Disk :=
  (d.countBlock l b).apply (.write (batchOf ((l.next b).puts hash)) false)

variable (d : Disk)

theorem length_countBlock (l : Shape) (b : StoredBlock) :
    (d.countBlock l b).files.length = d.files.length := by
  simp only [Disk.countBlock, Disk.storeBlock, Disk.apply, length_modify]

theorem levelDb_countBlock (l : Shape) (b : StoredBlock) :
    (d.countBlock l b).levelDb =
      d.levelDb.writeBatch (putBatch blkMgrInfoKey (l.push b).checkpoint.marshal) := by
  rw [Disk.countBlock, levelDb_write]
  rfl

theorem Running.counted (h : Running conf s l) (b : StoredBlock) :
    Idle conf.hash (s.disk.storeBlock l b) (l.push b) ∧
      Idle conf.hash (s.disk.countBlock l b) (l.push b) ∧
      IndexOk conf.hash (s.disk.countBlock l b).levelDb l.placed := by
  have hlen := (h.idle.appending h.current b).append (encodeVarint b.bytes.length) b.bytes rfl
  have hsync : Idle conf.hash (s.disk.storeBlock l b) (l.push b) :=
    (hlen.append b.bytes [] (append_nil _)).sync
  refine ⟨hsync, hsync.write hsync.db.now.save, ?_⟩
  rw [levelDb_countBlock]
  exact h.index.put _

theorem Running.addedBlock (h : Running conf s l) (b : StoredBlock) :
    Idle conf.hash (s.disk.addBlock conf.hash l b) (l.push b) ∧
      IndexOk conf.hash (s.disk.addBlock conf.hash l b).levelDb (l.push b).placed := by
  obtain ⟨-, hidle, hidx⟩ := h.counted b
  have hplaced := l.placed_push b
  have htake : (l.push b).placed.take l.placed.length = l.placed := by rw [hplaced, take_left]
  have hget : (l.push b).placed[l.placed.length]? = some (l.next b) := by
    rw [hplaced, getElem?_append_right (Nat.le_refl _), Nat.sub_self]
    rfl
  rw [← htake] at hidx
  obtain ⟨hdb, hnext⟩ := hidle.db.now.index_next hidx hget
  refine ⟨hidle.write hdb, ?_⟩
  rw [Disk.addBlock, levelDb_write]
  rw [take_of_length_le (by rw [hplaced, length_append]; rfl)] at hnext
  exact hnext

theorem infoOf_push (l : Shape) (b : StoredBlock) :
    (⟨(infoOf hash l.chain).height + 1, hash b.block.header, b.block.header.previousHash⟩ :
      BlockchainInfo) = infoOf hash (l.push b).chain := by
  have hsum : ofNat l.chain.length + 1 = ofNat (l.chain.length + 1) := by
    rw [ofNat_add]
    rfl
  rw [height_infoOf, hsum, chain_push, infoOf, getLast?_concat, length_append]
  rfl

theorem Running.recoverable_stored (h : Running conf s l) (b : StoredBlock) (indexFails : Bool)
    (k : Nat) :
    Recoverable conf.hash (fun l' => l' = l ∨ l' = l.push b)
      (s.applyAll ((storeSteps conf l b indexFails).take k)).disk := by
  have hlen := (h.idle.appending h.current b).append (encodeVarint b.bytes.length) b.bytes rfl
  have hbytes := hlen.append b.bytes [] (append_nil _)
  obtain ⟨hstore, hcount, -⟩ := h.counted b
  have hcounted : Recoverable conf.hash (fun l' => l' = l ∨ l' = l.push b)
      (s.disk.countBlock l b) := hcount.recoverable.imp fun _ hl => .inr hl
  have hadded : Recoverable conf.hash (fun l' => l' = l ∨ l' = l.push b)
      (s.disk.addBlock conf.hash l b) := (h.addedBlock b).1.recoverable.imp fun _ hl => .inr hl
  match k with
  | 0 => exact h.idle.recoverable.imp fun _ hl => .inl hl
  | 1 => exact hlen.recoverable
  | 2 => exact hbytes.recoverable
  | 3 => exact hstore.recoverable.imp fun _ hl => .inr hl
  | 4 => exact hcounted
  | k + 5 =>
    -- with the index write, or without it
    cases indexFails with
    | true =>
      cases k with
      | zero => exact hcounted
      | succ k =>
        rw [take_of_length_le (le_add_left 6 k)]
        exact hcounted
    | false =>
      match k with
      | 0 | 1 => exact hadded
      | k + 2 =>
        rw [take_of_length_le (le_add_left 7 k)]
        exact hadded

theorem Running.stored (h : Running conf s l) (b : StoredBlock) :
    Running conf (s.applyAll (storeSteps conf l b false)) (l.push b) := by
  obtain ⟨hidle, hidx⟩ := h.addedBlock b
  refine ⟨hidle, ?_, hidx, ?_⟩
  · show l.before.length < (s.disk.countBlock l b).files.length
    rw [length_countBlock]
    exact h.current
  · show (⟨(l.push b).checkpoint, ⟨s.mgr.bcInfo.height + 1, _, _⟩⟩ : BlockfileMgr) = _
    rw [h.mgr, Shape.mgr, Shape.mgr, ← infoOf_push]

theorem Store.applyAll_append (s : Store) (xs ys : List StoreStep) :
    s.applyAll (xs ++ ys) = (s.applyAll xs).applyAll ys := foldl_append

variable (h : Running conf s l) (b) (hfirst : Rolls conf l.checkpoint b.bytes → l.placed ≠ [])
include h hfirst

theorem Running.room :
    Running conf (s.applyAll (if Rolls conf l.checkpoint b.bytes then
      moveToNextFile l.checkpoint else [])) (l.room conf b) := by
  rw [Shape.room]
  split
  · rename_i hroll
    exact (h.moved (hfirst hroll)).1
  · exact h

theorem Running.added :
    Running conf (s.applyAll (addSteps conf l b false)) ((l.room conf b).push b) := by
  rw [addSteps, Store.applyAll_append]
  exact (h.room b hfirst).stored b

/-- A crash in `addBlock` leaves the blocks there were, with or without the new one. -/
theorem Running.recoverable_added (indexFails : Bool) (k : Nat) :
    Recoverable conf.hash (fun l' => l' = l ∨ l' = l.room conf b ∨ l' = (l.room conf b).push b)
      (s.applyAll ((addSteps conf l b indexFails).take k)).disk := by
  have hroom := h.room b hfirst
  rw [addSteps, take_append, Store.applyAll_append]
  by_cases hroll : Rolls conf l.checkpoint b.bytes
  · have hshape : l.room conf b = l.roll := if_pos hroll
    rw [if_pos hroll] at hroom ⊢
    by_cases hk : k ≤ (moveToNextFile l.checkpoint).length
    · rw [Nat.sub_eq_zero_of_le hk, take_zero]
      refine ((h.moved (hfirst hroll)).2 k).imp fun l' hl => ?_
      rw [hshape]
      exact hl.imp_right .inl
    · rw [take_of_length_le (Nat.le_of_lt (Nat.lt_of_not_le hk))]
      exact (hroom.recoverable_stored b indexFails _).imp fun l' hl => .inr hl
  · rw [if_neg hroll] at hroom ⊢
    rw [take_nil]
    exact (hroom.recoverable_stored b indexFails _).imp fun l' hl => .inr hl

end Adding

end FabricOev.BlockStore
