import FabricOev.BlockStore.DiskInvariant

/-!
# Starting on what a crash has left

`newBlockfileMgr` on any disk that a crash can leave: the file is scanned from the checkpoint to
its last whole block and cut there, the index is brought up to it, and the manager is at the end
of the chain. A crash on the way leaves the same chain.
-/

namespace FabricOev.BlockStore

open Go Go.Wire Protos Ledger Lib FinMap List Disk Result Shape Option UInt64 Nat

namespace Shape

structure Valid (l : Shape) : Prop where
  numbered : Numbered l.placed
  sizes : ∀ bs ∈ l.layout, (contentOf bs).length < 2 ^ 63

structure Small (l : Shape) : Prop where
  files : l.before.length < 2 ^ 63
  blocks : l.placed.length < 2 ^ 63

variable {l : Shape}

theorem backs_contents (l : Layout) : Backs (l.map contentOf) l [] := by
  intro f bs hf
  rw [getElem?_map, hf, ite_self, append_nil]
  rfl

theorem Valid.fits (h : l.Valid) (hs : l.Small) {p : Placed} (hp : p ∈ l.placed) : p.Fits := by
  have hlt := (fileNum_placeFrom hp).2
  obtain ⟨pre, post, hfile, hlen⟩ := file_of_placed (backs_contents l.layout) hp
  rw [getElem?_map] at hfile
  obtain ⟨bs, hbs, hcontent⟩ := map_eq_some_iff.mp hfile
  have hsize := h.sizes bs (mem_of_getElem? hbs)
  rw [hcontent, length_append, length_append] at hsize
  have hfiles := hs.files
  rw [length_layout] at hlt
  constructor
  · omega
  · rw [← hlen, StoredBlock.frame]
    omega

theorem Valid.size_last (h : l.Valid) : (contentOf l.last).length < 2 ^ 63 :=
  h.sizes l.last (mem_append_right _ mem_cons_self)

theorem length_contentOf_le (done todo : List StoredBlock) :
    (contentOf done).length ≤ (contentOf (done ++ todo)).length := by
  rw [contentOf_append, length_append]
  omega

end Shape

theorem FilesOk.backs {files : List Bytes} {l : Shape} {t : Bytes} (h : FilesOk files l t)
    (hfile : l.before.length < files.length) : Backs files l.layout t := by
  intro f bs hf
  rw [length_layout]
  obtain hf | ⟨rfl, rfl⟩ := getElem?_concat_eq_some.mp hf
  · have hlt : f < l.before.length := lt_length hf
    rw [if_neg (by omega), append_nil]
    exact h.before f bs hf
  · have hlast := h.last
    rw [getElem?_eq_getElem hfile, getD_some] at hlast
    rw [if_pos rfl, getElem?_eq_getElem hfile, hlast]

theorem indexed_of_filesOk {hash : BlockHeader → Bytes} {d : Disk} {l : Shape} {t : Bytes}
    (hfiles : FilesOk d.contents l t) (hcur : l.before.length < d.files.length)
    (hidx : IndexOk hash d.levelDb l.placed) (hv : l.Valid) (hs : l.Small) :
    Indexed hash d.contents d.levelDb l.layout t :=
  ⟨hfiles.backs (by rw [contents, length_map]; exact hcur), hidx, hv.numbered,
    fun _ hp => hv.fits hs hp, lt_trans hs.blocks (by norm_num)⟩

/-! ## The scan -/

theorem length_le_contentOf (bs : List StoredBlock) : bs.length ≤ (contentOf bs).length := by
  induction bs with
  | nil => exact zero_le _
  | cons b bs ih =>
    have := b.length_frame_pos
    rw [contentOf_cons, length_append, length_cons]
    omega

theorem flatten_contents (l : Layout) : (l.map contentOf).flatten = contentOf l.flatten := by
  induction l with
  | nil => rfl
  | cons bs l ih => rw [map_cons, flatten_cons, flatten_cons, contentOf_append, ih]

theorem contentOf_eq_nil {bs : List StoredBlock} (h : contentOf bs = []) : bs = [] := by
  have := length_le_contentOf bs
  rw [h] at this
  exact eq_nil_of_length_eq_zero (le_zero.mp this)

/-- The scan reads the whole blocks and stops at what is behind them. -/
theorem scanLoop_torn (f : Nat) (pre : Bytes) (todo : List StoredBlock) {t : Bytes} (ht : Torn t)
    (fuel n : Nat) (hfuel : todo.length < fuel) :
    scanLoop (pre ++ (contentOf todo ++ t)) fuel ⟨f, pre.length⟩ n =
      .ok ((pre ++ contentOf todo).length, n + todo.length) := by
  induction todo generalizing pre fuel n with
  | nil =>
    obtain ⟨fuel, rfl⟩ : ∃ m, fuel = m + 1 := ⟨fuel - 1, by simp at hfuel; omega⟩
    obtain ⟨bs, u, hlen, hu, htu⟩ := ht
    have hnil : contentOf [] = [] := rfl
    rw [scanLoop, hnil, nil_append, append_nil]
    by_cases hemp : t = []
    · subst hemp
      rw [append_nil, next_end]
      rfl
    · rw [next_torn f pre hemp hu htu hlen]
      rfl
  | cons b todo ih =>
    obtain ⟨fuel, rfl⟩ : ∃ m, fuel = m + 1 := ⟨fuel - 1, by simp at hfuel; omega⟩
    rw [length_cons] at hfuel
    have hih := ih (pre ++ b.frame) fuel (n + 1) (by omega)
    rw [length_append, append_assoc] at hih
    rw [contentOf_cons, append_assoc, StoredBlock.frame, scanLoop, next_frame _ _ _ b.short]
    show scanLoop _ fuel ⟨f, pre.length + b.frame.length⟩ (n + 1) = _
    rw [← StoredBlock.frame, hih, length_cons, append_assoc, add_assoc n, add_comm 1]

theorem checkpointAt_counted (f size m n : Nat) (hn : ¬ n = 0) :
    (⟨f, size, false, if decide (m = 0) then ofNat (n - 1)
      else ofNat (m - 1) + ofNat n⟩ : CheckpointInfo) = checkpointAt f size (m + n) := by
  have hne : ¬ m + n = 0 := by omega
  rw [checkpointAt, decide_eq_false hne]
  by_cases hm : m = 0
  · rw [if_pos (decide_eq_true hm), hm, zero_add]
  · have hsum : m - 1 + n = m + n - 1 := by omega
    rw [if_neg (by simpa using hm), ← ofNat_add, hsum]

theorem syncCpInfoFromFs_eq {files : List Bytes} {l : Shape} {t : Bytes}
    (hfiles : FilesOk files l t) (ht : Torn t) {done todo : List StoredBlock}
    (hlast : l.last = done ++ todo) :
    syncCpInfoFromFs files (checkpointAt l.before.length (contentOf done).length
      (l.placed.length - todo.length)) = .ok l.checkpoint := by
  have htodo : l.placed.length - todo.length + todo.length = l.placed.length := by
    have := congrArg length (stored_placeIn l.before.length 0 l.last)
    rw [length_map, hlast, length_append] at this
    rw [placed_eq, length_append, hlast]
    omega
  have hcontent := hfiles.last
  rw [hlast, contentOf_append, append_assoc] at hcontent
  -- nothing is behind the checkpoint
  have hsame : todo = [] → checkpointAt l.before.length (contentOf done).length
      (l.placed.length - todo.length) = l.checkpoint := by
    intro hnil
    rw [checkpoint, hlast, hnil, append_nil]
    rfl
  have hsuffix : (checkpointAt l.before.length (contentOf done).length
      (l.placed.length - todo.length)).latestFileChunkSuffixNum = l.before.length := rfl
  rw [syncCpInfoFromFs, hsuffix]
  cases hfile : files[l.before.length]? with
  | none =>
    rw [hfile, getD_none] at hcontent
    obtain ⟨-, hrest⟩ := append_eq_nil_iff.mp hcontent.symm
    rw [hsame (contentOf_eq_nil (append_eq_nil_iff.mp hrest).1)]
  | some file =>
    rw [hfile, getD_some] at hcontent
    subst hcontent
    show (if (contentOf done ++ (contentOf todo ++ t)).length = (contentOf done).length
      then _ else _) = _
    by_cases hlen : (contentOf done ++ (contentOf todo ++ t)).length = (contentOf done).length
    · have hnil : contentOf todo = [] := by
        rw [length_append, length_append] at hlen
        exact eq_nil_of_length_eq_zero (by omega)
      rw [if_pos hlen]
      exact congrArg Except.ok (hsame (contentOf_eq_nil hnil))
    · have hfuel : todo.length < (contentOf done ++ (contentOf todo ++ t)).length + 1 := by
        have := length_le_contentOf todo
        rw [length_append, length_append]
        omega
      rw [if_neg hlen, scanForLastCompleteBlock]
      dsimp only [checkpointAt]
      rw [scanLoop_torn _ _ _ ht _ _ hfuel, ok_bind]
      rw [zero_add, ← contentOf_append, ← hlast]
      by_cases hzero : todo.length = 0
      · rw [if_pos hzero, hzero]
        rfl
      · rw [if_neg hzero, checkpointAt_counted l.before.length _ _ _ hzero, htodo]
        rfl

section Opening

variable {hash : BlockHeader → Bytes} {d : Disk} {l : Shape} {t : Bytes}

variable (h : Crashed hash d l t)
include h

theorem openWriter_crashed (hv : l.Valid) (hs : l.Small) :
    openWriter d = .ok (l.checkpoint, [.openFile l.before.length,
      .truncate l.before.length (contentOf l.last).length]) := by
  obtain ⟨done, todo, hlast, hcp⟩ := h.db.checkpoint
  have hsize : (contentOf done).length < 2 ^ 64 := by
    have hle := length_contentOf_le done todo
    have hlt := hv.size_last
    rw [← hlast] at hle
    omega
  have hload : loadCurrentInfo d.levelDb = .ok (some (checkpointAt l.before.length
      (contentOf done).length (l.placed.length - todo.length))) := by
    rw [loadCurrentInfo, hcp]
    dsimp only
    rw [CheckpointInfo.unmarshal_marshal (lt_trans hs.files (by norm_num)) hsize]
    rfl
  rw [openWriter, hload, ok_bind, getD_some, syncCpInfoFromFs_eq h.files h.torn hlast,
    ok_bind, if_neg nofun]
  rfl

theorem Crashed.recoverable : Recoverable hash (· = l) d := by
  intro bytes writes
  refine ⟨l, t, ⟨synced_crash d bytes writes, CrashLog.synced_crash _ _, ?_, h.torn, ?_⟩, rfl⟩
  · rw [contents_crash h.synced]
    exact h.files
  · rw [levelDb, crash, h.dbSynced.crash_entries]
    exact h.db

theorem Crashed.openFile : Crashed hash (d.apply (.openFile l.before.length)) l t := by
  have hle := h.files.length_le
  rw [contents, length_map] at hle
  exact ⟨synced_openFile h.synced _, h.dbSynced, h.files.openFile hle, h.torn, h.db⟩

theorem Crashed.truncate :
    Idle hash (d.apply (.truncate l.before.length (contentOf l.last).length)) l := by
  refine ⟨fun f hf => ?_, h.files.modify (fun i hi => ?_) ?_,
    CrashLog.survives_of_synced h.dbSynced h.db⟩
  · obtain ⟨i, hi⟩ := mem_iff_getElem?.mp hf
    rw [apply, getElem?_modify] at hi
    obtain ⟨g, hg, rfl⟩ := map_eq_some_iff.mp hi
    have hsynced := h.synced g (mem_of_getElem? hg)
    split
    · split
      · exact CrashLog.synced_truncate _ _
      · exact hsynced
    · exact hsynced
  · rw [getElem?_contents, getElem?_contents, apply, getElem?_modify]
    simp [Ne.symm hi]
  · have hlast := h.files.last
    rw [getElem?_contents] at hlast ⊢
    rw [apply, getElem?_modify]
    cases hf : d.files[l.before.length]? with
    | none =>
      rw [hf] at hlast
      have hnil : contentOf l.last = [] := (append_eq_nil_iff.mp hlast.symm).1
      rw [hnil]
      rfl
    | some f =>
      rw [hf, map_some, getD_some] at hlast
      rw [append_nil]
      show (if _ then _ else _ : CrashLog UInt8).entries = _
      rw [if_pos rfl]
      split
      · rw [CrashLog.entries_truncate, hlast, take_left]
      · rename_i hle
        rw [hlast, length_append] at hle
        have hnil : t = [] := eq_nil_of_length_eq_zero (by omega)
        rw [hlast, hnil, append_nil]

end Opening

section SyncIndex

variable {conf : StoreConf} {files : List Bytes} {db : LevelDb} {l : Layout} {s : BlockfileStream}
  {p : Placed}

theorem syncIndexLoop_eq (hattrs : conf.attrs = .all) (hb : Backs files l []) (todo : List Placed)
    (h : Ahead l s todo) (fuel : Nat) (hfuel : todo.length < fuel) :
    syncIndexLoop conf files (l.length - 1) fuel s =
      (todo.map fun p => batchOf (p.puts conf.hash), .ok ()) := by
  induction todo generalizing s fuel with
  | nil =>
    obtain ⟨fuel, rfl⟩ : ∃ m, fuel = m + 1 := ⟨fuel - 1, by simp at hfuel; omega⟩
    obtain ⟨s', hs'⟩ := blockStreamNext_end hb h
    rw [syncIndexLoop, hs']
    rfl
  | cons p todo ih =>
    obtain ⟨fuel, rfl⟩ : ∃ m, fuel = m + 1 := ⟨fuel - 1, by simp at hfuel; omega⟩
    have hend : ∀ e ∈ some (l.length - 1), p.fileNum ≤ e := by
      intro e he
      have hlt := h.fileNum_lt mem_cons_self
      cases he
      omega
    obtain ⟨s', hnext, hahead⟩ := blockStreamNext_next hb h hend
    obtain ⟨hextract, hinfo⟩ := syncedInfo_placed conf.hash p
    rw [syncIndexLoop, hnext]
    dsimp only
    rw [hextract]
    dsimp only
    rw [hinfo, hattrs, indexBlock_placed]
    rw [ih hahead fuel (by rw [length_cons] at hfuel; omega)]
    rfl

/-- The stream starts behind the last block that was indexed. -/
theorem syncIndexStream_eq {hash : BlockHeader → Bytes} (hb : Backs files l []) (hl : l ≠ [])
    {n : Nat} (hn : n ≤ l.placed.length) (hidx : IndexOk hash db (l.placed.take n))
    (hnum : Numbered l.placed) (hshort : l.placed.length < 2 ^ 64)
    (hfits : ∀ p ∈ l.placed, p.Fits) :
    ∃ s, syncIndexStream .all files db (l.length - 1) = .ok s ∧ Ahead l s (l.placed.drop n) := by
  have hcp := hidx .indexCheckpoint (ne_blkMgrInfoKey (by simp) (by simp))
  have hkey : IndexKey.indexCheckpoint.bytes = indexCheckpointKey := rfl
  rw [hkey] at hcp
  cases n with
  | zero =>
    have hnone : db[indexCheckpointKey]? = none := hcp
    have hpos := length_pos_iff.mpr hl
    refine ⟨⟨0, 0⟩, ?_, ahead_start hl⟩
    rw [syncIndexStream, syncIndexStart, hnone]
    dsimp only
    rw [ok_bind, openFile, hb 0 l[0] (getElem?_eq_getElem hpos)]
    rfl
  | succ m =>
    obtain ⟨p, hp⟩ : ∃ p, l.placed[m]? = some p := ⟨_, getElem?_eq_getElem hn⟩
    have hmem : p ∈ l.placed := mem_of_getElem? hp
    have htake : l.placed.take (m + 1) = l.placed.take m ++ [p] := by
      rw [take_add_one, hp, toList_some]
    have hsome : db[indexCheckpointKey]? = some (encodeVarint (p.number).toNat) := by
      rw [hcp, htake, flatMap_append, flatMap_singleton, lastOf_append, lastOf_puts_checkpoint]
      rfl
    have hdecode : decodeBlockNum (encodeVarint p.number.toNat) = ofNat m := by
      have hdec := decode_encodeVarint (t := []) p.number.toNat_lt
      rw [append_nil] at hdec
      rw [decodeBlockNum, hdec, ← hnum m p hp]
      exact UInt64.ofNat_toNat
    have hget : (l.placed.take (m + 1))[m]? = some p := by
      rw [getElem?_take_of_lt (lt_succ_self m), hp]
    have hnum' : Numbered (l.placed.take (m + 1)) := by
      intro i q hq
      rw [getElem?_take] at hq
      split at hq
      · exact hnum i q hq
      · cases hq
    have hloc := blockLocByNum_placed hidx hnum'
      (by rw [length_take]; omega) hget (hfits p hmem)
    have hsplit : l.placed = l.placed.take m ++ p :: l.placed.drop (m + 1) := by
      obtain ⟨hlt, hget⟩ := List.getElem?_eq_some_iff.mp hp
      rw [← hget, getElem_cons_drop, take_append_drop]
    have hahead := ahead_of_placed hsplit
    have hend : ∀ e ∈ some (l.length - 1), p.fileNum ≤ e := by
      intro e he
      have hlt := hahead.fileNum_lt mem_cons_self
      cases he
      omega
    obtain ⟨s', hnext, hahead'⟩ := blockStreamNext_next hb hahead hend
    obtain ⟨pre, post, hfile, -⟩ := file_of_placed hb hmem
    refine ⟨s', ?_, hahead'⟩
    rw [syncIndexStream, syncIndexStart, hsome]
    dsimp only
    rw [hdecode, hloc, ok_bind, ok_bind]
    dsimp only [Placed.flp]
    rw [openFile, hfile, ofOption, ok_bind, if_pos rfl, hnext, ok_bind]
    exact if_neg (by simp)

theorem length_placed_le (hb : Backs files l []) : l.placed.length ≤ files.flatten.length := by
  have htake : files.take l.length = l.map contentOf := by
    refine ext_getElem? fun i => ?_
    rw [getElem?_take, getElem?_map]
    split
    · rename_i hlt
      have := hb i l[i] (getElem?_eq_getElem hlt)
      rw [ite_self, append_nil] at this
      rw [this, getElem?_eq_getElem hlt]
      rfl
    · rw [getElem?_eq_none (by omega)]
      rfl
  have hblocks : l.placed.length = l.flatten.length := by
    rw [← stored_placeFrom 0 l, length_map]
    rfl
  have hbytes : l.flatten.length ≤ (l.map contentOf).flatten.length := by
    rw [flatten_contents]
    exact length_le_contentOf _
  rw [hblocks]
  refine le_trans hbytes ?_
  rw [← htake]
  conv_rhs => rw [← take_append_drop l.length files, flatten_append, length_append]
  exact le_add_right _ _

end SyncIndex

section Indexing

variable {hash : BlockHeader → Bytes} {d : Disk} {l : Shape}

theorem levelDb_write (d : Disk) (batch : LevelBatch) (sync : Bool) :
    (d.apply (.write batch sync)).levelDb = d.levelDb.writeBatch batch := by
  have happ : (d.apply (.write batch sync)).db.entries = d.db.entries ++ [batch] := by
    cases sync <;> rfl
  rw [levelDb, happ, dbOf_append]
  rfl

def indexWrites (hash : BlockHeader → Bytes) (ps : List Placed) : List DiskEffect :=
  ps.map fun p => .write (batchOf (p.puts hash)) false

/-- After each of the blocks behind the indexed ones, one more is indexed. -/
theorem Idle.indexing (h : Idle hash d l) {n : Nat}
    (hidx : IndexOk hash d.levelDb (l.placed.take n)) (k : Nat) (hk : n + k ≤ l.placed.length) :
    Idle hash ((indexWrites hash ((l.placed.drop n).take k)).foldl Disk.apply d) l ∧
      IndexOk hash ((indexWrites hash ((l.placed.drop n).take k)).foldl Disk.apply d).levelDb
        (l.placed.take (n + k)) ∧
      ((indexWrites hash ((l.placed.drop n).take k)).foldl Disk.apply d).files = d.files := by
  induction k with
  | zero => exact ⟨h, hidx, rfl⟩
  | succ k ih =>
    obtain ⟨hidle, hindex, hfiles⟩ := ih (by omega)
    obtain ⟨p, hp⟩ : ∃ p, l.placed[n + k]? = some p := ⟨_, getElem?_eq_getElem (by omega)⟩
    have htake : (l.placed.drop n).take (k + 1) = (l.placed.drop n).take k ++ [p] := by
      rw [take_add_one, getElem?_drop, hp, toList_some]
    have hwrites : (indexWrites hash ((l.placed.drop n).take (k + 1))).foldl apply d =
        ((indexWrites hash ((l.placed.drop n).take k)).foldl apply d).apply
          (.write (batchOf (p.puts hash)) false) := by
      rw [htake, indexWrites, map_append, foldl_append]
      rfl
    obtain ⟨hdb, hnext⟩ := hidle.db.now.index_next hindex hp
    rw [hwrites]
    refine ⟨hidle.write hdb, ?_, hfiles⟩
    rw [levelDb_write]
    exact hnext

end Indexing

/-! ## The manager -/

def infoOf (hash : BlockHeader → Bytes) (chain : List Block) : BlockchainInfo :=
  match chain.getLast? with
  | none => ⟨0, [], []⟩
  | some b => ⟨ofNat chain.length, hash b.header, b.header.previousHash⟩

def Shape.mgr (hash : BlockHeader → Bytes) (l : Shape) : BlockfileMgr :=
  ⟨l.checkpoint, infoOf hash l.chain⟩

/-- A store between two calls, with all its blocks indexed. -/
structure Running (conf : StoreConf) (s : Store) (l : Shape) : Prop where
  idle : Idle conf.hash s.disk l
  current : l.before.length < s.disk.files.length
  index : IndexOk conf.hash s.disk.levelDb l.placed
  mgr : s.mgr = l.mgr conf.hash

section Start

variable {conf : StoreConf} {d : Disk} {l : Shape} {t : Bytes}

theorem Running.indexed {s : Store} (h : Running conf s l) (hv : l.Valid) (hs : l.Small) :
    Indexed conf.hash s.disk.contents s.disk.levelDb l.layout [] :=
  indexed_of_filesOk h.idle.files h.current h.index hv hs

/-- The header of the last block tells where the chain ends. -/
theorem initialInfo_eq (hattrs : conf.attrs = .all)
    (h : Indexed conf.hash d.contents d.levelDb l.layout t) :
    initialInfo conf d l.checkpoint = .ok (infoOf conf.hash l.chain) := by
  have hlen : l.chain.length = l.placed.length := by rw [l.chain_eq, length_map]
  rw [initialInfo]
  by_cases hzero : l.placed.length = 0
  · have hchain : l.chain = [] := eq_nil_of_length_eq_zero (hlen.trans hzero)
    rw [if_pos (show l.checkpoint.isChainEmpty = true from decide_eq_true hzero), hchain]
    rfl
  · obtain ⟨p, hp⟩ : ∃ p, l.placed[l.placed.length - 1]? = some p :=
      ⟨_, getElem?_eq_getElem (by omega)⟩
    have hmem : p ∈ l.placed := mem_of_getElem? hp
    have hlast : l.chain.getLast? = some p.stored.block := by
      rw [getLast?_eq_getElem?, l.chain_eq, length_map, getElem?_map, hp]
      rfl
    have hheight : l.checkpoint.lastBlockNumber + 1 = ofNat l.chain.length := by
      show ofNat (l.placed.length - 1) + ofNat 1 = _
      rw [← ofNat_add, hlen, Nat.sub_add_cancel (by omega)]
    have hheader : retrieveBlockHeaderByNumber conf.attrs d l.checkpoint.lastBlockNumber =
        .ok p.stored.block.header := by
      rw [retrieveBlockHeaderByNumber, hattrs, show l.checkpoint.lastBlockNumber =
        ofNat (l.placed.length - 1) from rfl, blockLocByNum_placed h.index h.numbered
        h.short hp (h.fits p hmem), ok_bind, Placed.flp, fetchBytes_placed h.backs hmem,
        ok_bind, (syncedInfo_placed conf.hash p).1]
      rfl
    rw [if_neg (show ¬ l.checkpoint.isChainEmpty = true by
      rw [checkpoint, checkpointAt]; simpa using hzero), hheader]
    rw [hheight, infoOf, hlast]

def openEffects (l : Shape) : List DiskEffect :=
  [.openFile l.before.length, .truncate l.before.length (contentOf l.last).length]

theorem Crashed.opened {hash : BlockHeader → Bytes} (h : Crashed hash d l t) :
    Idle hash ((openEffects l).foldl Disk.apply d) l ∧
      l.before.length < ((openEffects l).foldl Disk.apply d).files.length := by
  have hle := h.files.length_le
  rw [contents, length_map] at hle
  have hlen := length_openFile hle
  refine ⟨h.openFile.truncate, ?_⟩
  show _ < ((d.apply (.openFile l.before.length)).files.modify _ _).length
  rw [length_modify]
  exact hlen

theorem Idle.syncIndex (hattrs : conf.attrs = .all) (h : Idle conf.hash d l)
    (hcur : l.before.length < d.files.length) (hv : l.Valid) (hs : l.Small) :
    ∃ n ≤ l.placed.length, IndexOk conf.hash d.levelDb (l.placed.take n) ∧
      syncIndex conf d.contents d.levelDb l.before.length =
        ((l.placed.drop n).map fun p => batchOf (p.puts conf.hash), .ok ()) := by
  obtain ⟨n, hn, hidx⟩ := h.db.now.index
  have hb := h.files.backs (by rw [contents, length_map]; exact hcur)
  have hshort : l.placed.length < 2 ^ 64 := lt_trans hs.blocks (by norm_num)
  obtain ⟨s, hstream, hahead⟩ := syncIndexStream_eq hb (by simp [layout]) hn hidx
    hv.numbered hshort fun p hp => hv.fits hs hp
  have hlast : l.layout.length - 1 = l.before.length := by rw [length_layout]; rfl
  have hfuel : (l.placed.drop n).length < d.contents.flatten.length + 1 := by
    have := length_placed_le hb
    rw [length_drop]
    exact lt_succ_of_le (le_trans (sub_le _ _) this)
  refine ⟨n, hn, hidx, ?_⟩
  rw [BlockStore.syncIndex, hattrs, ← hlast, show levelDb d = dbOf d.db.entries from rfl, hstream]
  exact syncIndexLoop_eq hattrs hb _ hahead _ hfuel

/-- Whatever a crash has left, the manager starts at the end of the chain with all of it indexed. -/
theorem newMgr_crashed (hattrs : conf.attrs = .all) (h : Crashed conf.hash d l t)
    (hv : l.Valid) (hs : l.Small) :
    ∃ effects, newBlockfileMgr conf d = (effects, .ok (l.mgr conf.hash)) ∧
      Running conf ⟨effects.foldl Disk.apply d, l.mgr conf.hash⟩ l ∧
      ∀ k, Recoverable conf.hash (· = l) ((effects.take k).foldl Disk.apply d) := by
  obtain ⟨hidle, hcur⟩ := h.opened
  obtain ⟨n, hn, hidx, hsync⟩ := hidle.syncIndex hattrs hcur hv hs
  have hpart := hidle.indexing hidx
  obtain ⟨hdone, hindex, hfiles⟩ := hpart (l.placed.length - n) (by omega)
  rw [take_of_length_le (by rw [length_drop])] at hdone hindex hfiles
  rw [Nat.add_sub_cancel' hn, take_length] at hindex
  have hrun : Running conf ⟨(openEffects l ++ indexWrites conf.hash (l.placed.drop n)).foldl
      apply d, l.mgr conf.hash⟩ l := by
    rw [foldl_append]
    exact ⟨hdone, by rw [hfiles]; exact hcur, hindex, rfl⟩
  have hinfo := initialInfo_eq hattrs (hrun.indexed hv hs)
  have hwrites : ((l.placed.drop n).map fun p => batchOf (p.puts conf.hash)).map
      (fun batch => DiskEffect.write batch false) = indexWrites conf.hash (l.placed.drop n) :=
    map_map
  refine ⟨openEffects l ++ indexWrites conf.hash (l.placed.drop n), ?_, hrun, fun k => ?_⟩
  · rw [newBlockfileMgr, openWriter_crashed h hv hs]
    dsimp only
    rw [← openEffects, show l.checkpoint.latestFileChunkSuffixNum = l.before.length from rfl, hsync]
    rw [hwrites, hinfo]
    rfl
  · match k with
    | 0 => exact h.recoverable
    | 1 => exact h.openFile.recoverable
    | k + 2 =>
      have htake : (openEffects l ++ indexWrites conf.hash (l.placed.drop n)).take (k + 2) =
          openEffects l ++ indexWrites conf.hash ((l.placed.drop n).take k) := by
        rw [indexWrites, indexWrites, map_take]
        rfl
      rw [htake, foldl_append]
      by_cases hk : n + k ≤ l.placed.length
      · exact (hpart k hk).1.recoverable
      · rw [take_of_length_le (by rw [length_drop]; omega)]
        exact hdone.recoverable

end Start

end FabricOev.BlockStore
