import FabricOev.BlockStore.Adding

/-!
# Runs with crashes and restarts

A peer starts its block store, adds blocks, and may stop anywhere: between two calls, in
`addBlock` or while it starts. Along every such run the files hold whole blocks and at most a
part of one more, and the next start serves exactly the whole blocks, if every block that is
added can be stored.
-/

namespace FabricOev.BlockStore

open Go Go.Wire Protos Ledger Lib FinMap List Disk Shape UInt64 Nat MetadataIndex

/-- A peer that is stopped, with what is on its disk, or one that runs. -/
inductive Node where
  | down (d : Disk)
  | up (s : Store)

/-- A crash comes after some effects of the call and keeps a part of what was not synced. -/
inductive NodeEvent where
  | start
  | startCrash (effects : Nat) (bytes : Nat → Nat) (writes : Nat)
  | add (b : Block) (indexFails : Bool)
  | addCrash (b : Block) (indexFails : Bool) (steps : Nat) (bytes : Nat → Nat) (writes : Nat)
  | crash (bytes : Nat → Nat) (writes : Nat)

/-- The process is gone and all that was written is there. -/
def Disk.exit (d : Disk) : Disk :=
  d.crash (fun i => (d.files[i]?).elim 0 (·.entries.length)) d.db.entries.length

def Node.step (conf : StoreConf) : Node → NodeEvent → Node
  | .down d, .start =>
    match newBlockfileMgr conf d with
    | (effects, .ok mgr) => .up ⟨effects.foldl Disk.apply d, mgr⟩
    | (effects, .error _) => .down (effects.foldl Disk.apply d).exit
  | .down d, .startCrash k bytes writes =>
    .down ((((newBlockfileMgr conf d).1.take k).foldl Disk.apply d).crash bytes writes)
  | .up s, .add b indexFails =>
    match addBlock conf s.mgr b indexFails with
    | (steps, .error (.panic _)) => .down (s.applyAll steps).disk.exit
    | (steps, _) => .up (s.applyAll steps)
  | .up s, .addCrash b indexFails k bytes writes =>
    .down ((s.applyAll ((addBlock conf s.mgr b indexFails).1.take k)).disk.crash bytes writes)
  | .up s, .crash bytes writes => .down (s.disk.crash bytes writes)
  | n, _ => n

def Node.run (conf : StoreConf) (es : List NodeEvent) : Node :=
  es.foldl (Node.step conf) (.down .empty)

/-- The blocks added: those returned for, and possibly one that was accepted before a crash. -/
def Adds (conf : StoreConf) : Node → NodeEvent → List Block → List Block → Prop
  | .up s, .add b indexFails, c, c' =>
    c' = if (addBlock conf s.mgr b indexFails).2 = .ok () then c ++ [b] else c
  | .up s, .addCrash b indexFails _ _ _, c, c' =>
    c' = c ∨ (addBlock conf s.mgr b indexFails).2 = .ok () ∧ c' = c ++ [b]
  | _, _, c, c' => c' = c

inductive History (conf : StoreConf) : List NodeEvent → List Block → Prop
  | nil : History conf [] []
  | snoc {es c e c'} : History conf es c → Adds conf (Node.run conf es) e c c' →
      History conf (es ++ [e]) c'

/-- If serialised, it takes fewer than `2 ^ 56` bytes, every transaction has a flag, no TxID makes
the checkpoint's key, and a first block fits into a file. -/
def Storable (conf : StoreConf) (b : Block) : Prop :=
  ∀ bytes txOffsets, serializeBlock b = .ok (bytes, txOffsets) → bytes.length < 2 ^ 56 ∧
    (∃ flags, b.metadataAt transactionsFilter = .ok flags ∧ txOffsets.length ≤ flags.length) ∧
    (∀ t ∈ txOffsets, t.txId ≠ clashingTxId) ∧
    (b.header.number = 0 → (encodeRawBytes bytes).length ≤ conf.maxBlockfileSize)

section AddBlock

variable {conf : StoreConf} {s : Store} {l : Shape} {b : Block}

theorem Shape.last_eq_nil (h : l.placed = []) : l.last = [] := by
  have hstored := congrArg (map Placed.stored) l.placed_eq
  rw [h, map_append, stored_placeIn] at hstored
  exact (append_eq_nil_iff.mp hstored.symm).2

/-- A block is refused before anything is done, or all its steps are taken. -/
theorem Running.addBlock_cases (hattrs : conf.attrs = .all) (h : Running conf s l)
    (hb : Storable conf b) :
    ((b.header.number ≠ ofNat l.placed.length ∨ ∃ e, serializeBlock b = .error e) ∧
      ∀ indexFails, ∃ f, addBlock conf s.mgr b indexFails = ([], .error f)) ∨
      ∃ sb : StoredBlock, sb.block = b ∧ sb.block.header.number = ofNat l.placed.length ∧
        (Rolls conf l.checkpoint sb.bytes → l.placed ≠ []) ∧
        ∀ indexFails, addBlock conf s.mgr b indexFails =
          (addSteps conf l sb indexFails, .ok ()) := by
  have hheight : s.mgr.bcInfo.height = ofNat l.placed.length := by
    rw [h.mgr, Shape.mgr, height_infoOf, l.chain_eq, length_map]
  by_cases hnum : b.header.number = ofNat l.placed.length
  · cases hser : serializeBlock b with
    | error e =>
      refine .inl ⟨.inr ⟨e, rfl⟩, fun indexFails =>
        ⟨wrapError "Error while serializing block: " e, ?_⟩⟩
      rw [addBlock, if_neg (fun hne => hne (hnum.trans hheight.symm)), hser]
    | ok r =>
      obtain ⟨bytes, txOffsets⟩ := r
      obtain ⟨hshort, ⟨flags, hflags, hflagged⟩, hapart, hfits⟩ := hb bytes txOffsets hser
      have hfirst : Rolls conf l.checkpoint bytes → l.placed ≠ [] := by
        intro hroll hnil
        have hzero : b.header.number = 0 := by
          rw [hnum, hnil]
          rfl
        have hle := hfits hzero
        have hlast := last_eq_nil hnil
        have hroll : conf.maxBlockfileSize < (contentOf l.last).length +
            (bytes.length + (encodeVarint bytes.length).length) := hroll
        rw [hlast] at hroll
        rw [encodeRawBytes, length_append] at hle
        simp only [contentOf, flatMap_nil, length_nil] at hroll
        omega
      refine .inr ⟨⟨b, bytes, txOffsets, flags, hser, hshort, hflags, hflagged, hapart⟩, rfl, hnum,
        hfirst, fun indexFails => ?_⟩
      rw [h.mgr]
      exact addBlock_eq (b := ⟨b, bytes, txOffsets, flags, hser, hshort, hflags, hflagged, hapart⟩)
        hattrs hnum hfirst indexFails
  · refine .inl ⟨.inl hnum, fun indexFails => ⟨.error (.text (str "Block number should have been " ++
      formatNat s.mgr.bcInfo.height.toNat ++ str " but was " ++ formatNat b.header.number.toNat)),
      ?_⟩⟩
    rw [addBlock, if_pos (fun heq => hnum (heq.trans hheight))]
    rfl

end AddBlock

/-! ## The invariant of a run -/

/-- The numbers of files and of blocks are at most those of the events. -/
structure Shape.Within (l : Shape) (k : Nat) : Prop where
  files : l.before.length ≤ k
  blocks : l.placed.length ≤ k

def NodeOk (conf : StoreConf) (k : Nat) : Node → List Block → Prop
  | .down d, c => (d = .empty ∧ c = []) ∨
      ∃ l t, Crashed conf.hash d l t ∧ l.chain = c ∧ l.Valid ∧ l.Within k
  | .up s, c => ∃ l, Running conf s l ∧ l.chain = c ∧ l.Valid ∧ l.Within k

section Invariant

variable {conf : StoreConf} {d : Disk} {l : Shape} {b : StoredBlock} {k : Nat}

theorem Shape.Within.small (h : l.Within k) (hk : k < 2 ^ 63) : l.Small :=
  ⟨lt_of_le_of_lt h.files hk, lt_of_le_of_lt h.blocks hk⟩

theorem Shape.Within.succ (h : l.Within k) : l.Within (k + 1) :=
  ⟨le_succ_of_le h.files, le_succ_of_le h.blocks⟩

theorem Shape.Within.room (h : l.Within k) : (l.room conf b).Within (k + 1) := by
  constructor
  · exact le_trans (l.length_room b) (succ_le_succ h.files)
  · rw [placed_room]
    exact le_succ_of_le h.blocks

theorem Shape.Within.room_push (h : l.Within k) : ((l.room conf b).push b).Within (k + 1) := by
  constructor
  · exact le_trans (l.length_room b) (succ_le_succ h.files)
  · rw [placed_push, length_append, placed_room]
    exact succ_le_succ h.blocks

theorem newMgr_empty (conf : StoreConf) :
    let first : DiskEffect := .write (putBatch blkMgrInfoKey newCpInfo.marshal) true
    newBlockfileMgr conf .empty = (first :: (newBlockfileMgr conf (empty.apply first)).1,
        (newBlockfileMgr conf (empty.apply first)).2) ∧
      Crashed conf.hash (empty.apply first) ⟨[], []⟩ [] := by
  intro first
  have hnone : loadCurrentInfo empty.levelDb = .ok none := by
    rw [loadCurrentInfo, show empty.levelDb = (∅ : LevelDb) from rfl]
    simp
  have hkey : (empty.apply first).levelDb[blkMgrInfoKey]? = some newCpInfo.marshal := by
    rw [levelDb_write, getElem?_put, if_pos rfl]
  have hsome : loadCurrentInfo (empty.apply first).levelDb = .ok (some newCpInfo) := by rfl
  constructor
  · have hopen : openWriter .empty = .ok (newCpInfo, [first, .openFile 0, .truncate 0 0]) := by rfl
    have hopen' : openWriter (empty.apply first) =
        .ok (newCpInfo, [.openFile 0, .truncate 0 0]) := by
      rfl
    rw [newBlockfileMgr, newBlockfileMgr, hopen, hopen']
    dsimp only [foldl_cons]
    split <;> rfl
  · refine ⟨fun _ h => absurd h not_mem_nil, rfl, ⟨by simp, rfl, fun f _ => rfl⟩, torn_nil,
      ⟨[], [], rfl, hkey⟩, 0, zero_le _, ?_⟩
    exact indexOk_empty.put _

theorem NodeOk.of_recoverable {P : Shape → Prop} {c : List Block} (h : Recoverable conf.hash P d)
    (hP : ∀ l, P l → l.chain = c ∧ l.Valid ∧ l.Within k) (bytes : Nat → Nat) (writes : Nat) :
    NodeOk conf k (.down (d.crash bytes writes)) c := by
  obtain ⟨l, t, hc, hl⟩ := h bytes writes
  obtain ⟨hchain, hv, hw⟩ := hP l hl
  exact .inr ⟨l, t, hc, hchain, hv, hw⟩

theorem Disk.crash_empty (bytes : Nat → Nat) (writes : Nat) :
    Disk.empty.crash bytes writes = .empty := by
  simp [crash, empty, CrashLog.crash, CrashLog.truncate, CrashLog.empty]

/-- The next start of a stopped peer, and a crash in it. -/
theorem NodeOk.starts (hattrs : conf.attrs = .all) {c : List Block}
    (h : NodeOk conf k (.down d) c) (hk : k < 2 ^ 63) :
    ∃ l effects, newBlockfileMgr conf d = (effects, .ok (l.mgr conf.hash)) ∧
      Running conf ⟨effects.foldl Disk.apply d, l.mgr conf.hash⟩ l ∧ l.chain = c ∧ l.Valid ∧
      l.Within k ∧ ∀ j bytes writes,
        NodeOk conf k (.down (((effects.take j).foldl Disk.apply d).crash bytes writes)) c := by
  obtain ⟨rfl, rfl⟩ | ⟨l, t, hc, hchain, hv, hw⟩ := h
  · have hv : Shape.Valid ⟨[], []⟩ := by
      refine ⟨nofun, fun bs hbs => ?_⟩
      rw [mem_singleton.mp hbs]
      exact Nat.two_pow_pos 63
    have hw : Shape.Within ⟨[], []⟩ k := ⟨zero_le _, zero_le _⟩
    obtain ⟨hnew, hc⟩ := newMgr_empty conf
    obtain ⟨effects, heff, hrun, hcut⟩ := newMgr_crashed hattrs hc hv (hw.small hk)
    rw [heff] at hnew
    refine ⟨⟨[], []⟩, _, hnew, hrun, rfl, hv, hw, fun j bytes writes => ?_⟩
    cases j with
    | zero => exact .inl ⟨crash_empty bytes writes, rfl⟩
    | succ j =>
      refine NodeOk.of_recoverable (hcut j) (fun l hl => ?_) bytes writes
      subst hl
      exact ⟨rfl, hv, hw⟩
  · obtain ⟨effects, heff, hrun, hcut⟩ := newMgr_crashed hattrs hc hv (hw.small hk)
    refine ⟨l, effects, heff, hrun, hchain, hv, hw, fun j bytes writes => ?_⟩
    refine NodeOk.of_recoverable (hcut j) (fun l' hl => ?_) bytes writes
    subst hl
    exact ⟨hchain, hv, hw⟩

def NodeEvent.Storable (conf : StoreConf) : NodeEvent → Prop
  | .add b _ => BlockStore.Storable conf b
  | .addCrash b _ _ _ _ => BlockStore.Storable conf b
  | _ => True

/-- A block is accepted and the write of its index entries fails. -/
def LosesIndex (conf : StoreConf) (n : Node) (e : NodeEvent) : Prop :=
  ∃ s b, n = .up s ∧ e = .add b true ∧ (addBlock conf s.mgr b true).2 = .ok ()

variable {n : Node}

theorem NodeOk.mono {c : List Block} (h : NodeOk conf k n c) : NodeOk conf (k + 1) n c := by
  cases n with
  | down d => exact h.imp_right fun ⟨l, t, hc, hchain, hv, hw⟩ => ⟨l, t, hc, hchain, hv, hw.succ⟩
  | up s =>
    obtain ⟨l, hrun, hchain, hv, hw⟩ := h
    exact ⟨l, hrun, hchain, hv, hw.succ⟩

variable {s : Store} {c : List Block} {blk : Block}

theorem NodeOk.accept {sb : StoredBlock} (hmax : conf.maxBlockfileSize < 2 ^ 63)
    (hrun : Running conf s l) (hv : l.Valid) (hw : l.Within k)
    (hnum : sb.block.header.number = ofNat l.placed.length)
    (hfirst : Rolls conf l.checkpoint sb.bytes → l.placed ≠ []) :
    NodeOk conf (k + 1) (.up (s.applyAll (addSteps conf l sb false))) (l.chain ++ [sb.block]) := by
  refine ⟨(l.room conf sb).push sb, hrun.added sb hfirst, ?_, (hv.room_push hmax hnum).2,
    hw.room_push⟩
  rw [chain_push, chain_room]

variable (hattrs : conf.attrs = .all) (hmax : conf.maxBlockfileSize < 2 ^ 63)
include hattrs hmax

theorem NodeOk.add (h : NodeOk conf k (.up s) c) (hb : Storable conf blk) (indexFails : Bool)
    (hidx : ¬ LosesIndex conf (.up s) (.add blk indexFails)) :
    ∃ c', Adds conf (.up s) (.add blk indexFails) c c' ∧
      NodeOk conf (k + 1) (Node.step conf (.up s) (.add blk indexFails)) c' := by
  obtain ⟨l, hrun, rfl, hv, hw⟩ := h
  rw [Node.step]
  obtain ⟨-, hno⟩ | ⟨sb, rfl, hnum, hfirst, hadd⟩ := hrun.addBlock_cases hattrs hb
  · obtain ⟨f, hf⟩ := hno indexFails
    refine ⟨l.chain, ?_, ?_⟩
    · show _ = if _ then _ else _
      rw [hf, if_neg nofun]
    · rw [hf]
      cases f with
      | error e => exact ⟨l, hrun, rfl, hv, hw.succ⟩
      | panic p =>
        refine NodeOk.of_recoverable hrun.idle.recoverable (fun l' hl => ?_) _ _
        subst hl
        exact ⟨rfl, hv, hw.succ⟩
  · have hadd := hadd indexFails
    have hfalse : indexFails = false := by
      cases indexFails with
      | false => rfl
      | true => exact absurd ⟨s, sb.block, rfl, rfl, by rw [hadd]⟩ hidx
    subst hfalse
    refine ⟨l.chain ++ [sb.block], ?_, ?_⟩
    · show _ = if _ then _ else _
      rw [hadd, if_pos rfl]
    · rw [hadd]
      exact NodeOk.accept hmax hrun hv hw hnum hfirst

theorem NodeOk.addCrash (h : NodeOk conf k (.up s) c) (hb : Storable conf blk) (indexFails : Bool)
    (j : Nat) (bytes : Nat → Nat) (writes : Nat) :
    ∃ c', Adds conf (.up s) (.addCrash blk indexFails j bytes writes) c c' ∧
      NodeOk conf (k + 1) (Node.step conf (.up s) (.addCrash blk indexFails j bytes writes)) c' := by
  obtain ⟨l, hrun, rfl, hv, hw⟩ := h
  rw [Node.step]
  obtain ⟨-, hno⟩ | ⟨sb, rfl, hnum, hfirst, hadd⟩ := hrun.addBlock_cases hattrs hb
  · obtain ⟨f, hf⟩ := hno indexFails
    refine ⟨l.chain, .inl rfl, ?_⟩
    rw [hf, take_nil]
    refine NodeOk.of_recoverable hrun.idle.recoverable (fun l' hl => ?_) _ _
    subst hl
    exact ⟨rfl, hv, hw.succ⟩
  · obtain ⟨hvroom, hvpush⟩ := hv.room_push hmax hnum
    rw [hadd indexFails]
    obtain ⟨l', t, hc, hl⟩ := hrun.recoverable_added sb hfirst indexFails j bytes writes
    obtain rfl | rfl | rfl := hl
    · exact ⟨l'.chain, .inl rfl, .inr ⟨l', t, hc, rfl, hv, hw.succ⟩⟩
    · exact ⟨l.chain, .inl rfl, .inr ⟨_, t, hc, l.chain_room sb, hvroom, hw.room⟩⟩
    · refine ⟨l.chain ++ [sb.block], .inr ⟨by rw [hadd], rfl⟩,
        .inr ⟨_, t, hc, ?_, hvpush, hw.room_push⟩⟩
      rw [chain_push, chain_room]

theorem NodeOk.step {e : NodeEvent} (h : NodeOk conf k n c) (hk : k < 2 ^ 63)
    (he : e.Storable conf) (hidx : ¬ LosesIndex conf n e) :
    ∃ c', Adds conf n e c c' ∧ NodeOk conf (k + 1) (n.step conf e) c' := by
  cases n with
  | down d =>
    cases e with
    | start =>
      obtain ⟨l, effects, hnew, hrun, hchain, hv, hw, -⟩ := h.starts hattrs hk
      refine ⟨c, rfl, ?_⟩
      rw [Node.step, hnew]
      exact ⟨l, hrun, hchain, hv, hw.succ⟩
    | startCrash j bytes writes =>
      obtain ⟨l, effects, hnew, -, -, -, -, hcut⟩ := h.starts hattrs hk
      refine ⟨c, rfl, ?_⟩
      rw [Node.step, hnew]
      exact (hcut j bytes writes).mono
    | add b indexFails | addCrash b indexFails j bytes writes => exact ⟨c, rfl, h.mono⟩
    | crash bytes writes => exact ⟨c, rfl, h.mono⟩
  | up s =>
    cases e with
    | start | startCrash j bytes writes => exact ⟨c, rfl, h.mono⟩
    | add b indexFails => exact h.add hattrs hmax he indexFails hidx
    | addCrash b indexFails j bytes writes =>
      exact h.addCrash hattrs hmax he indexFails j bytes writes
    | crash bytes writes =>
      obtain ⟨l, hrun, hchain, hv, hw⟩ := h
      refine ⟨c, rfl, NodeOk.of_recoverable hrun.idle.recoverable (fun l' hl => ?_) _ _⟩
      subst hl
      exact ⟨hchain, hv, hw.succ⟩

end Invariant

/-! ## What a store serves -/

def frameOf (b : Block) : Bytes :=
  match serializeBlock b with
  | .ok (bytes, _) => encodeRawBytes bytes
  | .error _ => []

/-- The files hold the blocks only, height and getters tell them, and the next block is accepted. Of
a repeated hash or TxID the last occurrence counts. -/
structure Serves (conf : StoreConf) (s : Store) (chain : List Block) : Prop where
  files : s.disk.contents.flatten = chain.flatMap frameOf
  short : chain.length < 2 ^ 63
  height : s.mgr.bcInfo.height = ofNat chain.length
  byNumber : ∀ (i : Nat) b, chain[i]? = some b → s.retrieveBlockByNumber conf (ofNat i) = .ok b
  byHash : ∀ h, s.retrieveBlockByHash conf h = found (blockWithHash conf.hash chain h) .ok
  byTxId : ∀ id, s.retrieveTransactionById conf id =
    found (envelopeWithId chain id) getEnvelopeFromBlock
  byNumbers : ∀ (i j : Nat) b d, chain[i]? = some b → b.data[j]? = some d →
    s.retrieveTransactionByBlockNumTranNum conf (ofNat i) (ofNat j) = getEnvelopeFromBlock d
  next : ∀ b r, Storable conf b → b.header.number = ofNat chain.length →
    serializeBlock b = .ok r → (addBlock conf s.mgr b false).2 = .ok ()

/-- A running peer serves the blocks. A stopped one has at most a part of a block behind them, and
serves them after its next start. -/
def Recovers (conf : StoreConf) : Node → List Block → Prop
  | .up s, c => Serves conf s c
  | .down d, c => ∃ t, Torn t ∧ d.contents.flatten = c.flatMap frameOf ++ t ∧
      ∃ effects mgr, newBlockfileMgr conf d = (effects, .ok mgr) ∧
        Serves conf ⟨effects.foldl Disk.apply d, mgr⟩ c

section Serves

variable {conf : StoreConf} {d : Disk} {s : Store} {l : Shape} {k : Nat} {c : List Block}

theorem frameOf_chain (l : Shape) : l.chain.flatMap frameOf = contentOf l.layout.flatten := by
  rw [chain, Layout.chain, flatMap_map, contentOf]
  refine flatMap_congr fun b _ => ?_
  rw [frameOf, b.serialized]
  rfl

theorem FilesOk.flatten {files : List Bytes} {t : Bytes} (h : FilesOk files l t) :
    files.flatten = contentOf l.layout.flatten ++ t := by
  have hbefore : files.take l.before.length = l.before.map contentOf := by
    refine ext_getElem? fun i => ?_
    rw [getElem?_take, getElem?_map]
    split
    · rename_i hlt
      rw [h.before i _ (getElem?_eq_getElem hlt), getElem?_eq_getElem hlt]
      rfl
    · rw [getElem?_eq_none (by omega)]
      rfl
  have hrest : (files.drop (l.before.length + 1)).flatten = [] := by
    refine flatten_eq_nil_iff.mpr fun f hf => ?_
    obtain ⟨i, hi⟩ := mem_iff_getElem?.mp hf
    rw [getElem?_drop] at hi
    have := h.rest (l.before.length + 1 + i) (by omega)
    rwa [hi] at this
  have hlast : (files.drop l.before.length).flatten = contentOf l.last ++ t := by
    have hl := h.last
    cases hf : files[l.before.length]? with
    | none =>
      rw [hf] at hl
      rw [drop_eq_nil_of_le (getElem?_eq_none_iff.mp hf), ← hl]
      rfl
    | some f =>
      obtain ⟨hlt, rfl⟩ := List.getElem?_eq_some_iff.mp hf
      rw [hf] at hl
      rw [drop_eq_getElem_cons hlt, flatten_cons, hrest, append_nil]
      exact hl
  have hsplit := congrArg List.flatten (List.take_append_drop l.before.length files)
  rw [flatten_append, hbefore, hlast, flatten_contents] at hsplit
  rw [← hsplit, layout, flatten_append, contentOf_append, append_assoc]
  simp

theorem Running.serves (hattrs : conf.attrs = .all) (h : Running conf s l) (hv : l.Valid)
    (hs : l.Small) : Serves conf s l.chain := by
  have hlen : l.chain.length = l.placed.length := by rw [l.chain_eq, length_map]
  have hi := h.indexed hv hs
  have hshort : l.chain.length < 2 ^ 63 := hlen ▸ hs.blocks
  refine ⟨?_, hshort, ?_, fun i b hb => ?_, fun x => ?_, fun id => ?_, fun i j b d hb hd => ?_,
    fun b r hb hnum hser => ?_⟩
  · rw [h.idle.files.flatten, append_nil, frameOf_chain]
  · rw [h.mgr]
    exact height_infoOf _ _
  · have hlt := lt_length hb
    have hne : ofNat i ≠ ofNat (2 ^ 64 - 1) := by
      intro heq
      have := ofNat_inj (by omega) (by omega) heq
      omega
    rw [Store.retrieveBlockByNumber, hattrs, if_neg hne]
    exact fetch_by_number hi hb
  · rw [Store.retrieveBlockByHash, hattrs]
    exact fetch_by_hash hi x
  · rw [Store.retrieveTransactionById, hattrs]
    exact fetch_transaction_by_id hi id
  · rw [Store.retrieveTransactionByBlockNumTranNum, hattrs]
    exact fetch_by_numbers hi hb hd
  · rw [hlen] at hnum
    obtain ⟨hno | ⟨e, he⟩, -⟩ | ⟨sb, -, -, -, hadd⟩ := h.addBlock_cases hattrs hb
    · exact absurd hnum hno
    · rw [he] at hser
      cases hser
    · rw [hadd]

theorem NodeOk.recovers (hattrs : conf.attrs = .all) (h : NodeOk conf k n c) (hk : k < 2 ^ 63) :
    Recovers conf n c := by
  cases n with
  | up s =>
    obtain ⟨l, hrun, rfl, hv, hw⟩ := h
    exact hrun.serves hattrs hv (hw.small hk)
  | down d =>
    obtain ⟨t, ht, hflat⟩ : ∃ t, Torn t ∧ d.contents.flatten = c.flatMap frameOf ++ t := by
      obtain ⟨rfl, rfl⟩ | ⟨l, t, hc, rfl, -⟩ := h
      · exact ⟨[], torn_nil, rfl⟩
      · exact ⟨t, hc.torn, by rw [hc.files.flatten, frameOf_chain]⟩
    obtain ⟨l, effects, hnew, hrun, rfl, hv, hw, -⟩ := h.starts hattrs hk
    exact ⟨t, ht, hflat, effects, _, hnew, hrun.serves hattrs hv (hw.small hk)⟩

/-- The blocks of every run are there, if no accepted block loses its index entries. -/
theorem NodeOk.run (hattrs : conf.attrs = .all) (hmax : conf.maxBlockfileSize < 2 ^ 63)
    (es : List NodeEvent) (hlen : es.length < 2 ^ 63) (hes : ∀ e ∈ es, e.Storable conf)
    (hidx : ∀ pre e post, es = pre ++ e :: post → ¬ LosesIndex conf (Node.run conf pre) e) :
    ∃ c, History conf es c ∧ NodeOk conf es.length (Node.run conf es) c := by
  induction es using reverseRecOn with
  | nil => exact ⟨[], .nil, .inl ⟨rfl, rfl⟩⟩
  | append_singleton es e ih =>
    rw [length_append] at hlen
    obtain ⟨c, hhist, hok⟩ := ih (lt_of_succ_lt hlen) (fun x hx => hes x (mem_append_left _ hx))
      (fun pre x post hsplit => hidx pre x (post ++ [e]) (by rw [hsplit, append_assoc]; rfl))
    obtain ⟨c', hadds, hok'⟩ := hok.step hattrs hmax (lt_of_succ_lt hlen)
      (hes e (mem_append_right _ mem_cons_self)) (hidx es e [] rfl)
    refine ⟨c', .snoc hhist hadds, ?_⟩
    rw [length_append, Node.run, foldl_append]
    exact hok'

theorem not_losesIndex {es : List NodeEvent} (hwrites : ∀ b, .add b true ∉ es) (pre : List NodeEvent)
    (e : NodeEvent) (post : List NodeEvent) (hsplit : es = pre ++ e :: post) :
    ¬ LosesIndex conf (Node.run conf pre) e := by
  intro hloses
  obtain ⟨s, b, -, rfl, -⟩ := hloses
  exact hwrites b (by rw [hsplit]; exact mem_append_right _ mem_cons_self)

/-- Whatever was added and wherever the process was gone, a restart finds the whole blocks of
the files, cuts off what is behind them, serves them and goes on, if all blocks can be stored. -/
theorem restart_serves_chain (hattrs : conf.attrs = .all) (hmax : conf.maxBlockfileSize < 2 ^ 63)
    (es : List NodeEvent) (hlen : es.length < 2 ^ 63) (hes : ∀ e ∈ es, e.Storable conf)
    (hwrites : ∀ b, .add b true ∉ es) :
    ∃ c, History conf es c ∧ Recovers conf (Node.run conf es) c := by
  obtain ⟨c, hhist, hok⟩ := NodeOk.run hattrs hmax es hlen hes (not_losesIndex hwrites)
  exact ⟨c, hhist, hok.recovers hattrs hlen⟩

end Serves

/-- A peer with files of 60 bytes; the hash of a header is its number. -/
def smallConf : StoreConf := ⟨60, .all, fun h => encodeVarint h.number.toNat⟩

def blockOf (number : UInt64) (txIds : List GoString) (flag : UInt8) : Block :=
  ⟨⟨number, [], []⟩, txIds.map bareEnvelope, some [[], [], txIds.map fun _ => flag, []]⟩

theorem storable_of_ok {conf : StoreConf} {b : Block} {bytes : Bytes}
    {txOffsets : List TxIndexInfo} {flags : TxFlags}
    (hser : serializeBlock b = .ok (bytes, txOffsets)) (hshort : bytes.length < 2 ^ 56)
    (hflags : b.metadataAt transactionsFilter = .ok flags)
    (hflagged : txOffsets.length ≤ flags.length) (hapart : ∀ t ∈ txOffsets, t.txId ≠ clashingTxId)
    (hfirst : b.header.number = 0 → (encodeRawBytes bytes).length ≤ conf.maxBlockfileSize) :
    Storable conf b := by
  intro bytes' txOffsets' h
  rw [hser] at h
  cases h
  exact ⟨hshort, ⟨flags, hflags, hflagged⟩, hapart, hfirst⟩

/-- Block 1 does not fit into the first file and is cut with the length and some bytes in the
second; after the restart it is added again. -/
theorem restart_serves_two_files :
    ∃ c, History smallConf [.start, .add (blockOf 0 [str "t0", str "t1"] 0) false,
        .addCrash (blockOf 1 [str "t2", str "t3"] 0) false 5 (fun _ => 9) 4, .start,
        .add (blockOf 1 [str "t2", str "t3"] 0) false] c ∧
      Recovers smallConf (Node.run smallConf [.start, .add (blockOf 0 [str "t0", str "t1"] 0) false,
        .addCrash (blockOf 1 [str "t2", str "t3"] 0) false 5 (fun _ => 9) 4, .start,
        .add (blockOf 1 [str "t2", str "t3"] 0) false]) c := by
  have h0 : Storable smallConf (blockOf 0 [str "t0", str "t1"] 0) :=
    storable_of_ok rfl (by decide) rfl (by decide) (by decide) (by decide)
  have h1 : Storable smallConf (blockOf 1 [str "t2", str "t3"] 0) :=
    storable_of_ok rfl (by decide) rfl (by decide) (by decide) (by decide)
  refine restart_serves_chain rfl (by decide) _ (by decide) ?_ (by simp)
  simp only [forall_mem_cons, NodeEvent.Storable]
  exact ⟨trivial, h0, h1, trivial, h1, nofun⟩

def Node.restart (conf : StoreConf) : Node → Result BlockfileMgr
  | .down d => (newBlockfileMgr conf d).2
  | .up s => .ok s.mgr

/-- A block with the TxID that makes the key of the checkpoint is added, and the peer never starts
again. -/
theorem restart_panics_on_overwritten_checkpoint :
    (Node.run smallConf [.start, .add (blockOf 0 [clashingTxId] 0) false,
        .crash (fun _ => 1000) 1000]).restart smallConf =
      Result.panicWith (.explicit (str "Could not get block file info")) := by
  decide +kernel

end FabricOev.BlockStore
