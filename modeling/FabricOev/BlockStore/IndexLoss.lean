import FabricOev.BlockStore.TxFinality

/-!
# Index writes that fail

`addBlock` does not look at the error of `indexBlock`. A block whose index entries could not be
written is accepted like any other, and the next block moves the index checkpoint past it, so
that no restart repairs the hole. Nothing is lost exactly if no write for an accepted block fails.
-/

namespace FabricOev.BlockStore

open Go Go.Wire Protos Ledger Lib FinMap List Result UInt64 Nat Prod

section Stays

variable {conf : StoreConf} {n : Node} {e : NodeEvent} {c c' : List Block} {k : Nat}

theorem Adds.isPrefix (h : Adds conf n e c c') : c <+: c' := by
  have hsame : c' = c → c <+: c' := fun heq => heq ▸ prefix_rfl
  cases n with
  | down d => cases e <;> exact hsame h
  | up s =>
    cases e with
    | start | startCrash j bytes writes | crash bytes writes => exact hsame h
    | add b indexFails =>
      have h : c' = if _ then _ else _ := h
      rw [h]
      split
      · exact prefix_append _ _
      · exact prefix_rfl
    | addCrash b indexFails j bytes writes =>
      obtain heq | ⟨-, rfl⟩ := h
      · exact hsame heq
      · exact prefix_append _ _

/-- Whatever comes, the blocks that are there stay. -/
theorem NodeOk.foldl (hattrs : conf.attrs = .all) (hmax : conf.maxBlockfileSize < 2 ^ 63)
    (es : List NodeEvent) (h : NodeOk conf k n c) (hk : k + es.length < 2 ^ 63)
    (hes : ∀ e ∈ es, e.Storable conf)
    (hidx : ∀ pre e post, es = pre ++ e :: post →
      ¬ LosesIndex conf (pre.foldl (Node.step conf) n) e) :
    ∃ c', c <+: c' ∧ NodeOk conf (k + es.length) (es.foldl (Node.step conf) n) c' := by
  induction es generalizing n c k with
  | nil => exact ⟨c, prefix_rfl, h⟩
  | cons e es ih =>
    rw [length_cons] at hk
    obtain ⟨c1, hadds, hok⟩ := h.step hattrs hmax (by omega) (hes e mem_cons_self)
      (hidx [] e es rfl)
    obtain ⟨c2, hle, hok'⟩ := ih hok (by omega) (fun x hx => hes x (mem_cons_of_mem _ hx))
      fun pre x post hsplit => hidx (e :: pre) x post (by rw [hsplit, cons_append])
    refine ⟨c2, hadds.isPrefix.trans hle, ?_⟩
    rw [length_cons, show k + (es.length + 1) = k + 1 + es.length by omega]
    exact hok'

end Stays

/-- The block is found by its number, and by its hash and TxIDs it or a later one. -/
structure Retrievable (conf : StoreConf) (s : Store) (b : Block) : Prop where
  byNumber : s.retrieveBlockByNumber conf b.header.number = .ok b
  byHash : ∃ b', s.retrieveBlockByHash conf (conf.hash b.header) = .ok b' ∧
    conf.hash b'.header = conf.hash b.header
  byTxId : ∀ d ∈ b.data, ∃ d', txIdOf d' = txIdOf d ∧
    s.retrieveTransactionById conf (txIdOf d) = getEnvelopeFromBlock d'
  blockByTxId : ∀ d ∈ b.data, ∃ b', Occurs (txIdOf d) b' ∧
    s.retrieveBlockByTxId conf (txIdOf d) = .ok b'

section Retrieve

variable {conf : StoreConf} {s : Store} {l : Shape} {b : Block}

theorem lastOf_isSome {κ β : Type} [DecidableEq κ] {es : List (κ × β)} {k : κ} {v : β}
    (h : (k, v) ∈ es) : ∃ v', lastOf es k = some v' ∧ (k, v') ∈ es := by
  cases hlast : lastOf es k with
  | none => exact absurd rfl (lastOf_eq_none_iff.mp hlast _ h)
  | some v' => exact ⟨v', rfl, mem_of_lastOf_eq_some hlast⟩

theorem lookups_of_occurs {chain : List Block} {id : GoString} (hb : b ∈ chain) (h : Occurs id b) :
    (∃ d, envelopeWithId chain id = some d ∧ txIdOf d = id) ∧
      ∃ b', blockWithId chain id = some b' ∧ Occurs id b' := by
  obtain ⟨d, hd, rfl⟩ := h
  constructor
  · have hin : (txIdOf d, d) ∈ chain.flatMap fun b => b.data.map fun d => (txIdOf d, d) :=
      mem_flatMap.mpr ⟨b, hb, mem_map_of_mem hd⟩
    obtain ⟨d', hlast, hmem⟩ := lastOf_isSome hin
    obtain ⟨b', -, hmem⟩ := mem_flatMap.mp hmem
    obtain ⟨x, -, hx⟩ := mem_map.mp hmem
    obtain ⟨hid, rfl⟩ := mk.inj hx
    exact ⟨x, hlast, hid⟩
  · have hin : (txIdOf d, b) ∈ chain.flatMap fun b => b.data.map fun d => (txIdOf d, b) :=
      mem_flatMap.mpr ⟨b, hb, mem_map.mpr ⟨d, hd, rfl⟩⟩
    obtain ⟨b', hlast, hmem⟩ := lastOf_isSome hin
    obtain ⟨y, -, hmem⟩ := mem_flatMap.mp hmem
    obtain ⟨x, hxmem, hx⟩ := mem_map.mp hmem
    obtain ⟨hid, rfl⟩ := mk.inj hx
    exact ⟨y, hlast, x, hxmem, hid⟩

theorem Running.retrievable (hattrs : conf.attrs = .all) (h : Running conf s l) (hv : l.Valid)
    (hs : l.Small) (hb : b ∈ l.chain) : Retrievable conf s b := by
  have hserves := h.serves hattrs hv hs
  refine ⟨?_, ?_, fun d hd => ?_, fun d hd => ?_⟩
  · obtain ⟨i, hget⟩ := mem_iff_getElem?.mp hb
    have hnum : b.header.number = ofNat i := by
      rw [l.chain_eq, getElem?_map] at hget
      obtain ⟨q, hq, rfl⟩ := Option.map_eq_some_iff.mp hget
      exact hv.numbered i q hq
    rw [hnum]
    exact hserves.byNumber i b hget
  · have hin : (conf.hash b.header, b) ∈ l.chain.map fun b => (conf.hash b.header, b) :=
      mem_map_of_mem hb
    obtain ⟨b', hlast, hmem⟩ := lastOf_isSome hin
    obtain ⟨x, -, hx⟩ := mem_map.mp hmem
    obtain ⟨hhash, rfl⟩ := mk.inj hx
    refine ⟨x, ?_, hhash⟩
    rw [hserves.byHash, blockWithHash, hlast]
    rfl
  · obtain ⟨⟨d', hlast, hid⟩, -⟩ := lookups_of_occurs hb ⟨d, hd, rfl⟩
    refine ⟨d', hid, ?_⟩
    rw [hserves.byTxId, hlast]
    rfl
  · obtain ⟨-, b', hlast, hocc⟩ := lookups_of_occurs hb ⟨d, hd, rfl⟩
    refine ⟨b', hocc, ?_⟩
    have hne : txIdOf d ≠ clashingTxId := by
      obtain ⟨p, -, rfl⟩ := mem_map.mp hb
      exact txIdOf_ne_clashing hd
    rw [Store.retrieveBlockByTxId, hattrs]
    exact (fetch_block_by_id (h.indexed hv hs) hne).trans (by
      rw [show l.layout.chain = l.chain from rfl, hlast]; rfl)

theorem blockLocByNum_error {hash : BlockHeader → Bytes} {db : LevelDb}
    {ps : List Placed} (hidx : IndexOk hash db ps) {num : UInt64}
    (hnum : ∀ p ∈ ps, p.number ≠ num) :
    getBlockLocByBlockNum .all db num = errorf "Entry not found in index" := by
  have hnone : lastOf (ps.flatMap (Placed.puts hash)) (.blockNum num) = none :=
    lastOf_flatMap_eq_none fun p hp => by rw [lastOf_puts_blockNum, if_neg (hnum p hp)]
  have hloc := lookupLoc_eq hidx .blockNum (k := .blockNum num) (ne_blkMgrInfoKey nofun nofun)
  rw [getBlockLocByBlockNum, show constructBlockNumKey num = (IndexKey.blockNum num).bytes from rfl,
    hloc, hnone]
  rfl

theorem Running.lost (hattrs : conf.attrs = .all) (h : Running conf s l) (hv : l.Valid)
    (hs : l.Small) {sb : StoredBlock}
    (hnum : sb.block.header.number = ofNat l.placed.length)
    (hfirst : Rolls conf l.checkpoint sb.bytes → l.placed ≠ []) :
    ¬ Retrievable conf (s.applyAll (addSteps conf l sb true)) sb.block := by
  intro hret
  have hroom := h.room sb hfirst
  obtain ⟨-, -, hidx⟩ := hroom.counted sb
  rw [Shape.placed_room] at hidx
  have hother : ∀ p ∈ l.placed, p.number ≠ sb.block.header.number := by
    intro p hp heq
    obtain ⟨i, hi⟩ := mem_iff_getElem?.mp hp
    have hlt := lt_length hi
    have hblocks := hs.blocks
    rw [hv.numbered i p hi, hnum] at heq
    have := ofNat_inj (by omega) (by omega) heq
    omega
  have hne : sb.block.header.number ≠ ofNat (2 ^ 64 - 1) := by
    intro heq
    have hblocks := hs.blocks
    rw [hnum] at heq
    have := ofNat_inj (by omega) (by omega) heq
    omega
  have hfound := hret.byNumber
  rw [Store.retrieveBlockByNumber, if_neg hne, hattrs, addSteps, Store.applyAll_append] at hfound
  have hloc := blockLocByNum_error hidx hother
  obtain ⟨flp, hflp, -⟩ := bind_ok.mp hfound
  cases hloc.symm.trans hflp

end Retrieve

/-! ## Runs -/

/-- If `addBlock` returns no error the block is retrieved from then on; else height and checkpoint
stay as they were. -/
def NoIndexLoss (conf : StoreConf) (es : List NodeEvent) : Prop :=
  ∀ pre b indexFails rest s, es = pre ++ .add b indexFails :: rest → Node.run conf pre = .up s →
    ((addBlock conf s.mgr b indexFails).2 = .ok () → ∀ mid post s', rest = mid ++ post →
      Node.run conf (pre ++ .add b indexFails :: mid) = .up s' → Retrievable conf s' b) ∧
    ((addBlock conf s.mgr b indexFails).2 ≠ .ok () →
      (∃ e, (addBlock conf s.mgr b indexFails).2 = fail e) ∧
      (s.applyAll (addBlock conf s.mgr b indexFails).1).mgr = s.mgr)

/-- For a block with the next number, serialising does not panic and the index write does not fail.
-/
def IndexKept (conf : StoreConf) (es : List NodeEvent) : Prop :=
  ∀ pre b indexFails rest s, es = pre ++ .add b indexFails :: rest → Node.run conf pre = .up s →
    b.header.number = s.mgr.bcInfo.height →
    (indexFails = true → ∃ e, serializeBlock b = .error e) ∧ ¬ (serializeBlock b).Panics

section Runs

variable {conf : StoreConf} {es : List NodeEvent} {b : Block} {mgr : BlockfileMgr}
  {indexFails : Bool} {pre post : List NodeEvent}

theorem addBlock_eq_ok (h : (addBlock conf mgr b indexFails).2 = .ok ()) :
    b.header.number = mgr.bcInfo.height ∧ ∃ r, serializeBlock b = .ok r := by
  rw [addBlock] at h
  split at h
  · cases h
  · rename_i hnum
    refine ⟨not_ne_iff.mp hnum, ?_⟩
    cases hser : serializeBlock b with
    | error e =>
      rw [hser] at h
      cases h
    | ok r => exact ⟨r, rfl⟩

theorem IndexKept.not_loses (h : IndexKept conf es) :
    ∀ pre e post, es = pre ++ e :: post → ¬ LosesIndex conf (Node.run conf pre) e := by
  intro pre e post hsplit hloses
  obtain ⟨s, b, hup, rfl, hok⟩ := hloses
  obtain ⟨hnum, r, hr⟩ := addBlock_eq_ok hok
  obtain ⟨e, he⟩ := (h pre b true post s hsplit hup hnum).1 rfl
  rw [hr] at he
  cases he

theorem IndexKept.of_append (h : IndexKept conf (pre ++ post)) : IndexKept conf pre := by
  intro pre' b indexFails rest s hsplit hup hnum
  exact h pre' b indexFails (rest ++ post) s (by rw [hsplit, append_assoc]; rfl) hup hnum

theorem NoIndexLoss.of_append (h : NoIndexLoss conf (pre ++ post)) : NoIndexLoss conf pre := by
  intro pre' b indexFails rest s hsplit hup
  obtain ⟨hkept, hunchanged⟩ := h pre' b indexFails (rest ++ post) s
    (by rw [hsplit, append_assoc]; rfl) hup
  refine ⟨fun hok mid post' s' hrest => hkept hok mid (post' ++ post) s' ?_, hunchanged⟩
  rw [hrest, append_assoc]

variable (conf es indexFails)

theorem run_append (es' : List NodeEvent) :
    Node.run conf (es ++ es') = es'.foldl (Node.step conf) (Node.run conf es) := foldl_append

/-- What refuses a block: an error, or the panic of its serialisation. -/
theorem addBlock_of_error {e : Fault} (hnum : b.header.number = mgr.bcInfo.height)
    (hser : serializeBlock b = .error e) :
    addBlock conf mgr b indexFails =
      ([], .error (wrapError "Error while serializing block: " e)) := by
  rw [addBlock, if_neg (not_ne_iff.mpr hnum), hser]

theorem addBlock_of_number (hnum : b.header.number ≠ mgr.bcInfo.height) :
    ∃ e, addBlock conf mgr b indexFails = ([], fail e) :=
  ⟨_, by rw [addBlock, if_pos hnum]⟩

variable {conf es indexFails}

theorem wrapError_error (text : String) (e : GoError) :
    ∃ e', wrapError text (.error e) = .error e' := by
  cases e with
  | text msg | num e | json | proto => exact ⟨_, rfl⟩

variable (hattrs : conf.attrs = .all)
include hattrs

theorem Running.refused {s : Store} {l : Shape} (h : Running conf s l) (hb : Storable conf b)
    (hpanic : b.header.number = s.mgr.bcInfo.height → ¬ (serializeBlock b).Panics)
    (hno : (addBlock conf s.mgr b indexFails).2 ≠ .ok ()) :
    (∃ e, (addBlock conf s.mgr b indexFails).2 = fail e) ∧
      (s.applyAll (addBlock conf s.mgr b indexFails).1).mgr = s.mgr := by
  have hheight : s.mgr.bcInfo.height = ofNat l.placed.length := by
    rw [h.mgr, Shape.mgr, height_infoOf, l.chain_eq, length_map]
  by_cases hnum : b.header.number = s.mgr.bcInfo.height
  · obtain ⟨hne | ⟨e, hser⟩, -⟩ | ⟨sb, -, -, -, hadd⟩ := h.addBlock_cases hattrs hb
    · exact absurd (hnum.trans hheight) hne
    · rw [addBlock_of_error conf indexFails hnum hser]
      cases e with
      | error e =>
        obtain ⟨e', he'⟩ := wrapError_error "Error while serializing block: " e
        exact ⟨⟨e', by rw [he']; rfl⟩, rfl⟩
      | panic p => exact absurd ⟨p, hser⟩ (hpanic hnum)
    · rw [hadd] at hno
      exact absurd rfl hno
  · obtain ⟨e, he⟩ := addBlock_of_number conf indexFails hnum
    rw [he]
    exact ⟨⟨e, rfl⟩, rfl⟩

/-- Nothing is lost if no index write of an accepted block fails. -/
theorem IndexKept.noIndexLoss (hmax : conf.maxBlockfileSize < 2 ^ 63) (hlen : es.length < 2 ^ 63)
    (hes : ∀ e ∈ es, e.Storable conf) (h : IndexKept conf es) :
    NoIndexLoss conf es := by
  intro pre b indexFails rest s hsplit hup
  subst hsplit
  rw [length_append, length_cons] at hlen
  have hb : Storable conf b := hes _ (mem_append_right _ mem_cons_self)
  obtain ⟨c, -, hok⟩ := NodeOk.run hattrs hmax pre (by omega)
    (fun e he => hes e (mem_append_left _ he)) h.of_append.not_loses
  rw [hup] at hok
  constructor
  · intro hret mid post s' hrest hup'
    subst hrest
    rw [length_append] at hlen
    have hloses := h.not_loses pre (.add b indexFails) (mid ++ post) rfl
    rw [hup] at hloses
    obtain ⟨c', hadds, hok'⟩ := hok.add hattrs hmax hb indexFails hloses
    have hadds : c' = if (addBlock conf s.mgr b indexFails).2 = .ok () then c ++ [b] else c := hadds
    rw [if_pos hret] at hadds
    subst hadds
    obtain ⟨c', hle, hok'⟩ := hok'.foldl hattrs hmax mid (by omega)
      (fun e he => hes e (mem_append_right _ (mem_cons_of_mem _ (mem_append_left _ he))))
      fun pre' e post' hmid => by
        have := h.not_loses (pre ++ .add b indexFails :: pre') e (post' ++ post)
          (by rw [hmid]; simp)
        rwa [run_append, foldl_cons, hup] at this
    rw [run_append, foldl_cons, hup] at hup'
    rw [hup'] at hok'
    obtain ⟨l, hrun, rfl, hv, hw⟩ := hok'
    exact hrun.retrievable hattrs hv (hw.small (by omega))
      (hle.subset (mem_append_right _ mem_cons_self))
  · intro hno
    obtain ⟨l, hrun, -, -, -⟩ := hok
    exact hrun.refused hattrs hb (fun hnum => (h pre b indexFails rest s rfl hup hnum).2) hno

/-- A block is lost as soon as its index entries are. -/
theorem NoIndexLoss.indexKept (hmax : conf.maxBlockfileSize < 2 ^ 63) (hlen : es.length < 2 ^ 63)
    (hes : ∀ e ∈ es, e.Storable conf) (h : NoIndexLoss conf es) :
    IndexKept conf es := by
  induction es using reverseRecOn with
  | nil =>
    intro pre b indexFails rest s hsplit
    exact absurd hsplit (by simp)
  | append_singleton es e ih =>
    rw [length_append] at hlen
    have hinit := ih (lt_of_succ_lt hlen) (fun x hx => hes x (mem_append_left _ hx)) h.of_append
    intro pre b indexFails rest s hsplit hup hnum
    -- the last event, or one before it
    obtain rfl | ⟨rest', last, rfl⟩ := eq_nil_or_concat' rest
    · obtain ⟨rfl, he⟩ := append_inj' hsplit rfl
      obtain rfl := singleton_inj.mp he
      obtain ⟨c, -, hok⟩ := NodeOk.run hattrs hmax es (lt_of_succ_lt hlen)
        (fun x hx => hes x (mem_append_left _ hx)) hinit.not_loses
      rw [hup] at hok
      obtain ⟨l, hrun, -, hv, hw⟩ := hok
      obtain ⟨hkept, hunchanged⟩ := h es b indexFails [] s rfl hup
      have hb : Storable conf b := hes _ (mem_append_right _ mem_cons_self)
      constructor
      · intro hfails
        subst hfails
        obtain ⟨hne | herr, -⟩ | ⟨sb, rfl, hnum', hfirst, hadd⟩ := hrun.addBlock_cases hattrs hb
        · refine absurd ?_ hne
          rw [hnum, hrun.mgr, Shape.mgr, height_infoOf, l.chain_eq, length_map]
        · exact herr
        · refine absurd (hkept (by rw [hadd]) [] [] _ rfl ?_)
            (hrun.lost hattrs hv (hw.small (lt_of_succ_lt hlen)) hnum' hfirst)
          rw [run_append, hup, foldl_cons, foldl_nil, Node.step, hadd]
      · intro hpanics
        obtain ⟨p, hp⟩ := hpanics
        have hadd := addBlock_of_error conf indexFails hnum hp
        obtain ⟨⟨e, he⟩, -⟩ := hunchanged (by rw [hadd]; simp)
        rw [hadd] at he
        cases he
    · rw [← cons_append, ← append_assoc] at hsplit
      obtain ⟨hes', -⟩ := append_inj' hsplit rfl
      exact hinit pre b indexFails rest' s hes' hup hnum

omit hattrs

/-- Accepted blocks can be retrieved from then on exactly if no index write of theirs fails. -/
theorem no_index_loss_iff (hattrs : conf.attrs = .all) (hmax : conf.maxBlockfileSize < 2 ^ 63)
    (es : List NodeEvent) (hlen : es.length < 2 ^ 63) (hes : ∀ e ∈ es, e.Storable conf) :
    NoIndexLoss conf es ↔ IndexKept conf es :=
  ⟨fun h => h.indexKept hattrs hmax hlen hes, fun h => h.noIndexLoss hattrs hmax hlen hes⟩

end Runs

theorem two_indexed_blocks_kept :
    NoIndexLoss smallConf [.start, .add (blockOf 0 [str "t0"] 0) false,
      .add (blockOf 1 [str "t1"] 0) false] := by
  have h0 : Storable smallConf (blockOf 0 [str "t0"] 0) :=
    storable_of_ok rfl (by decide) rfl (by decide) (by decide) (by decide)
  have h1 : Storable smallConf (blockOf 1 [str "t1"] 0) :=
    storable_of_ok rfl (by decide) rfl (by decide) (by decide) (by decide)
  refine (no_index_loss_iff rfl (by decide) _ (by decide) ?_).mpr ?_
  · simp only [forall_mem_cons, NodeEvent.Storable]
    exact ⟨trivial, h0, h1, by simp⟩
  · intro pre b indexFails rest s hsplit _ _
    have hmem : NodeEvent.add b indexFails ∈ pre ++ .add b indexFails :: rest :=
      mem_append_right _ mem_cons_self
    rw [← hsplit] at hmem
    simp only [mem_cons, NodeEvent.add.injEq, not_mem_nil, or_false, reduceCtorEq, false_or] at hmem
    obtain ⟨rfl, rfl⟩ | ⟨rfl, rfl⟩ := hmem
    · exact ⟨by simp, not_panics_ok _⟩
    · exact ⟨by simp, not_panics_ok _⟩

def Node.blockByNumber (conf : StoreConf) (num : UInt64) : Node → Result Block
  | .up s => s.retrieveBlockByNumber conf num
  | .down _ => errorf "stopped"

def Node.adding (conf : StoreConf) (b : Block) (indexFails : Bool) : Node → Result Unit
  | .up s => (addBlock conf s.mgr b indexFails).2
  | .down _ => errorf "stopped"

/-- The write of block 0 fails and `addBlock` returns nil; block 1 is indexed, and no restart
brings block 0 back. -/
theorem failed_index_write_loses_block :
    (Node.run smallConf [.start]).adding smallConf (blockOf 0 [str "t0"] 0) true = .ok () ∧
      (Node.run smallConf [.start, .add (blockOf 0 [str "t0"] 0) true,
        .add (blockOf 1 [str "t1"] 0) false, .crash (fun _ => 1000) 1000,
        .start]).blockByNumber smallConf 0 = errorf "Entry not found in index" ∧
      ¬ NoIndexLoss smallConf [.start, .add (blockOf 0 [str "t0"] 0) true,
        .add (blockOf 1 [str "t1"] 0) false, .crash (fun _ => 1000) 1000, .start] := by
  have hadd : (Node.run smallConf [.start]).adding smallConf (blockOf 0 [str "t0"] 0) true =
      .ok () := by decide +kernel
  have hget : (Node.run smallConf [.start, .add (blockOf 0 [str "t0"] 0) true,
      .add (blockOf 1 [str "t1"] 0) false, .crash (fun _ => 1000) 1000,
      .start]).blockByNumber smallConf 0 = errorf "Entry not found in index" := by
    decide +kernel
  refine ⟨hadd, hget, fun h => ?_⟩
  cases hup : Node.run smallConf [.start] with
  | down d =>
    rw [hup] at hadd
    exact absurd hadd nofun
  | up s =>
    rw [hup] at hadd
    obtain ⟨hkept, -⟩ := h [.start] _ _ _ s rfl hup
    cases hup' : Node.run smallConf [.start, .add (blockOf 0 [str "t0"] 0) true,
        .add (blockOf 1 [str "t1"] 0) false, .crash (fun _ => 1000) 1000, .start] with
    | down d =>
      rw [hup'] at hget
      exact absurd hget (show (errorf "stopped" : Result Block) ≠ _ by decide)
    | up s' =>
      rw [hup'] at hget
      have hfound := (hkept hadd _ [] s' (append_nil _).symm hup').byNumber
      exact absurd (hget.symm.trans hfound) nofun

end FabricOev.BlockStore
