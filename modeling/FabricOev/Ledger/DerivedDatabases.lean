import FabricOev.Ledger.Recovery

/-!
# The derived databases

On the MVCC path the state and the history database are functions of the block store: each
stored block, with the flags it was stored with, brings them from one height to the next. So
recovery can bring each of them up from its own savepoint, wherever the other one is.
-/

namespace FabricOev.Ledger

open Go Protos Bench List Result Block Option UInt64 Except StateDb

section Stored

variable {hash : Bytes → Bytes} {db : StateDb} {number : UInt64} {i : Nat} {ds : List Bytes}
  {st st' : TxFlags × UpdateBatch} {block block' : Block} {updates : UpdateBatch}

variable (h : validateLoop hash db number true i ds st = .ok st')
include h

/-- With its flags a block is validated again, on any state, to the same flags and batch. -/
theorem validateLoop_recommit (db' : StateDb) :
    validateLoop hash db' number false i ds (st'.1, st.2) = .ok st' := by
  induction ds generalizing i st with
  | nil =>
    cases h
    rfl
  | cons d ds ih =>
    obtain ⟨mid, hone, hrest⟩ := bind_ok.mp h
    obtain ⟨hlen, -, hlow⟩ := validateLoop_flags hrest
    have hkept : st'.1[i]? = mid.1[i]? := hlow i (by omega)
    have hcase := validateOne_cases hone
    have hi : i < st'.1.length := by
      rw [hlen, hcase.length]
      exact validateOne_lt hone
    have hstep : validateOne hash db' number false (st'.1, st.2) i d = .ok (st'.1, mid.2) := by
      cases hcase with
      | skipped hv =>
        refine validateOne_of_invalid ?_ ?_ d
        · exact hi
        · rwa [FlaggedValid, hkept]
      | other hv hc ht =>
        refine validateOne_of_other ?_ hc ht
        rwa [FlaggedValid, hkept]
      | rejected hv hc ht hne =>
        refine validateOne_of_invalid ?_ ?_ d
        · exact hi
        · rw [FlaggedValid, hkept, getElem?_set_self hv.lt]
          exact fun hval => toByte_ne_valid hne (some.inj hval)
      | accepted hv hc ht hrw hm hu =>
        refine (validateOne_of_endorsed ?_ hc ht hrw).trans ?_
        · rwa [FlaggedValid, hkept]
        · rw [hu]
          rfl
    rw [validateLoop, hstep]
    exact ih hrest

theorem historyLoop_isOk : ∃ ks, historyLoop number st'.1 i ds = .ok ks := by
  induction ds generalizing i st with
  | nil => exact ⟨[], rfl⟩
  | cons d ds ih =>
    obtain ⟨mid, hone, hrest⟩ := bind_ok.mp h
    obtain ⟨hlen, -, hlow⟩ := validateLoop_flags hrest
    have hkept : st'.1[i]? = mid.1[i]? := hlow i (by omega)
    have hcase := validateOne_cases hone
    have hi : i < st'.1.length := by
      rw [hlen, hcase.length]
      exact validateOne_lt hone
    have hkeys : FlaggedValid st'.1 i → ∃ ks, historyKeysOf number i d = .ok ks := by
      intro hv'
      rw [FlaggedValid, hkept] at hv'
      cases hcase with
      | skipped hv => exact absurd hv' hv
      | other hv hc ht => exact ⟨[], by rw [historyKeysOf, hc, ok_bind, if_pos ht]⟩
      | rejected hv hc ht hne =>
        rw [getElem?_set_self hv.lt] at hv'
        exact absurd (some.inj hv') (toByte_ne_valid hne)
      | accepted hv hc ht hrw hm hu =>
        obtain ⟨action, haction, hrw⟩ := hrw
        rw [historyKeysOf, hc, ok_bind, if_neg (not_not.mpr ht), haction, ok_bind, hrw]
        exact ⟨_, rfl⟩
    obtain ⟨rest, hrest⟩ := ih hrest
    rw [historyLoop, TxFlags.isValid_eq, if_pos hi, ok_bind, hrest]
    by_cases hv : FlaggedValid st'.1 i
    · obtain ⟨ks, hks⟩ := hkeys hv
      exact ⟨ks ++ rest, by rw [decide_eq_true hv, if_pos rfl, hks]; rfl⟩
    · exact ⟨rest, by rw [decide_eq_false hv]; rfl⟩

omit h

theorem Block.txsFilter_setFilter_ok {b : Block} {flags fs : TxFlags} (h : b.txsFilter = .ok flags)
    (hne : fs = [] → b.data = []) : (b.setFilter fs).txsFilter = .ok fs := by
  obtain ⟨fs', hfs, -⟩ := bind_ok.mp h
  rw [txsFilter, metadataAt_set_ok hfs, ok_bind]
  split
  · rename_i he
    rw [setFilter_data, hne he, he]
    rfl
  · rfl

theorem prepareBatch_stored
    (h : validateAndPrepareBatch hash db block true = .ok (block', updates)) :
    ∃ flagsIn flags, block' = block.setFilter flags ∧ block'.txsFilter = .ok flags ∧
      validateLoop hash db block.header.number true 0 block.data (flagsIn, ∅) =
        .ok (flags, updates) := by
  obtain ⟨flagsIn, hin, h⟩ := bind_ok.mp h
  obtain ⟨⟨flags, updates'⟩, hloop, h⟩ := bind_ok.mp h
  cases h
  have hlen : flags.length = flagsIn.length := (validateLoop_flags hloop).1
  refine ⟨flagsIn, flags, rfl, txsFilter_setFilter_ok hin fun he => ?_, hloop⟩
  exact txsFilter_eq_ok hin (length_eq_zero_iff.mp (by rw [← hlen, he]; rfl))

/-- What `CommitLostBlock` does to the state database. -/
def recommitState (hash : Bytes → Bytes) (db : StateDb) (block : Block) : Result StateDb := do
  let (block, updates) ← validateAndPrepareBatch hash db block false
  .ok (db.applyUpdates updates (blockHeight block))

/-- A validated block, as it is stored, does to the state what its commit does. -/
theorem recommitState_validated
    (h : validateAndPrepareBatch hash db block true = .ok (block', updates)) :
    recommitState hash db block' = .ok (db.applyUpdates updates (blockHeight block')) := by
  obtain ⟨flagsIn, flags, rfl, hstored, hloop⟩ := prepareBatch_stored h
  have hagain := validateLoop_recommit hloop db
  rw [recommitState, validateAndPrepareBatch, hstored, ok_bind, setFilter_header,
    setFilter_data, hagain]
  show ok (db.applyUpdates updates (blockHeight ((block.setFilter flags).setFilter flags))) = _
  rw [setFilter_setFilter]

/-- A validated block can be put into the history, and moves its savepoint. -/
theorem HistoryDb.commit_validated
    (h : validateAndPrepareBatch hash db block true = .ok (block', updates)) (hist : HistoryDb) :
    ∃ hist', hist.commit block' = .ok hist' ∧
      hist'.savepoint = some ⟨block'.header.number, ofNat block'.data.length⟩ := by
  obtain ⟨flagsIn, flags, rfl, hstored, hloop⟩ := prepareBatch_stored h
  obtain ⟨ks, hks⟩ := historyLoop_isOk hloop
  rw [HistoryDb.commit, hstored, ok_bind, setFilter_header, setFilter_data, hks]
  exact ⟨_, rfl, rfl⟩

end Stored

/-! ## Ledgers filled by the MVCC path -/

/-- The ledger after blocks were committed; a commit that fails leaves the ledger as it is. -/
def mvccRun (cfg : Config) (bs : List Block) : KvLedger :=
  bs.foldl (fun l b => (commitMvcc cfg l b).ledger) KvLedger.empty

theorem mvccRun_snoc (cfg : Config) (bs : List Block) (b : Block) :
    mvccRun cfg (bs ++ [b]) = (commitMvcc cfg (mvccRun cfg bs) b).ledger :=
  foldl_append ..

/-- The history database with one more block, if the peer has one. -/
def Config.commitHistory (cfg : Config) (hist : HistoryDb) (block : Block) : Result HistoryDb :=
  if cfg.historyDbEnabled then hist.commit block else .ok hist

theorem commitMvcc_stored (cfg : Config) (l : KvLedger) (block : Block) :
    (commitMvcc cfg l block).ledger = l ∨ ∃ block' updates hist,
        validateAndPrepareBatch cfg.hash l.stateDb block true = .ok (block', updates) ∧
        block'.header.number.toNat = l.blocks.length ∧
        cfg.commitHistory l.historyDb block' = .ok hist ∧
        (commitMvcc cfg l block).ledger =
          ⟨l.blocks ++ [block'], l.stateDb.applyUpdates updates (blockHeight block'), hist⟩ := by
  rw [commitMvcc]
  cases hv : validateAndPrepareBatch cfg.hash l.stateDb block true with
  | error f => exact .inl rfl
  | ok r =>
    obtain ⟨block', updates⟩ := r
    dsimp only
    cases ha : addBlock l.blocks block' with
    | error f => exact .inl rfl
    | ok blocks =>
      obtain ⟨hnumber, rfl⟩ := addBlock_ok ha
      obtain ⟨hist, hcommit, -⟩ := HistoryDb.commit_validated hv l.historyDb
      right
      dsimp only [Ledger.commitHistory, Config.commitHistory]
      cases cfg.historyDbEnabled with
      | false => exact ⟨block', updates, l.historyDb, rfl, hnumber, rfl, rfl⟩
      | true =>
        refine ⟨block', updates, hist, rfl, hnumber, hcommit, ?_⟩
        rw [if_pos rfl, hcommit]
        rfl

/-- A commit does nothing, or appends a block and brings both databases up to it. -/
theorem commitMvcc_ledger (cfg : Config) (l : KvLedger) (block : Block) :
    (commitMvcc cfg l block).ledger = l ∨
      ∃ block' db hist, block'.header.number.toNat = l.blocks.length ∧
        recommitState cfg.hash l.stateDb block' = .ok db ∧
        db.savepoint = some (blockHeight block') ∧
        cfg.commitHistory l.historyDb block' = .ok hist ∧
        (cfg.historyDbEnabled = true →
          hist.savepoint = some ⟨block'.header.number, ofNat block'.data.length⟩) ∧
        (commitMvcc cfg l block).ledger = ⟨l.blocks ++ [block'], db, hist⟩ := by
  obtain hl | ⟨block', updates, hist, hv, hnumber, hcommit, hl⟩ := commitMvcc_stored cfg l block
  · exact .inl hl
  · refine .inr ⟨block', _, hist, hnumber, recommitState_validated hv, rfl, hcommit, fun he => ?_, hl⟩
    obtain ⟨hist', hcommit', hsaved⟩ := HistoryDb.commit_validated hv l.historyDb
    rw [Config.commitHistory, if_pos he] at hcommit
    rwa [← ok.inj (hcommit'.symm.trans hcommit)]

/-- The databases are those of the stored blocks, and their savepoints say so. -/
structure Derived (cfg : Config) (l : KvLedger) : Prop extends InSync cfg l where
  numbers : ∀ (n : Nat) (b : Block), l.blocks[n]? = some b → b.header.number.toNat = n
  stateOf : l.blocks.foldlM (recommitState cfg.hash) empty = .ok l.stateDb
  historyOf : l.blocks.foldlM cfg.commitHistory HistoryDb.empty = .ok l.historyDb

theorem numbers_append {blocks : List Block} {block : Block}
    (h : ∀ (n : Nat) (b : Block), blocks[n]? = some b → b.header.number.toNat = n)
    (hnumber : block.header.number.toNat = blocks.length) (n : Nat) (b : Block)
    (hb : (blocks ++ [block])[n]? = some b) : b.header.number.toNat = n := by
  obtain hb | ⟨rfl, rfl⟩ := getElem?_concat_eq_some.mp hb
  · exact h n b hb
  · exact hnumber

theorem Derived.snoc {cfg : Config} {l : KvLedger} (h : Derived cfg l) (block : Block) :
    Derived cfg (commitMvcc cfg l block).ledger := by
  obtain hl | ⟨block', db, hist, hnumber, hstate, hsaved, hhist, hsaved', hl⟩ :=
    commitMvcc_ledger cfg l block
  · rwa [hl]
  · rw [hl]
    refine ⟨⟨?_, fun he => ?_⟩, fun n b hb => ?_, ?_, ?_⟩
    · rw [hsaved, length_append, ← hnumber]
      rfl
    · rw [hsaved' he, length_append, ← hnumber]
      rfl
    · exact numbers_append h.numbers hnumber n b hb
    · rw [foldlM_append, h.stateOf, ok_bind, foldlM_cons, hstate]
      rfl
    · rw [foldlM_append, h.historyOf, ok_bind, foldlM_cons, hhist]
      rfl

theorem derived_mvccRun (cfg : Config) (bs : List Block) : Derived cfg (mvccRun cfg bs) := by
  induction bs using reverseRecOn with
  | nil => exact ⟨⟨rfl, fun _ => rfl⟩, fun n b hb => (nomatch hb), rfl, rfl⟩
  | append_singleton bs b ih =>
    rw [mvccRun_snoc]
    exact ih.snoc b

theorem mvccRun_take_blocks (cfg : Config) (bs : List Block) (i : Nat) :
    (mvccRun cfg (bs.take i)).blocks <+: (mvccRun cfg bs).blocks := by
  induction bs using reverseRecOn with
  | nil => rw [take_nil]
  | append_singleton bs b ih =>
    by_cases hi : i ≤ bs.length
    · rw [take_append_of_le_length hi, mvccRun_snoc]
      obtain hl | ⟨block', _, _, -, -, -, -, -, hl⟩ := commitMvcc_ledger cfg (mvccRun cfg bs) b
      · rwa [hl]
      · rw [hl]
        exact ih.trans (prefix_append _ _)
    · rw [take_of_length_le (by simp; omega)]

theorem mvccRun_reaches (cfg : Config) (bs : List Block) (a : Nat)
    (ha : a ≤ (mvccRun cfg bs).blocks.length) :
    ∃ i, (mvccRun cfg (bs.take i)).blocks = (mvccRun cfg bs).blocks.take a := by
  induction bs using reverseRecOn with
  | nil => exact ⟨0, by rw [Nat.le_zero.mp ha]; rfl⟩
  | append_singleton bs b ih =>
    obtain hlast | hlt := Nat.eq_or_lt_of_le ha
    · exact ⟨(bs ++ [b]).length, by rw [take_length, hlast, take_length]⟩
    · have hgrown : ∃ ext, (mvccRun cfg (bs ++ [b])).blocks = (mvccRun cfg bs).blocks ++ ext ∧
          ext.length ≤ 1 := by
        rw [mvccRun_snoc]
        obtain hl | ⟨block', _, _, -, -, -, -, -, hl⟩ := commitMvcc_ledger cfg (mvccRun cfg bs) b
        · exact ⟨[], by rw [hl, append_nil], by simp⟩
        · exact ⟨[block'], by rw [hl], le_refl 1⟩
      obtain ⟨ext, hext, hshort⟩ := hgrown
      rw [hext, length_append] at hlt
      have ha : a ≤ (mvccRun cfg bs).blocks.length := by omega
      obtain ⟨i, hi⟩ := ih ha
      refine ⟨min i bs.length, ?_⟩
      rw [hext, take_append_of_le_length ha, take_append_of_le_length (by omega), ← hi]
      congr 2
      rw [take_eq_take_iff]
      omega

section Recommitting

variable {cfg : Config} {l : KvLedger} {l' : KvLedger} {steps : List (Recoverable × Block)}
  {first last : UInt64} {b a : Nat}

def recommitAll (cfg : Config) (steps : List (Recoverable × Block)) (l : KvLedger) :
    Result KvLedger :=
  steps.foldlM (fun l s => commitLostBlock cfg l s.2 s.1) l

def blocksFor (r : Recoverable) (steps : List (Recoverable × Block)) : List Block :=
  steps.filterMap fun s => if s.1 = r then some s.2 else none

/-- The blocks from one height to another, each to all of the given databases. -/
def lostSteps (blocks : List Block) (first last : Nat) (rs : List Recoverable) :
    List (Recoverable × Block) :=
  ((blocks.take last).drop first).flatMap fun b => rs.map fun r => (r, b)

theorem commitLost_blocks {b : Block} {r : Recoverable}
    (h : commitLostBlock cfg l b r = .ok l') : l'.blocks = l.blocks := by
  cases r with
  | state | history =>
    obtain ⟨p, -, h⟩ := bind_ok.mp h
    cases h
    rfl

theorem recommitAll_blocks (h : recommitAll cfg steps l = .ok l') : l'.blocks = l.blocks := by
  induction steps generalizing l with
  | nil =>
    cases h
    rfl
  | cons s steps ih =>
    obtain ⟨mid, hmid, h⟩ := bind_ok.mp h
    rw [ih h, commitLost_blocks hmid]

theorem recommitAll_append (steps steps' : List (Recoverable × Block)) (l : KvLedger) :
    recommitAll cfg (steps ++ steps') l =
      recommitAll cfg steps l >>= fun l => recommitAll cfg steps' l :=
  foldlM_append

theorem recommitAll_eq_ok {db : StateDb} {hist : HistoryDb}
    (hs : (blocksFor .state steps).foldlM (recommitState cfg.hash) l.stateDb = .ok db)
    (hh : (blocksFor .history steps).foldlM HistoryDb.commit l.historyDb = .ok hist) :
    recommitAll cfg steps l = .ok ⟨l.blocks, db, hist⟩ := by
  induction steps generalizing l with
  | nil =>
    cases hs
    cases hh
    rfl
  | cons s steps ih =>
    obtain ⟨r, b⟩ := s
    cases r with
    | state =>
      obtain ⟨mid, hmid, hs⟩ := bind_ok.mp hs
      obtain ⟨p, hp, hmid⟩ := bind_ok.mp hmid
      have hstep : commitLostBlock cfg l b .state = .ok ⟨l.blocks, mid, l.historyDb⟩ := by
        rw [commitLostBlock, hp, ok_bind, ← ok.inj hmid]
      show (commitLostBlock cfg l b .state >>= _) = _
      rw [hstep]
      exact ih hs hh
    | history =>
      obtain ⟨mid, hmid, hh⟩ := bind_ok.mp hh
      have hstep : commitLostBlock cfg l b .history = .ok ⟨l.blocks, l.stateDb, mid⟩ := by
        rw [commitLostBlock, hmid, ok_bind]
      show (commitLostBlock cfg l b .history >>= _) = _
      rw [hstep]
      exact ih hs hh

/-- A loop that recommits the block of each number to the databases. -/
theorem foldlM_recommit {f : KvLedger → Nat → Result KvLedger} {rs : List Recoverable}
    (hf : ∀ l n b, l.blocks[n]? = some b → f l n = recommitAll cfg (rs.map fun r => (r, b)) l)
    (k a : Nat) (hk : a + k ≤ l.blocks.length) : (range' a k).foldlM f l =
      recommitAll cfg (((l.blocks.drop a).take k).flatMap fun b => rs.map fun r => (r, b)) l := by
  induction k generalizing a l with
  | zero => rfl
  | succ k ih =>
    have ha : a < l.blocks.length := by omega
    rw [range'_succ, foldlM_cons, drop_eq_getElem_cons ha, take_succ_cons, flatMap_cons,
      recommitAll_append, hf l a _ (getElem?_eq_getElem ha)]
    cases hrun : recommitAll cfg (rs.map fun r => (r, l.blocks[a])) l with
    | error f => rfl
    | ok l' =>
      have hblocks := recommitAll_blocks hrun
      rw [ok_bind, ok_bind, ih (a + 1) (by rw [hblocks]; omega), hblocks]

/-- The loop of `recommitLostBlocks` reads the blocks in order. -/
theorem recommitLost_eq (hlast : last.toNat < l.blocks.length) (rs : List Recoverable) :
    recommitLostBlocks cfg first last rs l =
      recommitAll cfg (lostSteps l.blocks first.toNat (last.toNat + 1) rs) l := by
  rw [recommitLostBlocks]
  by_cases hle : first.toNat ≤ last.toNat + 1
  · rw [lostSteps, drop_take]
    refine foldlM_recommit (fun l n b h => ?_) _ _ (by omega)
    simp only [h]
    rw [recommitAll, foldlM_map]
  · have hzero : last.toNat + 1 - first.toNat = 0 := by omega
    rw [hzero, lostSteps, drop_take, hzero, take_zero]
    rfl

/-- A recovery from the heights `a` and `b`: the database behind first, then both. -/
def recoverySteps (blocks : List Block) (a b : Nat) : List (Recoverable × Block) :=
  if b < a then
    lostSteps blocks b a [.history] ++ lostSteps blocks a blocks.length [.history, .state]
  else lostSteps blocks a b [.state] ++ lostSteps blocks b blocks.length [.state, .history]

variable (r : Recoverable)

theorem blocksFor_append (steps steps' : List (Recoverable × Block)) :
    blocksFor r (steps ++ steps') = blocksFor r steps ++ blocksFor r steps' :=
  filterMap_append

theorem blocksFor_lostSteps (blocks : List Block) (first last : Nat) (rs : List Recoverable) :
    blocksFor r (lostSteps blocks first last rs) =
      ((blocks.take last).drop first).flatMap fun b => replicate (rs.count r) b := by
  have hone : ∀ b : Block, blocksFor r (rs.map fun r => (r, b)) = replicate (rs.count r) b := by
    intro b
    induction rs with
    | nil => rfl
    | cons r' rs ih =>
      rw [blocksFor, map_cons, filterMap_cons]
      by_cases hr : r' = r
      · subst hr
        rw [if_pos rfl, count_cons_self, replicate_succ]
        exact congrArg (b :: ·) ih
      · rw [if_neg hr, count_cons_of_ne hr]
        exact ih
  rw [lostSteps, blocksFor, filterMap_flatMap]
  simp only [← hone]
  rfl

theorem drop_take_append_drop {α : Type} (xs : List α) (h : a ≤ b) :
    (xs.take b).drop a ++ xs.drop b = xs.drop a := by
  have hb : xs.drop b = (xs.drop a).drop (b - a) := by
    rw [drop_drop]
    congr 1
    omega
  rw [drop_take, hb, take_append_drop]

variable (blocks : List Block)

/-- Recovery recommits to each database the blocks after its savepoint. -/
theorem blocksFor_recoverySteps (a b : Nat) :
    blocksFor .state (recoverySteps blocks a b) = blocks.drop a ∧
      blocksFor .history (recoverySteps blocks a b) = blocks.drop b := by
  have hnone : ∀ xs : List Block, (xs.flatMap fun x => replicate 0 x) = [] := by simp
  have hone : ∀ xs : List Block, (xs.flatMap fun x => replicate 1 x) = xs := by simp
  rw [recoverySteps]
  split
  · simp only [blocksFor_append, blocksFor_lostSteps, take_length]
    exact ⟨congrArg₂ (· ++ ·) (hnone _) (hone _),
      (congrArg₂ (· ++ ·) (hone _) (hone _)).trans (drop_take_append_drop blocks (by omega))⟩
  · simp only [blocksFor_append, blocksFor_lostSteps, take_length]
    exact ⟨(congrArg₂ (· ++ ·) (hone _) (hone _)).trans (drop_take_append_drop blocks (by omega)),
      congrArg₂ (· ++ ·) (hnone _) (hone _)⟩

theorem recoverFrom_eq {savepoint : Option Height} (h : savedHeight savepoint ≤ last.toNat + 1) :
    recoverFrom savepoint last =
      (decide (savedHeight savepoint ≠ last.toNat + 1), ofNat (savedHeight savepoint)) := by
  cases savepoint with
  | none =>
    show (true, (0 : UInt64)) = (decide (0 ≠ last.toNat + 1), ofNat 0)
    rfl
  | some sp =>
    have hsucc : ofNat (sp.blockNum.toNat + 1) = sp.blockNum + 1 := by rfl
    have hne : sp.blockNum ≠ last ↔ sp.blockNum.toNat + 1 ≠ last.toNat + 1 := by
      rw [ne_eq, ne_eq, ← UInt64.toNat_inj]
      omega
    show (decide (sp.blockNum ≠ last), sp.blockNum + 1) =
      (decide (sp.blockNum.toNat + 1 ≠ last.toNat + 1), ofNat (sp.blockNum.toNat + 1))
    rw [hsucc, decide_eq_decide.mpr hne]

theorem lostSteps_self (n : Nat) (rs : List Recoverable) : lostSteps blocks n n rs = [] := by
  rw [lostSteps, drop_take, Nat.sub_self, take_zero]
  rfl

/-- One database is brought up to the other, then both go on. -/
theorem recommitLost_bind {mid : UInt64} (hmid : 0 < mid.toNat) (hle : mid.toNat ≤ last.toNat)
    (hlast : last.toNat < l.blocks.length) (rs rs' : List Recoverable) :
    (recommitLostBlocks cfg first (mid - 1) rs l >>= fun l =>
      recommitLostBlocks cfg mid last rs' l) =
      recommitAll cfg (lostSteps l.blocks first.toNat mid.toNat rs ++
        lostSteps l.blocks mid.toNat (last.toNat + 1) rs') l := by
  have hpred : (mid - 1).toNat = mid.toNat - 1 := UInt64.toNat_sub_of_le _ _ (by
    exact hmid)
  rw [recommitLost_eq (by omega), recommitAll_append, hpred, Nat.sub_add_cancel hmid]
  cases hrun : recommitAll cfg (lostSteps l.blocks first.toNat mid.toNat rs) l with
  | error f => rfl
  | ok l' =>
    have hblocks := recommitAll_blocks hrun
    rw [ok_bind, ok_bind, recommitLost_eq (by rw [hblocks]; exact hlast), hblocks]

/-- `recoverDBs` from the heights `a` and `b`, whichever of them is ahead. -/
theorem recoverDbs_eq
    (hnumbers : ∀ (n : Nat) (b : Block), l.blocks[n]? = some b → b.header.number.toNat = n)
    (hstate : savedHeight l.stateDb.savepoint = a) (ha : a ≤ l.blocks.length)
    (hhist : cfg.historyDbEnabled = true → savedHeight l.historyDb.savepoint = b)
    (hnone : cfg.historyDbEnabled = false → b = l.blocks.length) (hb : b ≤ l.blocks.length) :
    recoverDbs cfg l = recommitAll cfg (recoverySteps l.blocks a b) l := by
  rw [recoverDbs]
  split
  · rename_i hempty
    rw [hempty, length_nil, Nat.le_zero] at ha hb
    rw [hempty, ha, hb]
    rfl
  · rename_i hne
    have hpos : 0 < l.blocks.length := length_pos_iff.mpr hne
    have hlast : (ofNat l.blocks.length - 1).toNat + 1 = l.blocks.length := by
      obtain ⟨k, hk⟩ : ∃ k, l.blocks.length = k + 1 := ⟨l.blocks.length - 1, by omega⟩
      have hnum := hnumbers k l.blocks[k] (getElem?_eq_getElem (by omega))
      rw [hk, last_block_number hnum, hnum]
    generalize ofNat l.blocks.length - 1 = last at hlast
    have hofNat : ∀ k, k ≠ l.blocks.length → k ≤ l.blocks.length → (ofNat k).toNat = k := by
      intro k hk hle
      have hbound := last.toNat_lt
      exact toNat_ofNat_of_lt' (by rw [size]; omega)
    have hs : recoverFrom l.stateDb.savepoint last = (decide (a ≠ l.blocks.length), ofNat a) := by
      rw [recoverFrom_eq (by omega), hstate, hlast]
    have hh : ∃ fh, (if cfg.historyDbEnabled then recoverFrom l.historyDb.savepoint last
        else (false, 0)) = (decide (b ≠ l.blocks.length), fh) ∧
        (b ≠ l.blocks.length → fh.toNat = b) := by
      cases he : cfg.historyDbEnabled with
      | false => exact ⟨0, by simp [hnone he], fun h => absurd (hnone he) h⟩
      | true =>
        refine ⟨ofNat b, ?_, fun h => hofNat b h hb⟩
        rw [if_pos rfl, recoverFrom_eq (by rw [hhist he]; omega), hhist he, hlast]
    obtain ⟨fh, hh, hfh⟩ := hh
    have hafs : a ≠ l.blocks.length → (ofNat a).toNat = a := fun h => hofNat a h ha
    generalize ofNat a = fs at hs hafs
    simp only [shouldRecover_state, shouldRecover_history, hs, hh]
    rw [recoverySteps, ← hlast]
    rw [← hlast] at hfh hafs
    by_cases han : a = last.toNat + 1
    · rw [decide_eq_false (not_not.mpr han)]
      by_cases hbn : b = last.toNat + 1
      · rw [decide_eq_false (not_not.mpr hbn), han, hbn, if_neg (lt_irrefl _), lostSteps_self,
          lostSteps_self]
        rfl
      · have hlt : b < a := by omega
        rw [decide_eq_true hbn, if_pos hlt, han, lostSteps_self, append_nil]
        show recommitLostBlocks cfg fh last [.history] l = _
        rw [recommitLost_eq (by omega), hfh hbn]
    · rw [decide_eq_true han]
      by_cases hbn : b = last.toNat + 1
      · have hle : ¬ b < a := by omega
        rw [decide_eq_false (not_not.mpr hbn), if_neg hle, hbn, lostSteps_self, append_nil]
        show recommitLostBlocks cfg fs last [.state] l = _
        rw [recommitLost_eq (by omega), hafs han]
      · rw [decide_eq_true hbn, Bool.and_self, if_pos rfl]
        have hfs := hafs han
        have hfh := hfh hbn
        by_cases hlt : b < a
        · rw [if_pos hlt, if_pos (lt_iff_toNat_lt.mpr (by omega)),
            recommitLost_bind (by omega) (by omega) (by omega), hfs, hfh]
        · rw [if_neg hlt, if_neg (fun h => by rw [lt_iff_toNat_lt] at h; omega)]
          by_cases hlt' : a < b
          · rw [if_pos (lt_iff_toNat_lt.mpr (by omega)),
              recommitLost_bind (by omega) (by omega) (by omega), hfs, hfh]
          · have hab : a = b := by omega
            rw [if_neg (fun h => by rw [lt_iff_toNat_lt] at h; omega),
              recommitLost_eq (by omega), hfs, hab, lostSteps_self, nil_append]

end Recommitting

section Heights

variable {cfg : Config} {l s h : KvLedger}

variable (hl : Derived cfg l)
include hl

/-- A ledger that got further has applied the rest of the blocks to the state. -/
theorem Derived.foldlM_state (hs : Derived cfg s) (hsl : s.blocks <+: l.blocks) :
    (l.blocks.drop s.blocks.length).foldlM (recommitState cfg.hash) s.stateDb = .ok l.stateDb := by
  obtain ⟨rest, hrest⟩ := hsl
  have hall := hl.stateOf
  rw [← hrest, foldlM_append, hs.stateOf, ok_bind] at hall
  rw [← hrest, drop_left]
  exact hall

theorem Derived.foldlM_history (hh : Derived cfg h) (hhl : h.blocks <+: l.blocks) :
    (l.blocks.drop h.blocks.length).foldlM cfg.commitHistory h.historyDb = .ok l.historyDb := by
  obtain ⟨rest, hrest⟩ := hhl
  have hall := hl.historyOf
  rw [← hrest, foldlM_append, hh.historyOf, ok_bind] at hall
  rw [← hrest, drop_left]
  exact hall

/-- The steps of a recovery depend on the savepoints only. -/
theorem Derived.exists_steps (hs : Derived cfg s) (hh : Derived cfg h)
    (hsl : s.blocks <+: l.blocks) (hhl : h.blocks <+: l.blocks) :
    ∃ steps : List (Recoverable × Block),
      (∀ db hist, db.savepoint = s.stateDb.savepoint → hist.savepoint = h.historyDb.savepoint →
        recoverDbs cfg ⟨l.blocks, db, hist⟩ = recommitAll cfg steps ⟨l.blocks, db, hist⟩) ∧
      blocksFor .state steps = l.blocks.drop s.blocks.length ∧
      blocksFor .history steps =
        if cfg.historyDbEnabled then l.blocks.drop h.blocks.length else [] := by
  set b := if cfg.historyDbEnabled then h.blocks.length else l.blocks.length with hb
  obtain ⟨hstate, hhist⟩ := blocksFor_recoverySteps l.blocks s.blocks.length b
  refine ⟨recoverySteps l.blocks s.blocks.length b, ?_, hstate, ?_⟩
  · intro db hist hdb hhist
    refine recoverDbs_eq hl.numbers ?_ hsl.length_le (fun he => ?_) (fun he => ?_) ?_
    · rw [hdb, hs.state]
    · rw [hhist, hh.history he, hb, if_pos he]
    · rw [hb, he]
      rfl
    · rw [hb]
      split
      · exact hhl.length_le
      · exact le_refl _
  · rw [hhist, hb]
    split
    · rfl
    · exact drop_length

theorem Derived.recoverDbs_eq_ok (hs : Derived cfg s) (hh : Derived cfg h)
    (hsl : s.blocks <+: l.blocks) (hhl : h.blocks <+: l.blocks) :
    recoverDbs cfg ⟨l.blocks, s.stateDb, h.historyDb⟩ = .ok l := by
  obtain ⟨steps, hsteps, hstate, hhist⟩ := hl.exists_steps hs hh hsl hhl
  have hrest := hl.foldlM_history hh hhl
  rw [hsteps _ _ rfl rfl]
  refine recommitAll_eq_ok (hstate ▸ hl.foldlM_state hs hsl) ?_
  rw [hhist]
  cases he : cfg.historyDbEnabled with
  | true =>
    have hcommit : cfg.commitHistory = HistoryDb.commit := by
      funext hist block
      rw [Config.commitHistory, if_pos he]
    rwa [hcommit] at hrest
  | false =>
    have hkeep : ∀ (bs : List Block) (hist : HistoryDb),
        bs.foldlM cfg.commitHistory hist = .ok hist := by
      intro bs hist
      have hcommit : cfg.commitHistory = fun hist _ => .ok hist := by
        funext hist block
        rw [Config.commitHistory, he]
        rfl
      rw [hcommit]
      induction bs with
      | nil => rfl
      | cons b bs ih => exact ih
    rw [hkeep] at hrest
    exact hrest

end Heights

/-- Recovery of a ledger filled by the MVCC path, with the databases at the heights of any two
of its prefixes, and so at any two heights: each database gets the blocks after its savepoint,
in order, and the ledger is the one that was never interrupted. -/
theorem recoverDbs_mvccRun (cfg : Config) (bs : List Block) :
    (∀ a ≤ (mvccRun cfg bs).blocks.length,
      ∃ i, (mvccRun cfg (bs.take i)).blocks = (mvccRun cfg bs).blocks.take a) ∧
    ∀ i j, let l := mvccRun cfg bs
      let s := mvccRun cfg (bs.take i)
      let h := mvccRun cfg (bs.take j)
      InSync cfg s ∧ InSync cfg h ∧
      (∃ steps : List (Recoverable × Block),
        (∀ db hist, db.savepoint = s.stateDb.savepoint → hist.savepoint = h.historyDb.savepoint →
          recoverDbs cfg ⟨l.blocks, db, hist⟩ = recommitAll cfg steps ⟨l.blocks, db, hist⟩) ∧
        blocksFor .state steps = l.blocks.drop s.blocks.length ∧
        blocksFor .history steps =
          if cfg.historyDbEnabled then l.blocks.drop h.blocks.length else []) ∧
      recoverDbs cfg ⟨l.blocks, s.stateDb, h.historyDb⟩ = .ok l := by
  refine ⟨mvccRun_reaches cfg bs, fun i j => ?_⟩
  have hl := derived_mvccRun cfg bs
  have hs := derived_mvccRun cfg (bs.take i)
  have hh := derived_mvccRun cfg (bs.take j)
  have hsl := mvccRun_take_blocks cfg bs i
  have hhl := mvccRun_take_blocks cfg bs j
  exact ⟨hs.toInSync, hh.toInSync, hl.exists_steps hs hh hsl hhl, hl.recoverDbs_eq_ok hs hh hsl hhl⟩

def historyConfig : Config := ⟨false, true, id⟩

def plainBlock (n : UInt64) (txs : List SignedTx) : Block :=
  ⟨⟨n, [], []⟩, txs.map SignedTx.envelope, some [[], [], [], []]⟩

/-- Two blocks that put one key; the state is lost and the history lacks the second block. -/
theorem recoverDbs_two_puts :
    let bs := [plainBlock 0 [putTx (str "t1") (str "k") (str "v")],
      plainBlock 1 [putTx (str "t2") (str "k") (str "w")]]
    let l := mvccRun historyConfig bs
    let h := mvccRun historyConfig (bs.take 1)
    (l.blocks.length = 2 ∧ h.historyDb.savepoint = some ⟨0, 1⟩) ∧
      recoverDbs historyConfig ⟨l.blocks, empty, h.historyDb⟩ = .ok l := by
  intro bs l h
  obtain ⟨-, -, -, hrec⟩ := (recoverDbs_mvccRun historyConfig bs).2 0 1
  exact ⟨by decide +kernel, hrec⟩

end FabricOev.Ledger
